import Fabric.Decode
import Fabric.FieldOps

/-! Segments of decoded code: straight-line stretches, branches, calls and returns,
with what each leaves unchanged. -/
namespace Fabric
open Lib

/-- The program holds the decoded operation `o` at index `k`. -/
def OpAt (prog : VPUProgram) (k : ℕ) (o : Op) : Prop :=
  ∃ i, prog.instr[k]? = some i ∧ i.decode = .ok o

/-- The program holds the operations `ops` from index `k` on. -/
def CodeAt (prog : VPUProgram) (k : ℕ) (ops : List Op) : Prop :=
  ∀ j o, ops[j]? = some o → OpAt prog (k + j) o

/-- The instruction about to execute does not overflow. -/
def Exact (prog : VPUProgram) (s : Processor) : Prop := ∀ o, OpAt prog s.index o → o.Exact s

/-- A run of `prog` observed by instruction indices. Under `H` no step overflows. -/
abbrev Run (prog : VPUProgram) (H : Prop) : Processor → List ℕ → Processor → Prop :=
  (machine prog).Seg Processor.index fun s => H → Exact prog s

/-- The state with its program counter moved. -/
def Processor.goto (s : Processor) (j : BitVec 32) : Processor := { s with pc := j }

def runOps (ops : List Op) (s : Processor) : Processor := ops.foldl (fun s o => o.apply s) s

/-- None of the operations fails, and under `H` none overflows. -/
def Safe (H : Prop) : List Op → Processor → Prop
  | [], _ => True
  | o :: ops, s => o.fault s = none ∧ (H → o.Exact s) ∧ Safe H ops (o.apply s)

namespace Op

/-- The register an operation writes. -/
def dest : Op → Option Reg
  | .bin _ _ _ d | .not _ d | .set _ d | .ld _ d | .jal _ d | .prime _ _ _ d => some d
  | _ => none

/-- The operation writes neither SRAM nor `p_`. -/
def regOnly : Op → Bool
  | .ldp _ | .st _ _ => false
  | o => o.plain

theorem plain_of_regOnly {o : Op} (h : o.regOnly = true) : o.plain = true := by
  cases o
  case ldp | st | jal | ret | beq => cases h
  all_goals rfl

end Op

/-- Labels are entered one program part after the other. -/
theorem loadLabels_append (is is' : List VPUInstruction) (j : ℕ) (m : Labels) :
    loadLabels (is ++ is') j m = loadLabels is' (j + is.length) (loadLabels is j m) := by
  induction is generalizing j m with
  | nil => rfl
  | cons i is ih =>
    simp only [List.cons_append, loadLabels, ih, List.length_cons]
    rw [show j + 1 + is.length = j + (is.length + 1) by omega]

section CodeAt
variable {prog : VPUProgram} {k : ℕ} {o : Op} {ops ops' : List Op}

theorem OpAt.det {o' : Op} (h : OpAt prog k o) (h' : OpAt prog k o') : o = o' := by
  obtain ⟨i, hi, hd⟩ := h
  obtain ⟨i', hi', hd'⟩ := h'
  rw [hi] at hi'
  cases hi'
  rw [hd] at hd'
  cases hd'
  rfl

theorem OpAt.lt (h : OpAt prog k o) : k < prog.instrSize := by
  obtain ⟨i, hi, -⟩ := h
  exact (List.getElem?_eq_some_iff.mp hi).1

theorem CodeAt.head (h : CodeAt prog k (o :: ops)) : OpAt prog k o := by
  simpa using h 0 o rfl

theorem CodeAt.tail (h : CodeAt prog k (o :: ops)) : CodeAt prog (k + 1) ops := by
  intro j o' hj
  have hh := h (j + 1) o' (by simpa using hj)
  rwa [show k + (j + 1) = k + 1 + j by omega] at hh

/-- The operations from `n` on, `m` of them. -/
theorem CodeAt.slice (h : CodeAt prog k ops) (n m : ℕ) :
    CodeAt prog (k + n) ((ops.drop n).take m) := by
  intro j o' hj
  rw [Nat.add_assoc]
  apply h
  rw [List.getElem?_take] at hj
  split at hj
  · simpa using hj
  · cases hj

theorem CodeAt.left (h : CodeAt prog k (ops ++ ops')) : CodeAt prog k ops := by
  have hleft := h.slice 0 ops.length
  rwa [List.drop_zero, List.take_left, Nat.add_zero] at hleft

/-- Code that decodes to `ops`, placed after `pre`. -/
theorem codeAt_of_decode {code : List VPUInstruction} (pre post : List VPUInstruction)
    (hp : prog.instr = pre ++ code ++ post)
    (hd : code.map VPUInstruction.decode = ops.map .ok) : CodeAt prog pre.length ops := by
  intro j o hj
  have hd' := congrArg (fun l => l[j]?) hd
  simp only [List.getElem?_map, hj, Option.map_some] at hd'
  obtain ⟨i, hi, hdec⟩ := Option.map_eq_some_iff.mp hd'
  refine ⟨i, ?_, hdec⟩
  have hlt : j < code.length := (List.getElem?_eq_some_iff.mp hi).1
  rw [hp, List.getElem?_append_left (by simp; omega), List.getElem?_append_right (by omega),
    Nat.add_sub_cancel_left, hi]

theorem CodeAt.at (h : CodeAt prog k ops) (n : ℕ) (ho : ops[n]? = some o) : OpAt prog (k + n) o :=
  h n o ho

end CodeAt

section Step
variable {prog : VPUProgram} {H : Prop} {s : Processor} {o : Op} {ops : List Op}

@[simp] theorem goto_index (j : BitVec 32) : (s.goto j).index = j.toNat := rfl

theorem next_index (h : s.index < 2 ^ 31) : s.next.index = s.index + 1 := by
  simp only [Processor.index, Processor.next, BitVec.toNat_add] at *
  rw [Nat.mod_eq_of_lt (by simp; omega)]
  simp

theorem jump_eq_goto {l : String} {j : BitVec 32} (h : s.labels l = some j) :
    s.jump l = s.goto j := by
  simp [Processor.jump, Processor.labelAt_of_some s h, Processor.goto]

theorem apply_index (ho : o.plain = true) (h : s.index < 2 ^ 31) :
    (o.apply s).index = s.index + 1 := by
  rw [← next_index h]
  cases o
  case jal | ret | beq => cases ho
  all_goals rfl

theorem apply_labels (ho : o.plain = true) : (o.apply s).labels = s.labels := by
  cases o
  case jal | ret | beq => cases ho
  all_goals rfl

theorem apply_sram (ho : o.regOnly = true) : (o.apply s).sram = s.sram := by
  cases o
  case ldp | st | jal | ret | beq => cases ho
  all_goals rfl

theorem apply_p (ho : o.regOnly = true) : (o.apply s).p = s.p := by
  cases o
  case ldp | st | jal | ret | beq => cases ho
  all_goals rfl

theorem apply_regs {r : Reg} (ho : o.plain = true) (hr : o.dest ≠ some r) :
    (o.apply s).regs r = s.regs r := by
  cases o
  case jal | ret | beq => cases ho
  case ldp | st => rfl
  all_goals exact Function.update_of_ne (fun h => hr (by rw [h]; rfl)) _ _

/-- One decoded instruction that does not fail. -/
theorem run_op (h : OpAt prog s.index o) (hz : o.fault s = none) (he : H → o.Exact s) :
    Run prog H s [s.index] (o.apply s) := by
  obtain ⟨i, hi, hd⟩ := h
  refine .single (machine_running.mpr (OpAt.lt ⟨i, hi, hd⟩)) ?_ ?_
  · intro hH o' ho'
    rw [OpAt.det ho' ⟨i, hi, hd⟩]
    exact he hH
  · exact step_of_no_fault hi hd hz

/-- A step of decoded code that succeeds applies one of its operations. -/
theorem exists_op_of_step {t : Processor} (hd : prog.instr.map VPUInstruction.decode = ops.map .ok)
    (h : step prog s = .ok t) : ∃ i o, prog.instr[s.index]? = some i ∧ i.decode = .ok o ∧
      o ∈ ops ∧ o.fault s = none ∧ t = o.apply s := by
  cases hi : prog.instr[s.index]? with
  | none => rw [step_of_none hi] at h; cases h
  | some i =>
    have hmem := List.mem_map_of_mem (f := VPUInstruction.decode) (List.mem_of_getElem? hi)
    rw [hd] at hmem
    obtain ⟨o, ho, hdec⟩ := List.mem_map.mp hmem
    obtain ⟨hz, rfl⟩ := no_fault_of_step hi hdec.symm h
    exact ⟨i, o, rfl, hdec.symm, ho, hz, rfl⟩

/-- A stretch of straight-line code. -/
theorem run_runOps (hc : CodeAt prog s.index ops) (hp : ∀ o ∈ ops, o.plain = true)
    (hs : Safe H ops s) :
    Run prog H s (List.range' s.index ops.length) (runOps ops s) := by
  induction ops generalizing s with
  | nil => exact .nil s
  | cons o ops ih =>
    obtain ⟨hz, he, hs⟩ := hs
    have hlt : s.index < 2 ^ 31 := hc.head.lt.trans prog.instrSize_lt
    have hidx := apply_index (hp o (by simp)) hlt
    have hrest := ih (s := o.apply s) (by rw [hidx]; exact hc.tail)
      (fun o' ho' => hp o' (by simp [ho'])) hs
    rw [hidx] at hrest
    exact (run_op hc.head hz he).append hrest

theorem runOps_index (hc : CodeAt prog s.index ops) (hp : ∀ o ∈ ops, o.plain = true) :
    (runOps ops s).index = s.index + ops.length := by
  induction ops generalizing s with
  | nil => rfl
  | cons o ops ih =>
    have hidx := apply_index (s := s) (hp o (by simp)) (hc.head.lt.trans prog.instrSize_lt)
    have hrest := ih (s := o.apply s) (by rw [hidx]; exact hc.tail)
      (fun o' ho' => hp o' (by simp [ho']))
    change (runOps ops (o.apply s)).index = _
    rw [hrest, hidx, List.length_cons]
    omega

/-- The stretch at a known index. -/
theorem run_block {k : ℕ} (hc : CodeAt prog k ops) (hs : s.index = k)
    (hp : ∀ o ∈ ops, o.plain = true) (hsafe : Safe H ops s) :
    Run prog H s (List.range' k ops.length) (runOps ops s) ∧
      (runOps ops s).index = k + ops.length := by
  rw [← hs] at hc ⊢
  exact ⟨run_runOps hc hp hsafe, runOps_index hc hp⟩

theorem runOps_labels (hp : ∀ o ∈ ops, o.plain = true) : (runOps ops s).labels = s.labels := by
  induction ops generalizing s with
  | nil => rfl
  | cons o ops ih =>
    exact (ih fun o' ho' => hp o' (by simp [ho'])).trans (apply_labels (hp o (by simp)))

theorem runOps_sram (hp : ∀ o ∈ ops, o.regOnly = true) : (runOps ops s).sram = s.sram := by
  induction ops generalizing s with
  | nil => rfl
  | cons o ops ih =>
    exact (ih fun o' ho' => hp o' (by simp [ho'])).trans (apply_sram (hp o (by simp)))

theorem runOps_p (hp : ∀ o ∈ ops, o.regOnly = true) : (runOps ops s).p = s.p := by
  induction ops generalizing s with
  | nil => rfl
  | cons o ops ih =>
    exact (ih fun o' ho' => hp o' (by simp [ho'])).trans (apply_p (hp o (by simp)))

theorem runOps_regs {r : Reg} (hp : ∀ o ∈ ops, o.plain = true ∧ o.dest ≠ some r) :
    (runOps ops s).regs r = s.regs r := by
  induction ops generalizing s with
  | nil => rfl
  | cons o ops ih =>
    obtain ⟨ho, hr⟩ := hp o (by simp)
    exact (ih fun o' ho' => hp o' (by simp [ho'])).trans (apply_regs ho hr)

end Step

section Registers
variable (s : Processor) (a : Addr) (f : BinOp) (g : PrimeOp) (v : Word) (r x y d : Reg)

@[simp] theorem apply_ldp_regs : ((Op.ldp a).apply s).regs = s.regs := rfl
@[simp] theorem apply_ldp_sram : ((Op.ldp a).apply s).sram = s.sram := rfl
@[simp] theorem apply_ldp_p : ((Op.ldp a).apply s).p = s.sram a := rfl
@[simp] theorem apply_ld_sram : ((Op.ld a d).apply s).sram = s.sram := rfl
@[simp] theorem apply_ld_p : ((Op.ld a d).apply s).p = s.p := rfl
@[simp] theorem apply_set_sram : ((Op.set v d).apply s).sram = s.sram := rfl
@[simp] theorem apply_set_p : ((Op.set v d).apply s).p = s.p := rfl
@[simp] theorem apply_bin_sram : ((Op.bin f x y d).apply s).sram = s.sram := rfl
@[simp] theorem apply_bin_p : ((Op.bin f x y d).apply s).p = s.p := rfl
@[simp] theorem apply_prime_sram : ((Op.prime g x y d).apply s).sram = s.sram := rfl
@[simp] theorem apply_prime_p : ((Op.prime g x y d).apply s).p = s.p := rfl

@[simp] theorem apply_ld_regs :
    ((Op.ld a d).apply s).regs r = if r = d then s.sram a else s.regs r :=
  Function.update_apply _ _ _ _

@[simp] theorem apply_set_regs :
    ((Op.set v d).apply s).regs r = if r = d then v else s.regs r :=
  Function.update_apply _ _ _ _

@[simp] theorem apply_bin_regs : ((Op.bin f x y d).apply s).regs r =
    if r = d then f.eval (s.regs x) (s.regs y) else s.regs r :=
  Function.update_apply _ _ _ _

@[simp] theorem apply_addp_regs : ((Op.prime .addp x y d).apply s).regs r =
    if r = d then addp s.p (s.regs x) (s.regs y) else s.regs r :=
  Function.update_apply _ _ _ _

@[simp] theorem apply_subp_regs : ((Op.prime .subp x y d).apply s).regs r =
    if r = d then subp s.p (s.regs x) (s.regs y) else s.regs r :=
  Function.update_apply _ _ _ _

@[simp] theorem apply_mulp_regs : ((Op.prime .mulp x y d).apply s).regs r =
    if r = d then mulp s.p (s.regs x) (s.regs y) else s.regs r :=
  Function.update_apply _ _ _ _

@[simp] theorem exact_set : (Op.set v d).Exact s := nofun

@[simp] theorem exact_addp : (Op.prime .addp x y d).Exact s ↔
    Fits 64 ((s.regs x).toInt + (s.regs y).toInt) := by
  simp [Op.Exact, Op.exactResult]

@[simp] theorem exact_subp : (Op.prime .subp x y d).Exact s ↔
    Fits 64 ((s.regs x).toInt - (s.regs y).toInt) := by
  simp [Op.Exact, Op.exactResult]

@[simp] theorem exact_mulp : (Op.prime .mulp x y d).Exact s ↔
    Fits 64 ((s.regs x).toInt * (s.regs y).toInt) := by
  simp [Op.Exact, Op.exactResult]

end Registers

/-- The exact results of the operations all fit. -/
def Exacts : List Op → Processor → Prop
  | [], _ => True
  | o :: ops, s => o.Exact s ∧ Exacts ops (o.apply s)

@[simp] theorem runOps_nil (s : Processor) : runOps [] s = s := rfl

@[simp] theorem runOps_cons (o : Op) (ops : List Op) (s : Processor) :
    runOps (o :: ops) s = runOps ops (o.apply s) := rfl

theorem runOps_concat (ops : List Op) (o : Op) (s : Processor) :
    runOps (ops ++ [o]) s = o.apply (runOps ops s) := by
  rw [runOps, List.foldl_append]
  rfl

theorem Op.exact_of_fits {o : Op} {s : Processor} {z : ℤ} (h : o.exactResult s = some z)
    (hz : Fits 64 z) : o.Exact s := by
  intro z' hz'
  rw [h] at hz'
  cases hz'
  exact hz

theorem Op.exact_of_none {o : Op} {s : Processor} (h : o.exactResult s = none) : o.Exact s := by
  intro z hz
  rw [h] at hz
  cases hz

theorem safeDivisor_of_one_le {p : Word} (h : 1 ≤ p.toInt) : SafeDivisor p := by
  refine ⟨ne_zero_of_one_le h, ?_⟩
  rintro rfl
  exact absurd h (by decide)

theorem SmallModulus.safeDivisor {p : Word} (h : SmallModulus p) : SafeDivisor p :=
  safeDivisor_of_one_le (le_trans (by decide) h.1)

/-- Register operations that divide by nothing but `p_`. -/
def Op.pOnly : Op → Bool
  | .bin .div _ _ _ => false
  | o => o.regOnly

theorem Op.fault_of_pOnly {o : Op} {s : Processor} (ho : o.pOnly = true)
    (hp : SafeDivisor s.p) : o.fault s = none := by
  cases o
  case bin f x y d =>
    cases f
    case div => cases ho
    all_goals rfl
  case prime => exact quotientFault_of_safe hp
  all_goals rfl

theorem Op.regOnly_of_pOnly {o : Op} (ho : o.pOnly = true) : o.regOnly = true := by
  cases o
  case bin f x y d => rfl
  all_goals exact ho

theorem safe_of_pOnly {H : Prop} {ops : List Op} {s : Processor}
    (ho : ∀ o ∈ ops, o.pOnly = true) (hp : SafeDivisor s.p) (he : H → Exacts ops s) :
    Safe H ops s := by
  induction ops generalizing s with
  | nil => trivial
  | cons o ops ih =>
    refine ⟨Op.fault_of_pOnly (ho o (by simp)) hp, fun hh => (he hh).1,
      ih (fun o' ho' => ho o' (by simp [ho'])) ?_ fun hh => (he hh).2⟩
    rw [apply_p (Op.regOnly_of_pOnly (ho o (by simp)))]
    exact hp

/-- A stretch that divides by nothing but `p_`. -/
theorem run_field_block {prog : VPUProgram} {H : Prop} {k : ℕ} {ops : List Op} {s : Processor}
    (hc : CodeAt prog k ops) (hs : s.index = k) (ho : ∀ o ∈ ops, o.pOnly = true)
    (hp : SafeDivisor s.p) (he : H → Exacts ops s) :
    Run prog H s (List.range' k ops.length) (runOps ops s) ∧
      (runOps ops s).index = k + ops.length :=
  run_block hc hs (fun o h => Op.plain_of_regOnly (Op.regOnly_of_pOnly (ho o h)))
    (safe_of_pOnly ho hp he)

/-- From `s` to `t` only registers of `R` and the program counter may change. -/
structure Frame (R : List Reg) (s t : Processor) : Prop where
  regs : ∀ r ∉ R, t.regs r = s.regs r
  sram : t.sram = s.sram
  p : t.p = s.p
  labels : t.labels = s.labels

namespace Frame
variable {R R' : List Reg} {s t u : Processor}

theorem goto (R : List Reg) (s : Processor) (j : BitVec 32) : Frame R s (s.goto j) :=
  ⟨fun _ _ => rfl, rfl, rfl, rfl⟩

theorem next (R : List Reg) (s : Processor) : Frame R s s.next :=
  ⟨fun _ _ => rfl, rfl, rfl, rfl⟩

theorem trans (h : Frame R s t) (h' : Frame R t u) : Frame R s u where
  regs r hr := (h'.regs r hr).trans (h.regs r hr)
  sram := h'.sram.trans h.sram
  p := h'.p.trans h.p
  labels := h'.labels.trans h.labels

theorem mono (h : Frame R s t) (hR : R ⊆ R') : Frame R' s t :=
  ⟨fun r hr => h.regs r fun h' => hr (hR h'), h.sram, h.p, h.labels⟩

theorem apply {o : Op} (h : o.regOnly = true) (hd : ∀ d ∈ o.dest, d ∈ R) (s : Processor) :
    Frame R s (o.apply s) where
  regs r hr := apply_regs (Op.plain_of_regOnly h) fun h' => hr (hd r h')
  sram := apply_sram h
  p := apply_p h
  labels := apply_labels (Op.plain_of_regOnly h)

theorem runOps {ops : List Op} (h : ∀ o ∈ ops, o.regOnly = true ∧ ∀ d ∈ o.dest, d ∈ R)
    (s : Processor) : Frame R s (runOps ops s) where
  regs r hr := runOps_regs fun o ho =>
    ⟨Op.plain_of_regOnly (h o ho).1, fun h' => hr ((h o ho).2 r h')⟩
  sram := runOps_sram fun o ho => (h o ho).1
  p := runOps_p fun o ho => (h o ho).1
  labels := runOps_labels fun o ho => Op.plain_of_regOnly (h o ho).1

end Frame

section Transfer
variable {prog : VPUProgram} {H : Prop} {s : Processor} {l : String} {j k : ℕ} {x y z : Reg}

theorem toNat_ofNat_of_lt (h : k < 2 ^ 31) : (BitVec.ofNat 32 k).toNat = k := by
  rw [BitVec.toNat_ofNat]
  omega

/-- One decoded instruction, at a known index. -/
theorem run_at {o : Op} (h : OpAt prog k o) (hs : s.index = k) (hz : o.fault s = none)
    (he : H → o.Exact s) : Run prog H s [k] (o.apply s) := by
  rw [← hs] at h ⊢
  exact run_op h hz he

/-- An instruction that does not compute. -/
theorem run_move {o : Op} (h : OpAt prog k o) (hs : s.index = k) (hd : o.divisor s = none)
    (he : o.exactResult s = none) : Run prog H s [k] (o.apply s) :=
  run_at h hs (Op.fault_of_divisor hd) fun _ => Op.exact_of_none he

theorem OpAt.apply_index {o : Op} (h : OpAt prog k o) (hs : s.index = k) (ho : o.plain = true) :
    (o.apply s).index = k + 1 := by
  have hlt : s.index < 2 ^ 31 := by rw [hs]; exact h.lt.trans prog.instrSize_lt
  rw [Fabric.apply_index ho hlt, hs]

/-- A call leaves its own index in the link register. -/
theorem run_call (h : OpAt prog k (.jal l x)) (hs : s.index = k)
    (hl : s.labels l = some (BitVec.ofNat 32 j)) (hj : j < 2 ^ 31) :
    ∃ t, Run prog H s [k] t ∧ t.index = j ∧ Frame [x] s t ∧ t.regs x = BitVec.ofNat 64 k := by
  have hr := run_move (H := H) h hs rfl rfl
  have ht : Op.apply (.jal l x) s = (s.setReg x (s.pc.setWidth 64)).goto (BitVec.ofNat 32 j) :=
    jump_eq_goto hl
  rw [ht] at hr
  refine ⟨_, hr, by rw [goto_index, toNat_ofNat_of_lt hj], ⟨?_, rfl, rfl, rfl⟩, ?_⟩
  · intro r hr
    exact Function.update_of_ne (by simpa using hr) _ _
  · refine (Function.update_self x _ s.regs).trans ?_
    apply BitVec.eq_of_toNat_eq
    have hk : s.pc.toNat = k := hs
    rw [BitVec.toNat_setWidth, BitVec.toNat_ofNat, hk]

/-- A return goes on behind the call that set the link register. -/
theorem run_return (h : OpAt prog k (.ret x)) (hs : s.index = k)
    (hx : s.regs x = BitVec.ofNat 64 j) (hj : j < 2 ^ 31) :
    ∃ t, Run prog H s [k] t ∧ t.index = j + 1 ∧ Frame [] s t := by
  have hfits : Fits 64 ((s.regs x).toInt + 1) := by
    rw [hx, toInt_ofNat_of_lt (by decide) (by omega)]
    constructor <;> norm_num <;> omega
  have hr : Run prog H s [k] (s.goto ((s.regs x + 1).setWidth 32)) :=
    run_at h hs rfl fun _ => Op.exact_of_fits rfl hfits
  refine ⟨_, hr, ?_, .goto _ _ _⟩
  rw [goto_index, hx, BitVec.toNat_setWidth, BitVec.toNat_add, BitVec.toNat_ofNat,
    show ((1 : Word)).toNat = 1 from rfl]
  omega

/-- A product in the field. -/
theorem run_mulp (h : OpAt prog k (.prime .mulp x y z)) (hs : s.index = k) (hp : SafeDivisor s.p)
    (hH : H → Fits 64 ((s.regs x).toInt * (s.regs y).toInt)) :
    ∃ t, Run prog H s [k] t ∧ t.index = k + 1 ∧ Frame [z] s t ∧
      t.regs z = mulp s.p (s.regs x) (s.regs y) := by
  have hr := run_at h hs (Op.fault_of_pOnly rfl hp) fun hh => Op.exact_of_fits rfl (hH hh)
  refine ⟨_, hr, h.apply_index hs rfl, .apply rfl (by simp [Op.dest]) s, ?_⟩
  rw [apply_mulp_regs, if_pos rfl]

/-- A store. -/
theorem run_st {a : Addr} (h : OpAt prog k (.st x a)) (hs : s.index = k) :
    ∃ t, Run prog H s [k] t ∧ t.index = k + 1 ∧ t.regs = s.regs ∧
      t.sram = Function.update s.sram a (s.regs x) :=
  ⟨_, run_move h hs rfl rfl, h.apply_index hs rfl, rfl, rfl⟩

/-- A branch on equal registers. -/
theorem run_branch (h : OpAt prog k (.beq x y l)) (hs : s.index = k) (hxy : s.regs x = s.regs y)
    (hl : s.labels l = some (BitVec.ofNat 32 j)) (hj : j < 2 ^ 31) :
    ∃ t, Run prog H s [k] t ∧ t.index = j ∧ Frame [] s t := by
  have hr := run_move (H := H) h hs rfl rfl
  rw [Op.apply, if_pos hxy, jump_eq_goto hl] at hr
  exact ⟨_, hr, by rw [goto_index, toNat_ofNat_of_lt hj], .goto _ _ _⟩

/-- A branch on different registers. -/
theorem run_fall (h : OpAt prog k (.beq x y l)) (hs : s.index = k) (hxy : s.regs x ≠ s.regs y) :
    ∃ t, Run prog H s [k] t ∧ t.index = k + 1 ∧ Frame [] s t := by
  have hr := run_move (H := H) h hs rfl rfl
  rw [Op.apply, if_neg hxy] at hr
  have hlt : s.index < 2 ^ 31 := by rw [hs]; exact h.lt.trans prog.instrSize_lt
  exact ⟨_, hr, by rw [next_index hlt, hs], .next _ _⟩

end Transfer
end Fabric

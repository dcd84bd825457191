import Fabric.Labels

/-! Control flow of the instruction set with a program counter that is an integer,
and the returns for which the 32-bit program counter of the code follows it. -/
namespace Fabric
open Lib.Machine (Alike)

/-- A state of the reference machine. Jumps read the program, not a label table. -/
structure RefState where
  pc : ℤ
  sram : Fin SRAM_SIZE → Word
  regs : Fin NUM_REGS → Word
  p : Word

/-- The index of the instruction that defines `l`. -/
def VPUProgram.definition (prog : VPUProgram) (l : String) : ℕ :=
  (prog.instr.map VPUInstruction.label).idxOf l

namespace RefState

/-- The state as plain executors see it. -/
def view (r : RefState) : Processor where
  sram := r.sram
  regs := r.regs
  p := r.p
  pc := 0
  labels _ := none

def ofProcessor (s : Processor) (pc : ℤ) : RefState := ⟨pc, s.sram, s.regs, s.p⟩

/-- `JAL`: the link register receives the index of the jump. -/
def stepJAL (prog : VPUProgram) (i : VPUInstruction) (r : RefState) : Except Fault RefState := do
  let d ← i.outReg 0
  let x ← i.inputAt 0
  .ok { r with
    regs := Function.update r.regs d (BitVec.ofInt 64 r.pc), pc := prog.definition x.label }

/-- `RET`: the integer after the link, whatever it is. -/
def stepRET (i : VPUInstruction) (r : RefState) : Except Fault RefState := do
  let x ← i.inReg 0
  .ok { r with pc := (r.regs x).toInt + 1 }

def stepBEQ (prog : VPUProgram) (i : VPUInstruction) (r : RefState) : Except Fault RefState := do
  let x ← i.inReg 0
  let y ← i.inReg 1
  if r.regs x = r.regs y then
    let z ← i.outputAt 0
    .ok { r with pc := prog.definition z.label }
  else
    .ok { r with pc := r.pc + 1 }

def stepPlain (execute : Execute) (i : VPUInstruction) (r : RefState) : Except Fault RefState := do
  let t ← execute i r.view
  .ok (ofProcessor t (r.pc + 1))

def stepInstr (prog : VPUProgram) (i : VPUInstruction) (r : RefState) : Except Fault RefState :=
  match i.op with
  | .jal => r.stepJAL prog i
  | .ret => r.stepRET i
  | .beq => r.stepBEQ prog i
  | op =>
    match plainExecute op with
    | none => .error .noExecutor
    | some execute => r.stepPlain execute i

def step (prog : VPUProgram) (r : RefState) : Except Fault RefState :=
  match prog.instr[r.pc.toNat]? with
  | none => .error .noInstruction
  | some i => r.stepInstr prog i

/-- The reference machine runs while the program counter is in `[0, n)`. -/
def machine (prog : VPUProgram) : Lib.Machine RefState Fault where
  running r := decide (0 ≤ r.pc ∧ r.pc < prog.instrSize)
  step := RefState.step prog

end RefState

/-- The label an instruction names. -/
def VPUInstruction.reference (i : VPUInstruction) : Option String :=
  match i.op with
  | .jal => i.inputs[0]?.map InstructionInOut.label
  | .beq => i.outputs[0]?.map InstructionInOut.label
  | _ => none

/-- Exactly one instruction carries the label. -/
def DefinedOnce (prog : VPUProgram) (l : String) : Prop :=
  l.length > 0 ∧ (prog.instr.map VPUInstruction.label).count l = 1

/-- Every label the program names is defined exactly once in it. -/
def WellLabelled (prog : VPUProgram) : Prop :=
  ∀ i ∈ prog.instr, ∀ l ∈ i.reference, DefinedOnce prog l

/-- The states agree on registers, SRAM and `p_`, and `R` relates the program counters. -/
structure Agree (R : BitVec 32 → ℤ → Prop) (s : Processor) (r : RefState) : Prop where
  pc : R s.pc r.pc
  sram : s.sram = r.sram
  regs : s.regs = r.regs
  p : s.p = r.p

/-- After any number of steps `run_program` and the reference machine agree. -/
def Follows (R : BitVec 32 → ℤ → Prop) (prog : VPUProgram) (s : Processor) : Prop :=
  ∀ k, Alike (Agree R) (runProgram prog k s)
    ((RefState.machine prog).iter k (.ofProcessor s 0))

/-- The program counter of the code is that of the reference machine. -/
def SamePc (pc : BitVec 32) (z : ℤ) : Prop := (pc.toNat : ℤ) = z

/-- The same inside a program of `n` instructions; outside of it only that both left. -/
def SamePcWithin (n : ℕ) (pc : BitVec 32) (z : ℤ) : Prop :=
  SamePc pc z ∨ n ≤ pc.toNat ∧ ¬ (0 ≤ z ∧ z < n)

/-- The word that the next step returns to, if it is a return. -/
def returned (prog : VPUProgram) (s : Processor) : Option Word :=
  match prog.instr[s.index]? with
  | some i => if i.op = .ret then (i.inReg 0).toOption.map s.regs else none
  | none => none

section Labels
variable {prog : VPUProgram} {l : String}

theorem not_defines_of_count {is : List VPUInstruction}
    (h : (is.map VPUInstruction.label).count l = 0) : ¬ Defines is l := by
  rintro ⟨i, hi, hl, -⟩
  exact List.count_eq_zero.mp h (List.mem_map.mpr ⟨i, hi, hl⟩)

/-- The table holds the index of the one definition. -/
theorem loadLabels_of_count {is : List VPUInstruction} (hl : l.length > 0)
    (h : (is.map VPUInstruction.label).count l = 1) (j : ℕ) (m : Labels) :
    loadLabels is j m l = some ((j + (is.map VPUInstruction.label).idxOf l : ℕ) : BitVec 32) := by
  induction is generalizing j m with
  | nil => simp at h
  | cons i is ih =>
    rw [List.map_cons, List.count_cons] at h
    rw [loadLabels, List.map_cons]
    by_cases hi : i.label = l
    · rw [if_pos (by simpa using hi)] at h
      rw [loadLabels_of_not_defines (not_defines_of_count (by omega)), if_pos (hi ▸ hl), ← hi,
        Function.update_self, List.idxOf_cons_self]
      rfl
    · rw [if_neg (by simpa using hi)] at h
      rw [ih h, List.idxOf_cons_ne _ hi]
      congr 2
      omega

theorem DefinedOnce.definition_lt (h : DefinedOnce prog l) :
    prog.definition l < prog.instrSize := by
  have hmem : l ∈ prog.instr.map VPUInstruction.label :=
    List.count_pos_iff.mp (by rw [h.2]; decide)
  have hlt := List.idxOf_lt_length_of_mem hmem
  rwa [List.length_map] at hlt

theorem DefinedOnce.target_start (h : DefinedOnce prog l) (s : Processor) :
    ((start prog s).target l).toNat = prog.definition l := by
  have hlt := h.definition_lt.trans prog.instrSize_lt
  change ((loadLabels prog.instr 0 s.labels l).getD 0).toNat = _
  rw [loadLabels_of_count h.1 h.2, Nat.zero_add]
  change (BitVec.ofNat 32 (prog.definition l)).toNat = _
  rw [BitVec.toNat_ofNat, Nat.mod_eq_of_lt (by omega)]

end Labels

/-- `R` is equality where either machine would go on. -/
structure PcRel (n : ℕ) (R : BitVec 32 → ℤ → Prop) : Prop where
  refl : ∀ pc, R pc pc.toNat
  eq : ∀ pc z, R pc z → pc.toNat < n ∨ 0 ≤ z ∧ z < n → (pc.toNat : ℤ) = z

theorem pcRel_samePc (n : ℕ) : PcRel n SamePc := ⟨fun _ => rfl, fun _ _ h _ => h⟩

theorem pcRel_samePcWithin (n : ℕ) : PcRel n (SamePcWithin n) where
  refl _ := Or.inl rfl
  eq pc z h hin := by
    rcases h with h | ⟨hpc, hz⟩
    · exact h
    · rcases hin with hlt | hlt
      · omega
      · exact absurd hlt hz

section Step
variable {R : BitVec 32 → ℤ → Prop} {prog : VPUProgram} {s u : Processor} {i : VPUInstruction}
  {r : RefState}

theorem PcRel.of_toNat (hR : PcRel prog.instrSize R) {pc : BitVec 32} {z : ℤ}
    (h : (pc.toNat : ℤ) = z) : R pc z := h ▸ hR.refl pc

theorem PcRel.succ (hR : PcRel prog.instrSize R) (hu : u.index < prog.instrSize) :
    R (u.pc + 1) ((u.pc.toNat : ℤ) + 1) := by
  refine hR.of_toNat ?_
  have hnext := next_index (hu.trans prog.instrSize_lt)
  change (u.pc + 1).toNat = u.pc.toNat + 1 at hnext
  omega

theorem running_agree (hR : PcRel prog.instrSize R) (h : Agree R u r) :
    (machine prog).running u = (RefState.machine prog).running r := by
  change decide (u.pc.toNat < prog.instrSize) = decide (0 ≤ r.pc ∧ r.pc < prog.instrSize)
  by_cases hin : u.pc.toNat < prog.instrSize ∨ 0 ≤ r.pc ∧ r.pc < prog.instrSize
  · have hpc := hR.eq u.pc r.pc h.pc hin
    exact decide_eq_decide.mpr (by omega)
  · exact decide_eq_decide.mpr (by omega)

/-- Inside the program the reference state is the code's, seen without its labels. -/
theorem Agree.eq_ofProcessor (hR : PcRel prog.instrSize R) (h : Agree R u r)
    (hu : u.index < prog.instrSize) : r = .ofProcessor u u.pc.toNat := by
  obtain ⟨hpc, hsram, hregs, hp⟩ := h
  cases r
  simp only [RefState.ofProcessor, RefState.mk.injEq]
  exact ⟨(hR.eq _ _ hpc (Or.inl hu)).symm, hsram.symm, hregs.symm, hp.symm⟩

/-- A lookup goes where the program defines the label and changes nothing else. -/
theorem agree_labelAt (hR : PcRel prog.instrSize R) {l : String}
    (hl : (u.target l).toNat = prog.definition l) :
    Agree R { (u.labelAt l).2 with pc := (u.labelAt l).1 }
      (.ofProcessor u (prog.definition l)) := by
  obtain ⟨hsram, hregs, hp, -⟩ := u.labelAt_same l
  refine ⟨?_, hsram.symm, hregs.symm, hp.symm⟩
  change R (u.labelAt l).1 (prog.definition l)
  rw [Processor.labelAt_fst]
  exact hR.of_toNat (by rw [hl])

theorem stepPlain_alike (hR : PcRel prog.instrSize R) (hu : u.index < prog.instrSize)
    {e : Execute} (he : ControlFree e) :
    Alike (Agree R) ((e.nextPc i u).map fun r => { r.2 with pc := r.1 })
      ((RefState.ofProcessor u u.pc.toNat).stepPlain e i) := by
  have hview : (RefState.ofProcessor u u.pc.toNat).view = u.withControl 0 fun _ => none := rfl
  unfold Execute.nextPc RefState.stepPlain
  rw [hview, he]
  cases ht : e i u with
  | error => rfl
  | ok t =>
    refine ⟨?_, rfl, rfl, rfl⟩
    change R (t.pc + 1) ((u.pc.toNat : ℤ) + 1)
    rw [(he.keeps ht).1]
    exact hR.succ hu

theorem stepJAL_alike (hR : PcRel prog.instrSize R)
    (hl : ∀ x, i.inputAt 0 = .ok x → (u.target x.label).toNat = prog.definition x.label) :
    Alike (Agree R) ((nextPcJAL i u).map fun r => { r.2 with pc := r.1 })
      ((RefState.ofProcessor u u.pc.toNat).stepJAL prog i) := by
  unfold nextPcJAL RefState.stepJAL
  cases hd : i.outReg 0 with
  | error => rfl
  | ok d =>
    cases hx : i.inputAt 0 with
    | error => rfl
    | ok x =>
      have hlink : BitVec.ofInt 64 (u.pc.toNat : ℤ) = u.pc.setWidth 64 := by
        rw [BitVec.ofInt_natCast, BitVec.ofNat_toNat]
      have hagree := agree_labelAt (u := u.setReg d (u.pc.setWidth 64)) hR (hl x hx)
      obtain ⟨hpc, hsram, hregs, hp⟩ := hagree
      refine ⟨hpc, hsram, hregs.trans ?_, hp⟩
      change Function.update u.regs d (u.pc.setWidth 64) =
        Function.update u.regs d (BitVec.ofInt 64 (u.pc.toNat : ℤ))
      rw [hlink]

theorem stepBEQ_alike (hR : PcRel prog.instrSize R) (hu : u.index < prog.instrSize)
    (hl : ∀ z, i.outputAt 0 = .ok z → (u.target z.label).toNat = prog.definition z.label) :
    Alike (Agree R) ((nextPcBEQ i u).map fun r => { r.2 with pc := r.1 })
      ((RefState.ofProcessor u u.pc.toNat).stepBEQ prog i) := by
  unfold nextPcBEQ RefState.stepBEQ
  cases i.inReg 0 with
  | error => rfl
  | ok x =>
    cases i.inReg 1 with
    | error => rfl
    | ok y =>
      have hregs : (RefState.ofProcessor u u.pc.toNat).regs = u.regs := rfl
      by_cases hxy : u.regs x = u.regs y
      · simp only [bind, Except.bind, hregs, if_pos hxy]
        cases hz : i.outputAt 0 with
        | error => rfl
        | ok z => exact agree_labelAt hR (hl z hz)
      · simp only [bind, Except.bind, hregs, if_neg hxy]
        exact ⟨hR.succ hu, rfl, rfl, rfl⟩

theorem stepRET_alike
    (hret : ∀ x, i.inReg 0 = .ok x → R ((u.regs x + 1).setWidth 32) ((u.regs x).toInt + 1)) :
    Alike (Agree R) ((nextPcRET i u).map fun r => { r.2 with pc := r.1 })
      ((RefState.ofProcessor u u.pc.toNat).stepRET i) := by
  unfold nextPcRET RefState.stepRET
  cases hx : i.inReg 0 with
  | error => rfl
  | ok x => exact ⟨hret x hx, rfl, rfl, rfl⟩

theorem reference_of_jal {x : InstructionInOut} (hop : i.op = .jal) (hx : i.inputAt 0 = .ok x) :
    i.reference = some x.label := by
  unfold VPUInstruction.inputAt at hx
  unfold VPUInstruction.reference
  rw [hop]
  cases h : i.inputs[0]? <;> rw [h] at hx <;> cases hx
  rfl

theorem reference_of_beq {z : InstructionInOut} (hop : i.op = .beq) (hz : i.outputAt 0 = .ok z) :
    i.reference = some z.label := by
  unfold VPUInstruction.outputAt at hz
  unfold VPUInstruction.reference
  rw [hop]
  cases h : i.outputs[0]? <;> rw [h] at hz <;> cases hz
  rfl

theorem refStep_eq (hi : prog.instr[u.index]? = some i) :
    RefState.step prog (.ofProcessor u u.pc.toNat) =
      (RefState.ofProcessor u u.pc.toNat).stepInstr prog i := by
  unfold RefState.step
  rw [show (RefState.ofProcessor u u.pc.toNat).pc.toNat = u.index from rfl, hi]

theorem stepInstr_of_plain {e : Execute} (h : plainExecute i.op = some e) :
    r.stepInstr prog i = r.stepPlain e i := by
  unfold RefState.stepInstr
  cases hop : i.op <;> rw [hop] at h <;> cases h <;> rfl

theorem exists_instr (hu : u.index < prog.instrSize) :
    ∃ i ∈ prog.instr, prog.instr[u.index]? = some i :=
  ⟨_, List.getElem_mem hu, List.getElem?_eq_getElem hu⟩

/-- One step of the code is one step of the reference machine, apart from where a
return leads. -/
theorem step_alike (hR : PcRel prog.instrSize R) (hu : u.index < prog.instrSize)
    (hl : ∀ i ∈ prog.instr, ∀ l ∈ i.reference, (u.target l).toNat = prog.definition l)
    (hret : ∀ v ∈ returned prog u, R ((v + 1).setWidth 32) (v.toInt + 1)) :
    Alike (Agree R) (step prog u) (RefState.step prog (.ofProcessor u u.pc.toNat)) := by
  obtain ⟨i, hmem, hi⟩ := exists_instr hu
  rw [refStep_eq hi]
  cases hplain : plainExecute i.op with
  | some e =>
    rw [step_of_exec hi (exec_of_plainExecute hplain), stepInstr_of_plain hplain]
    exact stepPlain_alike hR hu (controlFree_plainExecute hplain)
  | none =>
    unfold RefState.stepInstr
    rcases plainExecute_eq_none hplain with hop | hop | hop | hop
    · rw [step_of_no_exec hi (by rw [hop]; rfl), hop]
      rfl
    · rw [step_of_exec hi (by rw [hop]; rfl), hop]
      exact stepJAL_alike hR fun x hx => hl i hmem x.label (reference_of_jal hop hx)
    · rw [step_of_exec hi (by rw [hop]; rfl), hop]
      refine stepRET_alike fun x hx => hret (u.regs x) ?_
      simp [returned, hi, hop, hx, Except.toOption]
    · rw [step_of_exec hi (by rw [hop]; rfl), hop]
      exact stepBEQ_alike hR hu fun z hz => hl i hmem z.label (reference_of_beq hop hz)

/-- A return of the code, and the one of the reference machine. -/
theorem step_of_returned {v : Word} (hv : v ∈ returned prog u) :
    step prog u = .ok { u with pc := (v + 1).setWidth 32 } ∧
      RefState.step prog (.ofProcessor u u.pc.toNat) = .ok (.ofProcessor u (v.toInt + 1)) := by
  unfold returned at hv
  cases hi : prog.instr[u.index]? with
  | none => rw [hi] at hv; cases hv
  | some i =>
    rw [hi] at hv
    obtain ⟨hop, hv⟩ := Option.mem_ite_none_right.mp hv
    obtain ⟨x, hx, rfl⟩ := Option.map_eq_some_iff.mp hv
    have hreg : i.inReg 0 = .ok x := by
      cases h : i.inReg 0 <;> rw [h] at hx <;> cases hx
      rfl
    rw [refStep_eq hi, step_of_exec hi (by rw [hop]; rfl)]
    unfold RefState.stepInstr
    rw [hop]
    simp only [nextPcRET, RefState.stepRET, hreg]
    exact ⟨rfl, rfl⟩

end Step

/-- Where a return leads, as an integer. -/
theorem toNat_return (v : Word) :
    (((v + 1).setWidth 32).toNat : ℤ) = (v.toInt + 1) % 2 ^ 32 := by
  have hlt := v.isLt
  rw [BitVec.toNat_setWidth, BitVec.toNat_add, BitVec.toInt_eq_toNat_cond,
    show (1 : BitVec 64).toNat = 1 from rfl]
  split <;> omega

theorem samePc_return (v : Word) :
    SamePc ((v + 1).setWidth 32) (v.toInt + 1) ↔ 0 ≤ v.toInt + 1 ∧ v.toInt + 1 < 2 ^ 32 := by
  unfold SamePc
  rw [toNat_return]
  constructor
  · intro h
    rw [← h]
    exact ⟨Int.emod_nonneg _ (by decide), Int.emod_lt_of_pos _ (by decide)⟩
  · rintro ⟨h0, hlt⟩
    exact Int.emod_eq_of_lt h0 hlt

theorem samePcWithin_return {n : ℕ} (hn : n < 2 ^ 31) (v : Word) :
    SamePcWithin n ((v + 1).setWidth 32) (v.toInt + 1) ↔
      ((v.toInt + 1) % 2 ^ 32 < n → 0 ≤ v.toInt + 1 ∧ v.toInt + 1 < n) := by
  have hpc := toNat_return v
  unfold SamePcWithin SamePc
  constructor
  · rintro (h | ⟨hout, -⟩) hlt
    · omega
    · omega
  · intro h
    by_cases hlt : (v.toInt + 1) % 2 ^ 32 < n
    · left
      obtain ⟨h0, h1⟩ := h hlt
      rw [hpc, Int.emod_eq_of_lt h0 (by omega)]
    · right
      refine ⟨by omega, ?_⟩
      rintro ⟨h0, h1⟩
      rw [Int.emod_eq_of_lt h0 (by omega)] at hlt
      exact hlt h1

section Run
variable {R : BitVec 32 → ℤ → Prop} {prog : VPUProgram} {s : Processor}

theorem WellLabelled.target_run (hw : WellLabelled prog) {k : ℕ} {u : Processor}
    (hk : runProgram prog k s = .ok u) :
    ∀ i ∈ prog.instr, ∀ l ∈ i.reference, (u.target l).toNat = prog.definition l := by
  intro i hi l hl
  rw [iter_target hk]
  exact (hw i hi l hl).target_start s

/-- Where the code follows the reference machine, both stop after the same step. -/
theorem Follows.returns {t : Processor} (hR : PcRel prog.instrSize R) (h : Follows R prog s)
    (ht : Returns prog s t) :
    ∃ r, (RefState.machine prog).Halts (.ofProcessor s 0) r ∧ Agree R t r :=
  Lib.Machine.alike_halts (fun _ _ hu => running_agree hR hu) h ht

/-- The code follows the reference machine exactly if its returns do. -/
theorem follows_iff_returned (hR : PcRel prog.instrSize R) (hw : WellLabelled prog) :
    Follows R prog s ↔ ∀ k u, runProgram prog k s = .ok u → u.index < prog.instrSize →
      ∀ v ∈ returned prog u, R ((v + 1).setWidth 32) (v.toInt + 1) := by
  have hstart : Agree R (start prog s) (.ofProcessor s 0) := ⟨hR.refl 0, rfl, rfl, rfl⟩
  constructor
  · intro h k u hk hu v hv
    obtain ⟨r, -, hagree, hnext⟩ := Lib.Machine.alike_step
      (fun _ _ h => running_agree hR h) h hk (machine_running.mpr hu)
    obtain ⟨hstep, hstep'⟩ := step_of_returned hv
    rw [hagree.eq_ofProcessor hR hu, show (machine prog).step u = step prog u from rfl, hstep,
      show (RefState.machine prog).step = RefState.step prog from rfl, hstep'] at hnext
    exact hnext.pc
  · intro h k
    refine Lib.Machine.alike_iter (fun _ _ h => running_agree hR h) ?_ hstart k
    intro k u r hk _ hagree hr
    have hu := machine_running.mp hr
    rw [hagree.eq_ofProcessor hR hu]
    exact step_alike hR hu (hw.target_run hk) (h k u hk hu)

/-- The code has the program counters of the reference machine exactly if no return
leaves their range. It stays with the reference machine up to its end exactly if no
return that leaves the program is narrowed back into it. -/
theorem follows_iff (hw : WellLabelled prog) :
    (Follows SamePc prog s ↔
      ∀ k u, runProgram prog k s = .ok u → u.index < prog.instrSize → ∀ v ∈ returned prog u,
        0 ≤ v.toInt + 1 ∧ v.toInt + 1 < 2 ^ 32) ∧
    (Follows (SamePcWithin prog.instrSize) prog s ↔
      ∀ k u, runProgram prog k s = .ok u → u.index < prog.instrSize → ∀ v ∈ returned prog u,
        (v.toInt + 1) % 2 ^ 32 < prog.instrSize →
          0 ≤ v.toInt + 1 ∧ v.toInt + 1 < prog.instrSize) := by
  refine ⟨(follows_iff_returned (pcRel_samePc _) hw).trans ?_,
    (follows_iff_returned (pcRel_samePcWithin _) hw).trans ?_⟩
  · simp only [samePc_return]
  · simp only [samePcWithin_return prog.instrSize_lt]

end Run

/-- A call of a subroutine that returns at once, and a return that leaves the program. -/
def callThenLeave : VPUProgram :=
  ⟨[ { op := .jal, inputs := [.kLabel "sub"], outputs := [.kReg 1] },
     { op := .ret, inputs := [.kReg 0] },
     { op := .ret, inputs := [.kReg 1], label := "sub" } ], by decide⟩

theorem callThenLeave_wellLabelled : WellLabelled callThenLeave := by
  intro i hi l hl
  simp only [callThenLeave, List.mem_cons, List.not_mem_nil, or_false] at hi
  rcases hi with rfl | rfl | rfl
  · cases hl
    exact ⟨by decide, by decide⟩
  · cases hl
  · cases hl

theorem callThenLeave_follows :
    Follows SamePc callThenLeave ((Processor.ofCells []).setReg 0 100) := by
  refine (follows_iff callThenLeave_wellLabelled).1.mpr ?_
  let Q (u : Processor) : Prop :=
    ∀ v ∈ returned callThenLeave u, 0 ≤ v.toInt + 1 ∧ v.toInt + 1 < 2 ^ 32
  have hQ : ∀ u v, returned callThenLeave u = v → v = none ∨ v = some 0 ∨ v = some 100 → Q u := by
    rintro u _ hu (rfl | rfl | rfl) v hv <;> rw [hu] at hv <;> cases hv <;> decide
  have hrun : (machine callThenLeave).Seg (fun _ => ()) Q
      (start callThenLeave ((Processor.ofCells []).setReg 0 100)) _ _ :=
    .cons rfl (hQ _ none rfl (by simp)) rfl <|
      .cons rfl (hQ _ (some 0) rfl (by simp)) rfl <|
        .cons rfl (hQ _ (some 100) rfl (by simp)) rfl (.nil _)
  intro k u hk hu
  exact hrun.forall_iter rfl hk (machine_running.mpr hu)

/-- One return, through the first register. -/
def loneReturn : VPUProgram := ⟨[{ op := .ret, inputs := [.kReg 0] }], by decide⟩

theorem loneReturn_wellLabelled : WellLabelled loneReturn := by
  intro i hi l hl
  rw [List.mem_singleton.mp hi] at hl
  cases hl

/-- A link of 2³² − 1 leads out of the program, but the narrowed one back to its start. -/
theorem return_narrowed :
    WellLabelled loneReturn ∧ (∀ i ∈ loneReturn.instr, i.decode = .ok (.ret 0)) ∧
      ¬ Follows SamePc loneReturn ((Processor.ofCells []).setReg 0 4294967295) ∧
      ¬ Follows (SamePcWithin 1) loneReturn ((Processor.ofCells []).setReg 0 4294967295) := by
  have hdecode : ∀ i ∈ loneReturn.instr, i.decode = .ok (.ret 0) := by
    intro i hi
    rw [List.mem_singleton.mp hi]
    rfl
  have hret : returned loneReturn
      (start loneReturn ((Processor.ofCells []).setReg 0 4294967295)) = some 4294967295 := rfl
  refine ⟨loneReturn_wellLabelled, hdecode, ?_, ?_⟩
  · intro h
    have hpc := (follows_iff_returned (pcRel_samePc _) loneReturn_wellLabelled).mp h 0 _ rfl
      (by decide) _ hret
    exact absurd ((samePc_return _).mp hpc) (by decide)
  · intro h
    have hpc := (follows_iff_returned (pcRel_samePcWithin loneReturn.instrSize)
      loneReturn_wellLabelled).mp h 0 _ rfl (by decide) _ hret
    exact absurd ((samePcWithin_return (by decide) _).mp hpc) (by decide)

end Fabric

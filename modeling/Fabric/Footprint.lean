import Fabric.Progress

/-! What instructions read and write, and runs of one program from two states that
agree on what the program still reads. -/
namespace Fabric
open Lib
open Lib.Machine (Alike)

/-- A place that keeps a word. -/
inductive Loc
  | reg (r : Reg)
  | cell (a : Addr)
  | p
  deriving DecidableEq, Repr

namespace Processor

def get (s : Processor) : Loc → Word
  | .reg r => s.regs r
  | .cell a => s.sram a
  | .p => s.p

def put (s : Processor) : Loc → Word → Processor
  | .reg r, v => s.setReg r v
  | .cell a, v => s.setSram a v
  | .p, v => { s with p := v }

theorem get_put (s : Processor) (l l' : Loc) (v : Word) :
    (s.put l v).get l' = if l' = l then v else s.get l' := by
  cases l <;> cases l'
  case reg.reg | cell.cell => simp [put, get, setReg, setSram, Function.update_apply]
  case p.p => rfl
  all_goals rw [if_neg (by simp)]; rfl

@[simp] theorem put_pc (s : Processor) (l : Loc) (v : Word) : (s.put l v).pc = s.pc := by
  cases l <;> rfl

/-- The states agree on the places of `L`. -/
def AgreeOn (L : Set Loc) (s s' : Processor) : Prop := ∀ l ∈ L, s.get l = s'.get l

end Processor

/-- The register of an operand that is in order. -/
def regPlace : Except Fault Reg → List Loc
  | .ok r => [.reg r]
  | .error _ => []

def cellPlace : Except Fault Addr → List Loc
  | .ok a => [.cell a]
  | .error _ => []

namespace VPUInstruction
variable (i : VPUInstruction)

/-- The places that the written word depends on. -/
def reads : List Loc :=
  match i.op with
  | .add | .sub | .mul | .div | .and | .or | .xor =>
    regPlace (i.inReg 0) ++ regPlace (i.inReg 1)
  | .addp | .subp | .mulp => regPlace (i.inReg 0) ++ regPlace (i.inReg 1) ++ [.p]
  | .not | .st => regPlace (i.inReg 0)
  | .ld | .ldp => cellPlace (i.inAddr 0)
  | .set | .jal | .ret | .beq | .unspecified => []

/-- The places that decide whether the instruction fails and what comes next. Where it
divides, the dividend does as well, since the least word has no quotient by minus one. -/
def controls : List Loc :=
  match i.op with
  | .div => regPlace (i.inReg 0) ++ regPlace (i.inReg 1)
  | .addp | .subp | .mulp => regPlace (i.inReg 0) ++ regPlace (i.inReg 1) ++ [.p]
  | .ret => regPlace (i.inReg 0)
  | .beq => regPlace (i.inReg 0) ++ regPlace (i.inReg 1)
  | _ => []

/-- The place that the instruction writes. -/
def writes : Option Loc :=
  match i.op with
  | .ldp => some .p
  | .st => (i.outAddr 0).toOption.map Loc.cell
  | .ret | .beq | .unspecified => none
  | _ => (i.outReg 0).toOption.map Loc.reg

end VPUInstruction

/-- From `s` to `t` and from `s'` to `t'` the instruction writes one place, and the same
word if the states agree on what it reads. -/
def Flow (i : VPUInstruction) (s s' t t' : Processor) : Prop :=
  ∃ l v v', i.writes = some l ∧ t = s.put l v ∧ t' = s'.put l v' ∧
    ((∀ l ∈ i.reads, s.get l = s'.get l) → v = v')

section Executors
variable {i : VPUInstruction} {s s' : Processor}

theorem binary_flow {f f' : Word → Word → Except Fault Word}
    (hw : i.writes = (i.outReg 0).toOption.map .reg)
    (hr : ∀ l ∈ regPlace (i.inReg 0) ++ regPlace (i.inReg 1), l ∈ i.reads)
    (hf : ∀ x y, i.inReg 0 = .ok x → i.inReg 1 = .ok y →
      Alike (fun v v' => s.regs x = s'.regs x → s.regs y = s'.regs y → v = v')
        (f (s.regs x) (s.regs y)) (f' (s'.regs x) (s'.regs y))) :
    Alike (Flow i s s') (execBinary f i s) (execBinary f' i s') := by
  unfold execBinary
  cases hx : i.inReg 0 with
  | error => rfl
  | ok x =>
    cases hy : i.inReg 1 with
    | error => rfl
    | ok y =>
      have hv := hf x y hx hy
      simp only [bind, Except.bind]
      cases h : f (s.regs x) (s.regs y) <;> cases h' : f' (s'.regs x) (s'.regs y) <;>
        rw [h, h'] at hv
      case error.error => exact hv
      case error.ok | ok.error => exact hv.elim
      case ok.ok v v' =>
        cases hd : i.outReg 0 with
        | error => rfl
        | ok d =>
          refine ⟨.reg d, v, v', by rw [hw, hd]; rfl, rfl, rfl, fun ha => ?_⟩
          rw [hx, hy] at hr
          exact hv (ha _ (hr (.reg x) (by simp [regPlace])))
            (ha _ (hr (.reg y) (by simp [regPlace])))

/-- The operations of `Exec_Binary` that cannot fail. -/
theorem total_flow (f : Word → Word → Word) (hw : i.writes = (i.outReg 0).toOption.map .reg)
    (hr : i.reads = regPlace (i.inReg 0) ++ regPlace (i.inReg 1)) :
    Alike (Flow i s s') (execBinary (fun a b => .ok (f a b)) i s)
      (execBinary (fun a b => .ok (f a b)) i s') := by
  refine binary_flow hw (fun l hl => hr ▸ hl) ?_
  intro x y _ _ hx hy
  rw [hx, hy]

/-- States that agree on the operands of a binary instruction. -/
theorem operands_eq {x y : Reg}
    (hc : ∀ l ∈ regPlace (i.inReg 0) ++ regPlace (i.inReg 1), s.get l = s'.get l)
    (hx : i.inReg 0 = .ok x) (hy : i.inReg 1 = .ok y) :
    s.regs x = s'.regs x ∧ s.regs y = s'.regs y := by
  rw [hx, hy] at hc
  exact ⟨hc (.reg x) (by simp [regPlace]), hc (.reg y) (by simp [regPlace])⟩

/-- Equal operands have a quotient or fail to have one alike. -/
theorem alike_quotient {a a' b b' v v' : Word} {R : Word → Word → Prop} (ha : a = a')
    (hb : b = b') (hv : R v v') :
    Alike R ((quotientFault a b).elim (.ok v) .error)
      ((quotientFault a' b').elim (.ok v') .error) := by
  rw [ha, hb]
  cases quotientFault a' b' with
  | none => exact hv
  | some => rfl

theorem div_flow (hop : i.op = .div)
    (hc : ∀ l ∈ regPlace (i.inReg 0) ++ regPlace (i.inReg 1), s.get l = s'.get l) :
    Alike (Flow i s s') (execDIV i s) (execDIV i s') := by
  refine binary_flow (by rw [VPUInstruction.writes, hop])
    (by rw [VPUInstruction.reads, hop]; exact fun _ h => h) ?_
  intro x y hx hy
  obtain ⟨ha, hb⟩ := operands_eq hc hx hy
  refine alike_quotient ha hb fun _ _ => ?_
  rw [ha, hb]

theorem prime_flow (f : Word → Word → Word) (hw : i.writes = (i.outReg 0).toOption.map .reg)
    (hr : i.reads = regPlace (i.inReg 0) ++ regPlace (i.inReg 1) ++ [.p])
    (hc : ∀ l ∈ regPlace (i.inReg 0) ++ regPlace (i.inReg 1) ++ [.p], s.get l = s'.get l) :
    Alike (Flow i s s') (execBinaryPrime f i s) (execBinaryPrime f i s') := by
  have hp : s.p = s'.p := hc .p (by simp)
  refine binary_flow hw (fun l hl => by rw [hr]; exact List.mem_append_left _ hl) ?_
  intro x y hx hy
  obtain ⟨ha, hb⟩ := operands_eq (fun l hl => hc l (List.mem_append_left _ hl)) hx hy
  refine alike_quotient (by rw [ha, hb]) hp fun _ _ => ?_
  rw [ha, hb, hp]

theorem unary_flow (f : Word → Word) (hw : i.writes = (i.outReg 0).toOption.map .reg)
    (hr : i.reads = regPlace (i.inReg 0)) :
    Alike (Flow i s s') (execUnary f i s) (execUnary f i s') := by
  unfold execUnary
  cases hx : i.inReg 0 with
  | error => rfl
  | ok x =>
    cases hd : i.outReg 0 with
    | error => rfl
    | ok d =>
      refine ⟨.reg d, _, _, by rw [hw, hd]; rfl, rfl, rfl, fun ha => congrArg f ?_⟩
      exact ha (.reg x) (by rw [hr, hx]; exact List.mem_singleton_self _)

theorem set_flow (hop : i.op = .set) : Alike (Flow i s s') (execSET i s) (execSET i s') := by
  unfold execSET
  cases hx : i.inputAt 0 with
  | error => rfl
  | ok x =>
    cases hd : i.outReg 0 with
    | error => rfl
    | ok d =>
      exact ⟨.reg d, x.value, x.value, by rw [VPUInstruction.writes, hop, hd]; rfl, rfl, rfl,
        fun _ => rfl⟩

theorem ld_flow (hop : i.op = .ld) : Alike (Flow i s s') (execLD i s) (execLD i s') := by
  unfold execLD
  cases ha : i.inAddr 0 with
  | error => rfl
  | ok a =>
    cases hd : i.outReg 0 with
    | error => rfl
    | ok d =>
      refine ⟨.reg d, _, _, by rw [VPUInstruction.writes, hop, hd]; rfl, rfl, rfl, fun h => ?_⟩
      exact h (.cell a) (by rw [VPUInstruction.reads, hop, ha]; exact List.mem_singleton_self _)

theorem ldp_flow (hop : i.op = .ldp) : Alike (Flow i s s') (execLDP i s) (execLDP i s') := by
  unfold execLDP
  cases ha : i.inAddr 0 with
  | error => rfl
  | ok a =>
    refine ⟨.p, _, _, by rw [VPUInstruction.writes, hop], rfl, rfl, fun h => ?_⟩
    exact h (.cell a) (by rw [VPUInstruction.reads, hop, ha]; exact List.mem_singleton_self _)

theorem st_flow (hop : i.op = .st) : Alike (Flow i s s') (execST i s) (execST i s') := by
  unfold execST
  cases hx : i.inReg 0 with
  | error => rfl
  | ok x =>
    cases ha : i.outAddr 0 with
    | error => rfl
    | ok a =>
      refine ⟨.cell a, _, _, by rw [VPUInstruction.writes, hop, ha]; rfl, rfl, rfl, fun h => ?_⟩
      exact h (.reg x) (by rw [VPUInstruction.reads, hop, hx]; exact List.mem_singleton_self _)

/-- Plain instructions from states that agree on what controls them. -/
theorem plain_flow {e : Execute} (he : plainExecute i.op = some e)
    (hc : ∀ l ∈ i.controls, s.get l = s'.get l) : Alike (Flow i s s') (e i s) (e i s') := by
  unfold VPUInstruction.controls at hc
  cases hop : i.op <;> rw [hop] at he hc <;> cases he
  case ldp => exact ldp_flow hop
  case set => exact set_flow hop
  case ld => exact ld_flow hop
  case st => exact st_flow hop
  case div => exact div_flow hop hc
  case not =>
    exact unary_flow _ (by rw [VPUInstruction.writes, hop]) (by rw [VPUInstruction.reads, hop])
  case add | sub | mul | and | or | xor =>
    exact total_flow _ (by rw [VPUInstruction.writes, hop]) (by rw [VPUInstruction.reads, hop])
  case addp | subp | mulp =>
    exact prime_flow _ (by rw [VPUInstruction.writes, hop]) (by rw [VPUInstruction.reads, hop]) hc

end Executors

/-- A plain instruction, and on to the next one. -/
def plainStep (s : Processor) (i : VPUInstruction) : Except Fault Processor :=
  match plainExecute i.op with
  | some execute => (execute i s).map Processor.next
  | none => .error .noExecutor

section Plain
variable {prog : VPUProgram} {i : VPUInstruction} {s s' t u v : Processor} {l m : Loc} {w : Word}

@[simp] theorem get_next (s : Processor) (l : Loc) : s.next.get l = s.get l := by
  cases l <;> rfl

theorem get_next_put (h : m ≠ l) : (s.put l w).next.get m = s.get m := by
  rw [get_next, Processor.get_put, if_neg h]

/-- A plain instruction writes one place. What it writes, and whether it fails, depends
only on the places it looks at. -/
theorem plainStep_flow (hc : ∀ l ∈ i.controls, s.get l = s'.get l) :
    Alike (fun t t' => ∃ l v v', i.writes = some l ∧ t = (s.put l v).next ∧
        t' = (s'.put l v').next ∧ ((∀ l ∈ i.reads, s.get l = s'.get l) → v = v'))
      (plainStep s i) (plainStep s' i) := by
  unfold plainStep
  cases he : plainExecute i.op with
  | none => rfl
  | some e =>
    refine (plain_flow he hc).map ?_
    rintro t t' ⟨l, v, v', hw, rfl, rfl, hv⟩
    exact ⟨l, v, v', hw, rfl, rfl, hv⟩

/-- A plain instruction that succeeds writes its place. -/
theorem plainStep_writes (h : plainStep s i = .ok t) :
    ∃ l v, i.writes = some l ∧ t = (s.put l v).next := by
  have hcontrols : ∀ m ∈ i.controls, s.get m = s.get m := fun _ _ => rfl
  have hflow := plainStep_flow hcontrols
  rw [h] at hflow
  obtain ⟨l, v, -, hl, ht, -, -⟩ := hflow
  exact ⟨l, v, hl, ht⟩

theorem step_eq_plainStep (hi : prog.instr[u.index]? = some i)
    (hp : (plainExecute i.op).isSome = true) : step prog u = plainStep u i := by
  obtain ⟨e, he⟩ := Option.isSome_iff_exists.mp hp
  rw [step_of_exec hi (exec_of_plainExecute he), plainStep, he]
  change (e.nextPc i u).map _ = (e i u).map Processor.next
  rw [Execute.nextPc]
  cases e i u <;> rfl

theorem plainStep_index (h : plainStep u i = .ok v) (hu : u.index < 2 ^ 31) :
    v.index = u.index + 1 := by
  obtain ⟨l, w, -, rfl⟩ := plainStep_writes h
  have hput : (u.put l w).index = u.index := congrArg BitVec.toNat (u.put_pc l w)
  rw [next_index (by rwa [hput]), hput]

end Plain

/-- Two steps through one instruction go on at one index and change only what it writes,
alike if the states agree on what it reads. -/
structure StepFlow (i : VPUInstruction) (s s' t t' : Processor) : Prop where
  pc : t.pc = t'.pc
  keeps : ∀ l, i.writes ≠ some l → t.get l = s.get l ∧ t'.get l = s'.get l
  writes : ∀ l, i.writes = some l → (∀ l ∈ i.reads, s.get l = s'.get l) → t.get l = t'.get l

section Step
variable {prog : VPUProgram} {i : VPUInstruction} {s s' t t' : Processor}

theorem Flow.stepFlow (h : Flow i s s' t t') (hpc : s.pc = s'.pc) :
    StepFlow i s s' { t with pc := t.pc + 1 } { t' with pc := t'.pc + 1 } := by
  obtain ⟨l, v, v', hw, rfl, rfl, hv⟩ := h
  refine ⟨?_, fun l' hl' => ?_, fun l' hl' hr => ?_⟩
  · change (s.put l v).pc + 1 = (s'.put l v').pc + 1
    rw [Processor.put_pc, Processor.put_pc, hpc]
  · have hne : l' ≠ l := fun h => hl' (by rw [hw, h])
    change (s.put l v).get l' = _ ∧ (s'.put l v').get l' = _
    rw [Processor.get_put, Processor.get_put, if_neg hne, if_neg hne]
    exact ⟨rfl, rfl⟩
  · rw [hw] at hl'
    cases hl'
    change (s.put l v).get l = (s'.put l v').get l
    rw [Processor.get_put, Processor.get_put, if_pos rfl, if_pos rfl, hv hr]

theorem get_labelAt (s : Processor) (l : String) (x : Loc) :
    (s.labelAt l).2.get x = s.get x := by
  obtain ⟨hsram, hregs, hp, -⟩ := s.labelAt_same l
  cases x
  · exact (congrFun hregs _).symm
  · exact (congrFun hsram _).symm
  · exact hp.symm

/-- A jump to a label from states that agree on the label table. -/
theorem stepFlow_labelAt {w w' : Processor} {l : String} (ht : w.target l = w'.target l)
    (hk : ∀ x, i.writes ≠ some x → w.get x = s.get x ∧ w'.get x = s'.get x)
    (hw : ∀ x, i.writes = some x → w.get x = w'.get x) :
    StepFlow i s s' { (w.labelAt l).2 with pc := (w.labelAt l).1 }
      { (w'.labelAt l).2 with pc := (w'.labelAt l).1 } where
  pc := by
    change (w.labelAt l).1 = (w'.labelAt l).1
    rw [Processor.labelAt_fst, Processor.labelAt_fst, ht]
  keeps x hx := by
    change (w.labelAt l).2.get x = _ ∧ (w'.labelAt l).2.get x = _
    rw [get_labelAt, get_labelAt]
    exact hk x hx
  writes x hx _ := by
    change (w.labelAt l).2.get x = (w'.labelAt l).2.get x
    rw [get_labelAt, get_labelAt]
    exact hw x hx

theorem jal_stepFlow (hop : i.op = .jal) (hpc : s.pc = s'.pc)
    (ht : ∀ l ∈ i.reference, s.target l = s'.target l) :
    Alike (StepFlow i s s') ((nextPcJAL i s).map fun r => { r.2 with pc := r.1 })
      ((nextPcJAL i s').map fun r => { r.2 with pc := r.1 }) := by
  unfold nextPcJAL
  cases hd : i.outReg 0 with
  | error => rfl
  | ok d =>
    cases hx : i.inputAt 0 with
    | error => rfl
    | ok x =>
      have hw : i.writes = some (.reg d) := by rw [VPUInstruction.writes, hop, hd]; rfl
      have hkeeps : ∀ l, i.writes ≠ some l →
          (s.put (.reg d) (s.pc.setWidth 64)).get l = s.get l ∧
            (s'.put (.reg d) (s'.pc.setWidth 64)).get l = s'.get l := by
        intro l hl
        have hne : l ≠ .reg d := fun h => hl (by rw [hw, h])
        rw [Processor.get_put, Processor.get_put, if_neg hne, if_neg hne]
        exact ⟨rfl, rfl⟩
      -- the link is the index of the jump, so both runs write the same one
      have hlink : ∀ l, i.writes = some l →
          (s.put (.reg d) (s.pc.setWidth 64)).get l =
            (s'.put (.reg d) (s'.pc.setWidth 64)).get l := by
        intro l hl
        rw [hw] at hl
        cases hl
        rw [Processor.get_put, Processor.get_put, if_pos rfl, if_pos rfl, hpc]
      exact stepFlow_labelAt (ht _ (reference_of_jal hop hx)) hkeeps hlink

theorem ret_stepFlow (hop : i.op = .ret) (hc : ∀ l ∈ regPlace (i.inReg 0), s.get l = s'.get l) :
    Alike (StepFlow i s s') ((nextPcRET i s).map fun r => { r.2 with pc := r.1 })
      ((nextPcRET i s').map fun r => { r.2 with pc := r.1 }) := by
  unfold nextPcRET
  cases hx : i.inReg 0 with
  | error => rfl
  | ok x =>
    have hreg : s.regs x = s'.regs x := hc (.reg x) (by rw [hx]; exact List.mem_singleton_self _)
    refine ⟨congrArg (fun v : Word => (v + 1).setWidth 32) hreg, fun l _ => ⟨?_, ?_⟩, ?_⟩
    · cases l <;> rfl
    · cases l <;> rfl
    · intro l hl
      rw [VPUInstruction.writes, hop] at hl
      cases hl

theorem beq_stepFlow (hop : i.op = .beq) (hpc : s.pc = s'.pc)
    (ht : ∀ l ∈ i.reference, s.target l = s'.target l)
    (hc : ∀ l ∈ regPlace (i.inReg 0) ++ regPlace (i.inReg 1), s.get l = s'.get l) :
    Alike (StepFlow i s s') ((nextPcBEQ i s).map fun r => { r.2 with pc := r.1 })
      ((nextPcBEQ i s').map fun r => { r.2 with pc := r.1 }) := by
  have hw : i.writes = none := by rw [VPUInstruction.writes, hop]
  unfold nextPcBEQ
  cases hx : i.inReg 0 with
  | error => rfl
  | ok x =>
    cases hy : i.inReg 1 with
    | error => rfl
    | ok y =>
      rw [hx, hy] at hc
      have hxs : s.regs x = s'.regs x := hc (.reg x) (by simp [regPlace])
      have hys : s.regs y = s'.regs y := hc (.reg y) (by simp [regPlace])
      by_cases hxy : s.regs x = s.regs y
      · have hxy' : s'.regs x = s'.regs y := by rw [← hxs, ← hys, hxy]
        simp only [bind, Except.bind, if_pos hxy, if_pos hxy']
        cases hz : i.outputAt 0 with
        | error => rfl
        | ok z =>
          refine stepFlow_labelAt (ht _ (reference_of_beq hop hz)) (fun _ _ => ⟨rfl, rfl⟩)
            fun l hl => ?_
          rw [hw] at hl
          cases hl
      · have hxy' : ¬ s'.regs x = s'.regs y := by rwa [← hxs, ← hys]
        simp only [bind, Except.bind, if_neg hxy, if_neg hxy']
        refine ⟨congrArg (· + 1) hpc, fun l _ => ⟨?_, ?_⟩, fun l hl => ?_⟩
        · cases l <;> rfl
        · cases l <;> rfl
        · rw [hw] at hl
          cases hl

/-- One instruction from two states that agree on what controls it. -/
theorem step_flow (hi : prog.instr[s.index]? = some i) (hpc : s.pc = s'.pc)
    (ht : ∀ l ∈ i.reference, s.target l = s'.target l)
    (hc : ∀ l ∈ i.controls, s.get l = s'.get l) :
    Alike (StepFlow i s s') (step prog s) (step prog s') := by
  have hi' : prog.instr[s'.index]? = some i := by
    rw [← hi, Processor.index, Processor.index, hpc]
  cases hf : exec i.op with
  | none =>
    rw [step_of_no_exec hi hf, step_of_no_exec hi' hf]
    rfl
  | some f =>
    rw [step_of_exec hi hf, step_of_exec hi' hf]
    cases hplain : plainExecute i.op with
    | some e =>
      rw [exec_of_plainExecute hplain] at hf
      cases hf
      have hflow := plain_flow hplain hc
      unfold Execute.nextPc
      cases he : e i s <;> cases he' : e i s' <;> rw [he, he'] at hflow
      case error.error => exact hflow
      case error.ok | ok.error => exact hflow.elim
      case ok.ok => exact hflow.stepFlow hpc
    | none =>
      unfold VPUInstruction.controls at hc
      rcases plainExecute_eq_none hplain with hop | hop | hop | hop <;> rw [hop] at hf hc <;>
        cases hf
      · exact jal_stepFlow hop hpc ht
      · exact ret_stepFlow hop hc
      · exact beq_stepFlow hop hpc ht hc

/-- A step leaves alone what its instruction does not write. -/
theorem step_keeps {u v : Processor} {l : Loc} (hi : prog.instr[u.index]? = some i)
    (h : step prog u = .ok v) (hl : i.writes ≠ some l) : v.get l = u.get l := by
  have hcontrols : ∀ m ∈ i.controls, u.get m = u.get m := fun _ _ => rfl
  have hflow := step_flow hi rfl (fun _ _ => rfl) hcontrols
  rw [h] at hflow
  exact (hflow.keeps l hl).1

/-- A call leaves its own index in the link. -/
theorem step_jal {u v : Processor} (hi : prog.instr[u.index]? = some i) (hop : i.op = .jal)
    (h : step prog u = .ok v) :
    ∃ d, i.writes = some (.reg d) ∧ v.regs d = u.pc.setWidth 64 := by
  rw [step_of_exec hi (by rw [hop]; rfl)] at h
  unfold nextPcJAL at h
  cases hd : i.outReg 0 with
  | error => rw [hd] at h; cases h
  | ok d =>
    cases hx : i.inputAt 0 with
    | error => rw [hd, hx] at h; cases h
    | ok x =>
      rw [hd, hx] at h
      cases h
      obtain ⟨-, hregs, -⟩ := (u.setReg d (u.pc.setWidth 64)).labelAt_same x.label
      refine ⟨d, by rw [VPUInstruction.writes, hop, hd]; rfl, ?_⟩
      exact (congrFun hregs d).symm.trans (Function.update_self d _ u.regs)

/-- A return goes to the word behind the link. -/
theorem step_ret {u v : Processor} (hi : prog.instr[u.index]? = some i) (hop : i.op = .ret)
    (h : step prog u = .ok v) :
    ∃ x, i.inReg 0 = .ok x ∧ v = { u with pc := (u.regs x + 1).setWidth 32 } := by
  rw [step_of_exec hi (by rw [hop]; rfl)] at h
  unfold nextPcRET at h
  cases hx : i.inReg 0 with
  | error => rw [hx] at h; cases h
  | ok x =>
    rw [hx] at h
    cases h
    exact ⟨x, rfl, rfl⟩

end Step

/-- Every label that the program names is defined in it. -/
def Resolved (prog : VPUProgram) : Prop := ∀ i ∈ prog.instr, ∀ l ∈ i.reference, Defines prog.instr l

/-- The instruction `i` at index `k` may be followed by the one at `j`. -/
def Leads (prog : VPUProgram) (k : ℕ) (i : VPUInstruction) (j : ℕ) : Prop :=
  i.op ≠ .jal ∧ j = k + 1 ∨ i.op = .ret ∨ ∃ l ∈ i.reference, j = (prog.target l).toNat

/-- `A k` has the places that decide how a run goes on from index `k` and what it leaves
in the places that `A` has where it ends. -/
structure Live (prog : VPUProgram) (A : ℕ → Set Loc) : Prop where
  controls : ∀ k i, prog.instr[k]? = some i → ∀ l ∈ i.controls, l ∈ A k
  keeps : ∀ k i j, prog.instr[k]? = some i → Leads prog k i j → ∀ l ∈ A j, i.writes ≠ some l →
    l ∈ A k
  reads : ∀ k i j, prog.instr[k]? = some i → Leads prog k i j → ∀ l ∈ A j, i.writes = some l →
    ∀ l' ∈ i.reads, l' ∈ A k

/-- The states are about to execute the same instruction and agree on what is live there. -/
structure LiveAgree (A : ℕ → Set Loc) (s s' : Processor) : Prop where
  pc : s.pc = s'.pc
  places : Processor.AgreeOn (A s.index) s s'

section Run
variable {prog : VPUProgram} {A : ℕ → Set Loc} {i : VPUInstruction} {l : String}
  {s s' u u' v v' : Processor}

theorem target_start_of_defines (h : Defines prog.instr l) (s : Processor) :
    (start prog s).target l = prog.target l :=
  congrArg (fun j : Option (BitVec 32) => j.getD 0) (loadLabels_of_defines h 0 _ _)

/-- The targets that an instruction names are the same in every run. -/
theorem Resolved.target_eq (hr : Resolved prog) (hi : i ∈ prog.instr)
    (ht : u.target = (start prog s).target) : ∀ l ∈ i.reference, u.target l = prog.target l := by
  intro l hl
  rw [ht, target_start_of_defines (hr i hi l hl)]

theorem running_of_pc (h : u.pc = u'.pc) :
    (machine prog).running u = (machine prog).running u' := by
  change decide (u.pc.toNat < _) = decide (u'.pc.toNat < _)
  rw [h]

@[simp] theorem get_start (prog : VPUProgram) (s : Processor) (x : Loc) :
    (start prog s).get x = s.get x := by
  cases x <;> rfl

/-- A defined label leads to an instruction that carries it. -/
theorem exists_labelled {is : List VPUInstruction} (h : Defines is l) (j : ℕ) (m : Labels) :
    ∃ (k : ℕ) (i : VPUInstruction), is[k]? = some i ∧ i.label.length > 0 ∧
      loadLabels is j m l = some ((j + k : ℕ) : BitVec 32) := by
  induction is generalizing j m with
  | nil => obtain ⟨i, hi, -⟩ := h; cases hi
  | cons i is ih =>
    rw [loadLabels]
    by_cases hd : Defines is l
    · obtain ⟨k, i', hi', hl, hk⟩ := ih hd (j + 1) _
      refine ⟨k + 1, i', hi', hl, ?_⟩
      rw [hk]
      congr 2
      omega
    · obtain ⟨i', hi', hl, hlen⟩ := h
      rcases List.mem_cons.mp hi' with rfl | hi'
      · refine ⟨0, i', rfl, hlen, ?_⟩
        rw [loadLabels_of_not_defines hd, if_pos hlen, hl, Function.update_self]
        rfl
      · exact absurd ⟨i', hi', hl, hlen⟩ hd

theorem target_lt (h : Defines prog.instr l) : (prog.target l).toNat < prog.instrSize := by
  obtain ⟨k, i, hi, -, hload⟩ := exists_labelled h 0 fun _ => none
  have hk : k < prog.instrSize := (List.getElem?_eq_some_iff.mp hi).1
  have htarget : (prog.target l).toNat = k := by
    rw [VPUProgram.target, hload, Nat.zero_add]
    exact toNat_ofNat_of_lt (hk.trans prog.instrSize_lt)
  rwa [htarget]

theorem step_leads (hr : Resolved prog) (ht : u.target = (start prog s).target)
    (hu : u.index < prog.instrSize) (hi : prog.instr[u.index]? = some i)
    (h : step prog u = .ok v) : Leads prog u.index i v.index := by
  rcases step_pc hi h with ⟨hop, hpc⟩ | hop | ⟨l, hl, hpc⟩
  · refine Or.inl ⟨hop, ?_⟩
    rw [← next_index (hu.trans prog.instrSize_lt)]
    exact congrArg BitVec.toNat hpc
  · exact Or.inr (Or.inl hop)
  · refine Or.inr (Or.inr ⟨l, hl, ?_⟩)
    rw [← hr.target_eq (List.mem_of_getElem? hi) ht l hl]
    exact congrArg BitVec.toNat hpc

/-- What is live after a step agrees if what is live before it does. -/
theorem StepFlow.liveAgree (hA : Live prog A) (hi : prog.instr[u.index]? = some i)
    (hl : Leads prog u.index i v.index) (h : LiveAgree A u u') (hs : StepFlow i u u' v v') :
    LiveAgree A v v' := by
  refine ⟨hs.pc, fun x hx => ?_⟩
  by_cases hw : i.writes = some x
  · exact hs.writes x hw fun y hy => h.places y (hA.reads _ i _ hi hl x hx hw y hy)
  · obtain ⟨hv, hv'⟩ := hs.keeps x hw
    rw [hv, hv']
    exact h.places x (hA.keeps _ i _ hi hl x hx hw)

/-- Runs from states that agree on what is live at the start take the same course, fail
alike, and leave what is live at the end alike. Nothing else of the two states matters. -/
theorem live_run (hr : Resolved prog) (hA : Live prog A) (h : Processor.AgreeOn (A 0) s s') :
    (∀ n, Alike (LiveAgree A) (runProgram prog n s) (runProgram prog n s')) ∧
      ∀ t, Returns prog s t → ∃ t', Returns prog s' t' ∧ LiveAgree A t t' := by
  have hrun : ∀ n, Alike (LiveAgree A) (runProgram prog n s) (runProgram prog n s') := by
    refine Lib.Machine.alike_iter (fun _ _ hR => running_of_pc hR.pc) ?_ ⟨rfl, ?_⟩
    · intro k u u' hk hk' hR hrun
      have hu := machine_running.mp hrun
      obtain ⟨i, hmem, hi⟩ := exists_instr hu
      have htarget : ∀ l ∈ i.reference, u.target l = u'.target l := fun l hl =>
        (hr.target_eq hmem (iter_target hk) l hl).trans
          (hr.target_eq hmem (iter_target hk') l hl).symm
      have hflow := step_flow hi hR.pc htarget fun x hx => hR.places x (hA.controls _ i hi x hx)
      exact hflow.imp_ok fun v v' hv _ hvv' =>
        hvv'.liveAgree hA hi (step_leads hr (iter_target hk) hu hi hv) hR
    · intro x hx
      rw [get_start, get_start]
      exact h x hx
  exact ⟨hrun, fun t ht => Lib.Machine.alike_halts (fun _ _ hR => running_of_pc hR.pc) hrun ht⟩

/-- A place that no instruction writes keeps its word through every run. -/
theorem run_frame {x : Loc} (hx : ∀ i ∈ prog.instr, i.writes ≠ some x) {n : ℕ}
    (h : runProgram prog n s = .ok u) : u.get x = s.get x := by
  refine Lib.Machine.iter_invariant (I := fun u => u.get x = s.get x) ?_ (get_start prog s x) h
  intro u v hu hr hv
  obtain ⟨i, hmem, hi⟩ := exists_instr (machine_running.mp hr)
  exact (step_keeps hi hv (hx i hmem)).trans hu

end Run

/-- A list of places for each index, and one for all indices behind the program. -/
structure PlaceTable where
  rows : List (List Loc)
  out : List Loc

namespace PlaceTable
variable (T : PlaceTable)

def row (k : ℕ) : List Loc := T.rows[k]?.getD T.out

/-- The indices that may follow, one for all those behind the table. -/
def successors (prog : VPUProgram) (k : ℕ) (i : VPUInstruction) : List ℕ :=
  (if i.op = .jal then [] else [k + 1]) ++
    (i.reference.toList.map fun l => (prog.target l).toNat) ++
    if i.op = .ret then List.range (T.rows.length + 1) else []

/-- The instruction `i` at index `k` keeps to the table. -/
def Holds (prog : VPUProgram) (i : VPUInstruction) (k : ℕ) : Prop :=
  (∀ l ∈ i.controls, l ∈ T.row k) ∧
    ∀ j ∈ T.successors prog k i, ∀ l ∈ T.row j,
      if i.writes = some l then ∀ l' ∈ i.reads, l' ∈ T.row k else l ∈ T.row k

instance (prog : VPUProgram) (i : VPUInstruction) (k : ℕ) : Decidable (T.Holds prog i k) :=
  inferInstanceAs (Decidable (_ ∧ _))

def Checks (prog : VPUProgram) : Prop := ∀ x ∈ prog.instr.zipIdx, T.Holds prog x.1 x.2

instance (prog : VPUProgram) : Decidable (T.Checks prog) :=
  inferInstanceAs (Decidable (∀ _ ∈ _, _))

variable {T}

/-- Behind the table all rows are one. -/
theorem exists_successor {prog : VPUProgram} {k j : ℕ} {i : VPUInstruction}
    (h : Leads prog k i j) : ∃ j' ∈ T.successors prog k i, T.row j' = T.row j := by
  unfold successors
  rcases h with ⟨hop, rfl⟩ | hop | ⟨l, hl, rfl⟩
  · exact ⟨k + 1, by simp [hop], rfl⟩
  · refine ⟨min j T.rows.length, ?_, ?_⟩
    · rw [if_pos hop, List.mem_append]
      exact Or.inr (List.mem_range.mpr (by omega))
    · rcases le_total j T.rows.length with hj | hj
      · rw [min_eq_left hj]
      · rw [min_eq_right hj, row, row, List.getElem?_eq_none le_rfl, List.getElem?_eq_none hj]
  · exact ⟨_, by simp [Option.mem_def.mp hl], rfl⟩

theorem Checks.live {prog : VPUProgram} (h : T.Checks prog) :
    Live prog fun k => {l | l ∈ T.row k} := by
  have hholds : ∀ k i, prog.instr[k]? = some i → T.Holds prog i k := by
    intro k i hi
    exact h (i, k) (List.mk_mem_zipIdx_iff_getElem?.mpr hi)
  refine ⟨fun k i hi => (hholds k i hi).1, ?_, ?_⟩
  · intro k i j hi hl x hx hw
    obtain ⟨j', hj', hrow⟩ := exists_successor (T := T) hl
    have hstep := (hholds k i hi).2 j' hj' x (by rw [hrow]; exact hx)
    rwa [if_neg hw] at hstep
  · intro k i j hi hl x hx hw
    obtain ⟨j', hj', hrow⟩ := exists_successor (T := T) hl
    have hstep := (hholds k i hi).2 j' hj' x (by rw [hrow]; exact hx)
    rwa [if_pos hw] at hstep

end PlaceTable

namespace MultInverse

/-- What the loop goes on with. -/
def loopRow : List Loc := [.reg 0, .reg 8, .reg 20, .reg 21, .reg 22, .reg 23, .p]

/-- The kernel loads what it works on, so that only its two arguments are live at its start. -/
def live : PlaceTable where
  rows :=
    [ [.cell 0, .cell 1], [.cell 0, .cell 1, .p], [.cell 0, .cell 1, .p, .reg 8],
      [.cell 0, .p, .reg 8, .reg 20], [.cell 0, .p, .reg 8, .reg 20, .reg 22],
      [.cell 0, .p, .reg 8, .reg 20, .reg 22], [.p, .reg 8, .reg 20, .reg 21, .reg 22],
      [.p, .reg 8, .reg 20, .reg 21, .reg 22, .reg 23],
      [.p, .reg 8, .reg 20, .reg 21, .reg 22, .reg 23],
      loopRow, loopRow, .reg 13 :: loopRow, loopRow, loopRow, loopRow, loopRow, loopRow,
      [.reg 8] ]
  out := [.cell 10]

theorem live_checks : live.Checks program := by decide +kernel

theorem resolved : Resolved program := by
  have h : ∀ i ∈ code, ∀ l ∈ i.reference, Defines code l := by
    unfold Defines
    decide +kernel
  exact h

/-- Left-over registers and cells do not matter. -/
theorem live_run_five :
    (∀ n, Alike (LiveAgree fun k => {l | l ∈ live.row k})
      (runProgram program n (.ofCells [37, 5]))
      (runProgram program n ((Processor.ofCells [37, 5, 9]).setReg 8 4))) ∧
    ∀ t, Returns program (.ofCells [37, 5]) t →
      ∃ t', Returns program ((Processor.ofCells [37, 5, 9]).setReg 8 4) t' ∧
        LiveAgree (fun k => {l | l ∈ live.row k}) t t' := by
  refine live_run resolved live_checks.live fun l hl => ?_
  change l ∈ [Loc.cell 0, .cell 1] at hl
  simp only [List.mem_cons, List.not_mem_nil, or_false] at hl
  rcases hl with rfl | rfl <;> rfl

end MultInverse
end Fabric

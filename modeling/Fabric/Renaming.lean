import Fabric.Footprint

/-! Labels are only names: a program whose labels are renamed runs as before. -/
namespace Fabric
open Lib
open Lib.Machine (Alike)

/-- New names for the labels. The empty label, which stands for none, keeps its name. -/
structure Renaming where
  name : String → String
  injective : Function.Injective name
  empty : name "" = ""

theorem Renaming.length_pos (f : Renaming) (l : String) :
    (f.name l).length > 0 ↔ l.length > 0 := by
  have hne : ∀ l : String, l.length > 0 ↔ l ≠ "" := by
    intro l
    rw [gt_iff_lt, Nat.pos_iff_ne_zero, ne_eq, ne_eq, String.length_eq_zero_iff]
  rw [hne, hne, ne_eq, ne_eq, ← f.injective.eq_iff (a := l), f.empty]

def InstructionInOut.rename (f : Renaming) : InstructionInOut → InstructionInOut
  | kLabel l => kLabel (f.name l)
  | x => x

def VPUInstruction.rename (f : Renaming) (i : VPUInstruction) : VPUInstruction where
  op := i.op
  inputs := i.inputs.map (InstructionInOut.rename f)
  outputs := i.outputs.map (InstructionInOut.rename f)
  label := f.name i.label

def VPUProgram.rename (f : Renaming) (prog : VPUProgram) : VPUProgram where
  instr := prog.instr.map (VPUInstruction.rename f)
  instrSize_le := by rw [List.length_map]; exact prog.instrSize_le

/-- The states agree up to their tables, which have the same targets under other names. -/
structure Renamed (f : Renaming) (s s' : Processor) : Prop where
  same : s.Same s'
  target : ∀ l, s'.target (f.name l) = s.target l

section Operands
variable (f : Renaming) (x : InstructionInOut) (i : VPUInstruction) (n : ℕ)

namespace InstructionInOut

@[simp] theorem rename_reg : (x.rename f).reg = x.reg := by cases x <;> rfl

@[simp] theorem rename_addr : (x.rename f).addr = x.addr := by cases x <;> rfl

@[simp] theorem rename_value : (x.rename f).value = x.value := by cases x <;> rfl

/-- An operand of another case has the empty label before and after. -/
@[simp] theorem rename_label : (x.rename f).label = f.name x.label := by
  cases x
  case kLabel => rfl
  all_goals exact f.empty.symm

end InstructionInOut

namespace VPUInstruction

@[simp] theorem rename_op : (i.rename f).op = i.op := rfl

theorem inputAt_rename :
    (i.rename f).inputAt n = (i.inputAt n).map (InstructionInOut.rename f) := by
  unfold inputAt rename
  rw [List.getElem?_map]
  cases i.inputs[n]? <;> rfl

theorem outputAt_rename :
    (i.rename f).outputAt n = (i.outputAt n).map (InstructionInOut.rename f) := by
  unfold outputAt rename
  rw [List.getElem?_map]
  cases i.outputs[n]? <;> rfl

@[simp] theorem inReg_rename : (i.rename f).inReg n = i.inReg n := by
  unfold inReg
  rw [inputAt_rename]
  cases i.inputAt n
  case error => rfl
  case ok x => simp only [Except.map, bind, Except.bind, InstructionInOut.regIndex, x.rename_reg f]

@[simp] theorem outReg_rename : (i.rename f).outReg n = i.outReg n := by
  unfold outReg
  rw [outputAt_rename]
  cases i.outputAt n
  case error => rfl
  case ok x => simp only [Except.map, bind, Except.bind, InstructionInOut.regIndex, x.rename_reg f]

@[simp] theorem inAddr_rename : (i.rename f).inAddr n = i.inAddr n := by
  unfold inAddr
  rw [inputAt_rename]
  cases i.inputAt n
  case error => rfl
  case ok x =>
    simp only [Except.map, bind, Except.bind, InstructionInOut.addrIndex, x.rename_addr f]

@[simp] theorem outAddr_rename : (i.rename f).outAddr n = i.outAddr n := by
  unfold outAddr
  rw [outputAt_rename]
  cases i.outputAt n
  case error => rfl
  case ok x =>
    simp only [Except.map, bind, Except.bind, InstructionInOut.addrIndex, x.rename_addr f]

@[simp] theorem reads_rename : (i.rename f).reads = i.reads := by
  simp only [reads, rename_op, inReg_rename, inAddr_rename]

@[simp] theorem controls_rename : (i.rename f).controls = i.controls := by
  simp only [controls, rename_op, inReg_rename]

@[simp] theorem writes_rename : (i.rename f).writes = i.writes := by
  simp only [writes, rename_op, outReg_rename, outAddr_rename]

theorem reference_rename : (i.rename f).reference = i.reference.map f.name := by
  unfold reference
  rw [rename_op]
  cases i.op
  case jal =>
    simp only [rename, List.getElem?_map, Option.map_map]
    cases i.inputs[0]?
    case none => rfl
    case some x => exact congrArg some (x.rename_label f)
  case beq =>
    simp only [rename, List.getElem?_map, Option.map_map]
    cases i.outputs[0]?
    case none => rfl
    case some x => exact congrArg some (x.rename_label f)
  all_goals rfl

end VPUInstruction

/-- Plain instructions have no label among what they look at. -/
theorem plain_rename {e : Execute} (he : plainExecute i.op = some e) (s : Processor) :
    e (i.rename f) s = e i s := by
  cases hop : i.op <;> rw [hop] at he <;> cases he
  case set =>
    unfold execSET
    rw [VPUInstruction.inputAt_rename, VPUInstruction.outReg_rename]
    cases i.inputAt 0
    case error => rfl
    case ok x => simp only [Except.map, bind, Except.bind, x.rename_value f]
  case ldp => simp only [execLDP, VPUInstruction.inAddr_rename]
  case ld => simp only [execLD, VPUInstruction.inAddr_rename, VPUInstruction.outReg_rename]
  case st => simp only [execST, VPUInstruction.inReg_rename, VPUInstruction.outAddr_rename]
  case not =>
    simp only [execNOT, execUnary, VPUInstruction.inReg_rename, VPUInstruction.outReg_rename]
  all_goals
    simp only [execADD, execSUB, execMUL, execDIV, execAND, execOR, execXOR, execADDP, execSUBP,
      execMULP, execBinaryPrime, execBinary, VPUInstruction.inReg_rename,
      VPUInstruction.outReg_rename]

end Operands

section Run
variable {f : Renaming} {prog : VPUProgram} {i : VPUInstruction} {is : List VPUInstruction}
  {s s' : Processor} {m m' : Labels}

/-- The table of the renamed program has the targets of the program. -/
theorem loadLabels_rename (h : ∀ l, (m' (f.name l)).getD 0 = (m l).getD 0) (j : ℕ) (l : String) :
    (loadLabels (is.map (VPUInstruction.rename f)) j m' (f.name l)).getD 0 =
      (loadLabels is j m l).getD 0 := by
  induction is generalizing j m m' with
  | nil => exact h l
  | cons i is ih =>
    rw [List.map_cons, loadLabels, loadLabels]
    refine ih (fun l => ?_) (j + 1)
    change ((if (f.name i.label).length > 0 then Function.update m' (f.name i.label) (some j)
      else m') (f.name l)).getD 0 = _
    by_cases hlen : i.label.length > 0
    · rw [if_pos hlen, if_pos ((f.length_pos _).mpr hlen), Function.update_apply,
        Function.update_apply]
      by_cases hl : l = i.label
      · rw [if_pos hl, if_pos (congrArg f.name hl)]
      · rw [if_neg hl, if_neg (f.injective.ne hl)]
        exact h l
    · rw [if_neg hlen, if_neg fun hl => hlen ((f.length_pos _).mp hl)]
      exact h l

theorem target_rename (l : String) : (prog.rename f).target (f.name l) = prog.target l :=
  loadLabels_rename (fun _ => rfl) 0 l

theorem Renamed.start (h : Renamed f s s') :
    Renamed f (start prog s) (start (prog.rename f) s') where
  same := ⟨h.same.sram, h.same.regs, h.same.p, rfl⟩
  target l := loadLabels_rename h.target 0 l

/-- A lookup under the old name and under the new one. -/
theorem Renamed.labelAt (h : Renamed f s s') (l : String) :
    (s.labelAt l).1 = (s'.labelAt (f.name l)).1 ∧
      Renamed f (s.labelAt l).2 (s'.labelAt (f.name l)).2 := by
  obtain ⟨hsram, hregs, hp, hpc⟩ := h.same
  obtain ⟨hsram₁, hregs₁, hp₁, hpc₁⟩ := s.labelAt_same l
  obtain ⟨hsram₂, hregs₂, hp₂, hpc₂⟩ := s'.labelAt_same (f.name l)
  refine ⟨?_, ⟨?_, ?_, ?_, ?_⟩, fun l' => ?_⟩
  · rw [Processor.labelAt_fst, Processor.labelAt_fst, h.target]
  · rw [← hsram₁, ← hsram₂, hsram]
  · rw [← hregs₁, ← hregs₂, hregs]
  · rw [← hp₁, ← hp₂, hp]
  · rw [← hpc₁, ← hpc₂, hpc]
  · rw [Processor.labelAt_target, Processor.labelAt_target, h.target]

/-- A jump to the place of a label. -/
theorem Renamed.jump (h : Renamed f s s') (l : String) :
    Renamed f { (s.labelAt l).2 with pc := (s.labelAt l).1 }
      { (s'.labelAt (f.name l)).2 with pc := (s'.labelAt (f.name l)).1 } := by
  obtain ⟨hpc, hnext⟩ := h.labelAt l
  exact ⟨⟨hnext.same.sram, hnext.same.regs, hnext.same.p, hpc⟩, hnext.target⟩

theorem Renamed.plain (h : Renamed f s s') {e : Execute} (he : plainExecute i.op = some e) :
    Alike (Renamed f) ((e.nextPc i s).map fun r => { r.2 with pc := r.1 })
      ((e.nextPc (i.rename f) s').map fun r => { r.2 with pc := r.1 }) := by
  have hfree := (controlFree_plainExecute he).labelFree i s s'.labels
  rw [← h.same.eq_withLabels] at hfree
  unfold Execute.nextPc
  rw [plain_rename f i he, hfree]
  cases ht : e i s with
  | error => rfl
  | ok t =>
    have hlabels := ((controlFree_plainExecute he).keeps ht).2
    refine ⟨⟨rfl, rfl, rfl, rfl⟩, fun l => ?_⟩
    rw [show Processor.target { t with pc := t.pc + 1 } l = s.target l from
      congrArg (fun m : Labels => (m l).getD 0) hlabels]
    exact h.target l

theorem Renamed.jal (h : Renamed f s s') :
    Alike (Renamed f) ((nextPcJAL i s).map fun r => { r.2 with pc := r.1 })
      ((nextPcJAL (i.rename f) s').map fun r => { r.2 with pc := r.1 }) := by
  unfold nextPcJAL
  rw [VPUInstruction.outReg_rename, VPUInstruction.inputAt_rename]
  cases i.outReg 0 with
  | error => rfl
  | ok d =>
    cases i.inputAt 0 with
    | error => rfl
    | ok x =>
      have hlink : Renamed f (s.setReg d (s.pc.setWidth 64)) (s'.setReg d (s'.pc.setWidth 64)) := by
        refine ⟨⟨h.same.sram, ?_, h.same.p, h.same.pc⟩, h.target⟩
        simp only [Processor.setReg, h.same.regs, h.same.pc]
      have hjump := hlink.jump x.label
      rw [← x.rename_label f] at hjump
      exact hjump

theorem Renamed.ret (h : Renamed f s s') :
    Alike (Renamed f) ((nextPcRET i s).map fun r => { r.2 with pc := r.1 })
      ((nextPcRET (i.rename f) s').map fun r => { r.2 with pc := r.1 }) := by
  unfold nextPcRET
  rw [VPUInstruction.inReg_rename]
  cases i.inReg 0 with
  | error => rfl
  | ok x =>
    refine ⟨⟨h.same.sram, h.same.regs, h.same.p, ?_⟩, h.target⟩
    change (s.regs x + 1).setWidth 32 = (s'.regs x + 1).setWidth 32
    rw [h.same.regs]

theorem Renamed.beq (h : Renamed f s s') :
    Alike (Renamed f) ((nextPcBEQ i s).map fun r => { r.2 with pc := r.1 })
      ((nextPcBEQ (i.rename f) s').map fun r => { r.2 with pc := r.1 }) := by
  unfold nextPcBEQ
  rw [VPUInstruction.inReg_rename, VPUInstruction.inReg_rename, VPUInstruction.outputAt_rename]
  cases i.inReg 0 with
  | error => rfl
  | ok x =>
    cases i.inReg 1 with
    | error => rfl
    | ok y =>
      simp only [bind, Except.bind, h.same.regs]
      split_ifs with hxy
      · cases i.outputAt 0 with
        | error => rfl
        | ok z =>
          have hjump := h.jump z.label
          rw [← z.rename_label f] at hjump
          exact hjump
      · exact ⟨⟨h.same.sram, h.same.regs, h.same.p, congrArg (· + 1) h.same.pc⟩, h.target⟩

/-- A step of the program and one of the renamed program. -/
theorem Renamed.step (h : Renamed f s s') :
    Alike (Renamed f) (step prog s) (step (prog.rename f) s') := by
  have hinstr : (prog.rename f).instr[s'.index]? =
      prog.instr[s.index]?.map (VPUInstruction.rename f) := by
    rw [show s'.index = s.index from congrArg BitVec.toNat h.same.pc.symm]
    exact List.getElem?_map
  cases hi : prog.instr[s.index]? with
  | none =>
    rw [hi] at hinstr
    rw [step_of_none hi, step_of_none hinstr]
    rfl
  | some i =>
    rw [hi] at hinstr
    cases hf : exec i.op with
    | none =>
      rw [step_of_no_exec hi hf, step_of_no_exec hinstr hf]
      rfl
    | some g =>
      rw [step_of_exec hi hf, step_of_exec hinstr hf]
      cases hplain : plainExecute i.op with
      | some e =>
        rw [exec_of_plainExecute hplain] at hf
        cases hf
        exact h.plain hplain
      | none =>
        rcases plainExecute_eq_none hplain with hop | hop | hop | hop <;> rw [hop] at hf <;>
          cases hf
        · exact h.jal
        · exact h.ret
        · exact h.beq

theorem Renamed.running (h : Renamed f s s') :
    (machine prog).running s = (machine (prog.rename f)).running s' := by
  change decide (s.pc.toNat < prog.instr.length) =
    decide (s'.pc.toNat < (prog.instr.map (VPUInstruction.rename f)).length)
  rw [h.same.pc, List.length_map]

theorem Renamed.run (h : Renamed f s s') (n : ℕ) :
    Alike (Renamed f) (runProgram prog n s) (runProgram (prog.rename f) n s') :=
  Machine.alike_iter (fun _ _ hu => hu.running) (fun _ _ _ _ _ hu _ => hu.step) h.start n

theorem Renamed.returns (h : Renamed f s s') {t : Processor} (ht : Returns prog s t) :
    ∃ t', Returns (prog.rename f) s' t' ∧ Renamed f t t' :=
  Machine.alike_halts (fun _ _ hu => hu.running) h.run ht

/-- A program and the program with its labels renamed run alike, and return together. -/
theorem rename_run (h : Renamed f s s') :
    (∀ n, Alike (Renamed f) (runProgram prog n s) (runProgram (prog.rename f) n s')) ∧
      ((∃ t, Returns prog s t) ↔ ∃ t', Returns (prog.rename f) s' t') := by
  refine ⟨h.run, ?_, ?_⟩
  · rintro ⟨t, ht⟩
    obtain ⟨t', ht', -⟩ := h.returns ht
    exact ⟨t', ht'⟩
  · rintro ⟨t', n, hn, hrest⟩
    obtain ⟨t, ht, hR⟩ := (h.run n).symm.ok hn
    exact ⟨t, n, ht, hR.running.trans hrest⟩

/-- Every label behind one more text, the same for all. -/
def Renaming.behind (text : String) : Renaming where
  name l := if l = "" then "" else text ++ l
  injective l l' h := by
    simp only at h
    by_cases hl : l = "" <;> by_cases hl' : l' = ""
    · rw [hl, hl']
    · rw [if_pos hl, if_neg hl'] at h
      exact absurd (String.append_eq_empty_iff.mp h.symm).2 hl'
    · rw [if_neg hl, if_pos hl'] at h
      exact absurd (String.append_eq_empty_iff.mp h).2 hl
    · rw [if_neg hl, if_neg hl'] at h
      exact String.append_right_inj _ |>.mp h
  empty := rfl

/-- The kernel with labels of its own. -/
theorem multInverse_renamed :
    (∀ n, Alike (Renamed (.behind "inverse.")) (runProgram MultInverse.program n (.ofCells [37, 5]))
        (runProgram (MultInverse.program.rename (.behind "inverse.")) n (.ofCells [37, 5]))) ∧
      ((∃ t, Returns MultInverse.program (.ofCells [37, 5]) t) ↔
        ∃ t', Returns (MultInverse.program.rename (.behind "inverse.")) (.ofCells [37, 5]) t') :=
  rename_run ⟨⟨rfl, rfl, rfl, rfl⟩, fun _ => rfl⟩

end Run

/-- The instruction without its label. -/
def VPUInstruction.unlabel (i : VPUInstruction) : VPUInstruction := { i with label := "" }

instance (is : List VPUInstruction) (l : String) : Decidable (Defines is l) :=
  inferInstanceAs (Decidable (∃ _ ∈ _, _))

/-- The instructions without the labels that a later one defines again. -/
def unshadow : List VPUInstruction → List VPUInstruction
  | [] => []
  | i :: is => (if Defines is i.label then i.unlabel else i) :: unshadow is

theorem length_unshadow (is : List VPUInstruction) : (unshadow is).length = is.length := by
  induction is with
  | nil => rfl
  | cons i is ih => rw [unshadow, List.length_cons, List.length_cons, ih]

def VPUProgram.unshadow (prog : VPUProgram) : VPUProgram where
  instr := Fabric.unshadow prog.instr
  instrSize_le := by rw [length_unshadow]; exact prog.instrSize_le

section Shadow
variable {prog : VPUProgram} {i : VPUInstruction} {s : Processor}

/-- An index that a later definition replaces might as well not be entered. -/
theorem loadLabels_update {is : List VPUInstruction} {l : String} (h : Defines is l) (j k : ℕ)
    (m : Labels) : loadLabels is j (Function.update m l (some k)) = loadLabels is j m := by
  funext l'
  by_cases hd : Defines is l'
  · exact loadLabels_of_defines hd j _ _
  · have hne : l' ≠ l := fun heq => hd (by rw [heq]; exact h)
    rw [loadLabels_of_not_defines hd, loadLabels_of_not_defines hd, Function.update_of_ne hne]

/-- The table of the instructions is that of the definitions that stay. -/
theorem loadLabels_unshadow (is : List VPUInstruction) (j : ℕ) (m : Labels) :
    loadLabels (unshadow is) j m = loadLabels is j m := by
  induction is generalizing j m with
  | nil => rfl
  | cons i is ih =>
    rw [unshadow, loadLabels, loadLabels, ih]
    by_cases hd : Defines is i.label
    · have hlen : i.label.length > 0 := by
        obtain ⟨i', -, hl, hlen⟩ := hd
        rwa [hl] at hlen
      have hempty : ¬ i.unlabel.label.length > 0 := by
        change ¬ "".length > 0
        decide
      rw [if_pos hd, if_neg hempty, if_pos hlen, loadLabels_update hd]
    · rw [if_neg hd]

theorem map_unlabel_unshadow (is : List VPUInstruction) :
    (unshadow is).map VPUInstruction.unlabel = is.map VPUInstruction.unlabel := by
  induction is with
  | nil => rfl
  | cons i is ih =>
    rw [unshadow, List.map_cons, List.map_cons, ih]
    split_ifs <;> rfl

/-- No executor looks at the label of its instruction. -/
theorem exec_unlabel {op : VPUOp} {f : NextPc} (hf : exec op = some f) (i : VPUInstruction)
    (s : Processor) : f i.unlabel s = f i s := by
  cases op <;> cases hf <;> rfl

theorem step_unlabel (prog : VPUProgram) (s : Processor) : step prog s =
    match (prog.instr.map VPUInstruction.unlabel)[s.pc.toNat]? with
    | none => .error .noInstruction
    | some i =>
      match exec i.op with
      | none => .error .noExecutor
      | some next => (next i s).map fun r => { r.2 with pc := r.1 } := by
  rw [List.getElem?_map]
  cases hi : prog.instr[s.pc.toNat]? with
  | none => exact step_of_none hi
  | some i =>
    change step prog s = match exec i.op with
      | none => .error .noExecutor
      | some next => (next i.unlabel s).map fun r => { r.2 with pc := r.1 }
    cases hf : exec i.op with
    | none => exact step_of_no_exec hi hf
    | some f =>
      rw [step_of_exec hi hf]
      exact congrArg (Except.map _) (exec_unlabel hf i s).symm

/-- Of several definitions of a label only the last one matters, for runs that return, fail or
go on alike. -/
theorem runProgram_unshadow (prog : VPUProgram) (n : ℕ) (s : Processor) :
    runProgram prog.unshadow n s = runProgram prog n s := by
  have hstart : start prog.unshadow s = start prog s := by
    rw [start, start, VPUProgram.unshadow, loadLabels_unshadow]
  have hstep : ∀ u, step prog.unshadow u = step prog u := by
    intro u
    rw [step_unlabel, step_unlabel, VPUProgram.unshadow, map_unlabel_unshadow]
  have hmachine : machine prog.unshadow = machine prog := by
    refine congrArg₂ Machine.mk (funext fun u => ?_) (funext hstep)
    rw [VPUProgram.instrSize, VPUProgram.unshadow, length_unshadow]
    rfl
  rw [runProgram, runProgram, hmachine, hstart]

end Shadow
end Fabric

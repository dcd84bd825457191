import Fabric.Processor

/-! Executors that compute on registers and SRAM alone: they neither read nor write
the program counter and the label table. -/
namespace Fabric

/-- The state with another program counter and another label table. -/
def Processor.withControl (s : Processor) (pc : BitVec 32) (m : Labels) : Processor :=
  { s with pc := pc, labels := m }

/-- The executor does the same whatever the program counter and the labels are. -/
def ControlFree (e : Execute) : Prop :=
  ∀ i s pc m, e i (s.withControl pc m) = (e i s).map fun t => t.withControl pc m

theorem controlFree_ldp : ControlFree execLDP := by
  intro i s pc m
  unfold execLDP
  cases i.inAddr 0 <;> rfl

theorem controlFree_binary (op : Word → Word → Except Fault Word) :
    ControlFree (execBinary op) := by
  intro i s pc m
  unfold execBinary
  cases i.inReg 0 with
  | error => rfl
  | ok x =>
    cases i.inReg 1 with
    | error => rfl
    | ok y =>
      change (op (s.regs x) (s.regs y) >>= _) = (op (s.regs x) (s.regs y) >>= _).map _
      cases op (s.regs x) (s.regs y) with
      | error => rfl
      | ok v => cases i.outReg 0 <;> rfl

theorem controlFree_binaryPrime (op : Word → Word → Word) : ControlFree (execBinaryPrime op) :=
  fun i s pc m => controlFree_binary (fun a b => modulus (op a b) s.p) i s pc m

theorem controlFree_unary (op : Word → Word) : ControlFree (execUnary op) := by
  intro i s pc m
  unfold execUnary
  cases i.inReg 0 with
  | error => rfl
  | ok => cases i.outReg 0 <;> rfl

theorem controlFree_set : ControlFree execSET := by
  intro i s pc m
  unfold execSET
  cases i.inputAt 0 with
  | error => rfl
  | ok => cases i.outReg 0 <;> rfl

theorem controlFree_ld : ControlFree execLD := by
  intro i s pc m
  unfold execLD
  cases i.inAddr 0 with
  | error => rfl
  | ok => cases i.outReg 0 <;> rfl

theorem controlFree_st : ControlFree execST := by
  intro i s pc m
  unfold execST
  cases i.inReg 0 with
  | error => rfl
  | ok => cases i.outAddr 0 <;> rfl

/-- The executors that leave `next_pc` as it is. -/
def plainExecute : VPUOp → Option Execute
  | .ldp => some execLDP
  | .add => some execADD
  | .sub => some execSUB
  | .mul => some execMUL
  | .div => some execDIV
  | .set => some execSET
  | .and => some execAND
  | .or => some execOR
  | .not => some execNOT
  | .xor => some execXOR
  | .ld => some execLD
  | .st => some execST
  | .addp => some execADDP
  | .subp => some execSUBP
  | .mulp => some execMULP
  | .jal | .ret | .beq | .unspecified => none

theorem exec_of_plainExecute {op : VPUOp} {e : Execute} (h : plainExecute op = some e) :
    exec op = some e.nextPc := by
  cases op <;> cases h <;> rfl

/-- Only the jumps override `next_pc`. -/
theorem plainExecute_eq_none {op : VPUOp} (h : plainExecute op = none) :
    op = .unspecified ∨ op = .jal ∨ op = .ret ∨ op = .beq := by
  cases op <;> simp [plainExecute] at h ⊢

theorem controlFree_plainExecute {op : VPUOp} {e : Execute} (h : plainExecute op = some e) :
    ControlFree e := by
  cases op <;> cases h
  case ldp => exact controlFree_ldp
  case add | sub | mul | div | and | or | xor => exact controlFree_binary _
  case set => exact controlFree_set
  case not => exact controlFree_unary _
  case ld => exact controlFree_ld
  case st => exact controlFree_st
  case addp | subp | mulp => exact controlFree_binaryPrime _

/-- The program counter and the labels stay as they are. -/
theorem ControlFree.keeps {e : Execute} (he : ControlFree e) {i : VPUInstruction}
    {s t : Processor} (h : e i s = .ok t) : t.pc = s.pc ∧ t.labels = s.labels := by
  have hs := he i s s.pc s.labels
  rw [show s.withControl s.pc s.labels = s from rfl, h] at hs
  have ht : t = t.withControl s.pc s.labels := Except.ok.inj hs
  rw [ht]
  exact ⟨rfl, rfl⟩

end Fabric

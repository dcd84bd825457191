import Fabric.Processor
import Fabric.Lib.Signed

/-! Decoded instructions. Their operands exist and are in range, so they can only
fault where they divide. `step_eq_apply` ties them to the executors. -/
namespace Fabric

abbrev Reg := Fin NUM_REGS
abbrev Addr := Fin SRAM_SIZE

inductive BinOp
  | add | sub | mul | div | and | or | xor
  deriving DecidableEq, Repr

inductive PrimeOp
  | addp | subp | mulp
  deriving DecidableEq, Repr

/-- Operands in the order of `isa.proto`: the inputs, then the output. -/
inductive Op
  | ldp (a : Addr)
  | bin (f : BinOp) (x y d : Reg)
  | not (x d : Reg)
  | set (v : Word) (d : Reg)
  | ld (a : Addr) (d : Reg)
  | st (x : Reg) (a : Addr)
  | jal (l : String) (d : Reg)
  | ret (x : Reg)
  | beq (x y : Reg) (l : String)
  | prime (f : PrimeOp) (x y d : Reg)
  deriving DecidableEq, Repr

def BinOp.eval : BinOp → Word → Word → Word
  | .add, a, b => a + b
  | .sub, a, b => a - b
  | .mul, a, b => a * b
  | .div, a, b => a.sdiv b
  | .and, a, b => a &&& b
  | .or, a, b => a ||| b
  | .xor, a, b => a ^^^ b

/-- The result before the reduction. -/
def PrimeOp.eval : PrimeOp → Word → Word → Word
  | .addp, a, b => a + b
  | .subp, a, b => a - b
  | .mulp, a, b => a * b

namespace VPUInstruction
variable (i : VPUInstruction)

def decodeBin (f : BinOp) : Except Fault Op := do
  let x ← i.inReg 0
  let y ← i.inReg 1
  let d ← i.outReg 0
  .ok (.bin f x y d)

def decodePrime (f : PrimeOp) : Except Fault Op := do
  let x ← i.inReg 0
  let y ← i.inReg 1
  let d ← i.outReg 0
  .ok (.prime f x y d)

def decode : Except Fault Op :=
  match i.op with
  | .unspecified => .error .noExecutor
  | .ldp => do
    let a ← i.inAddr 0
    .ok (.ldp a)
  | .add => i.decodeBin .add
  | .sub => i.decodeBin .sub
  | .mul => i.decodeBin .mul
  | .div => i.decodeBin .div
  | .and => i.decodeBin .and
  | .or => i.decodeBin .or
  | .xor => i.decodeBin .xor
  | .not => do
    let x ← i.inReg 0
    let d ← i.outReg 0
    .ok (.not x d)
  | .set => do
    let x ← i.inputAt 0
    let d ← i.outReg 0
    .ok (.set x.value d)
  | .ld => do
    let a ← i.inAddr 0
    let d ← i.outReg 0
    .ok (.ld a d)
  | .st => do
    let x ← i.inReg 0
    let a ← i.outAddr 0
    .ok (.st x a)
  | .jal => do
    let d ← i.outReg 0
    let x ← i.inputAt 0
    .ok (.jal x.label d)
  | .ret => do
    let x ← i.inReg 0
    .ok (.ret x)
  | .beq => do
    let x ← i.inReg 0
    let y ← i.inReg 1
    let z ← i.outputAt 0
    .ok (.beq x y z.label)
  | .addp => i.decodePrime .addp
  | .subp => i.decodePrime .subp
  | .mulp => i.decodePrime .mulp

end VPUInstruction

namespace Processor

def next (s : Processor) : Processor := { s with pc := s.pc + 1 }

def jump (s : Processor) (l : String) : Processor :=
  { (s.labelAt l).2 with pc := (s.labelAt l).1 }

end Processor

namespace Op

/-- What the operation divides, if it divides: a word, or a result to be reduced. -/
def dividend : Op → Processor → Option Word
  | .bin .div x _ _, s => some (s.regs x)
  | .prime f x y _, s => some (f.eval (s.regs x) (s.regs y))
  | _, _ => none

/-- The divisor of the operation, if it divides. -/
def divisor : Op → Processor → Option Word
  | .bin .div _ y _, s => some (s.regs y)
  | .prime _ _ _ _, s => some s.p
  | _, _ => none

/-- What the operation fails with, if it does. -/
def fault : Op → Processor → Option Fault
  | .bin .div x y _, s => quotientFault (s.regs x) (s.regs y)
  | .prime f x y _, s => quotientFault (f.eval (s.regs x) (s.regs y)) s.p
  | _, _ => none

def DividesByZero (o : Op) (s : Processor) : Prop := o.divisor s = some 0

instance (o : Op) (s : Processor) : Decidable (o.DividesByZero s) :=
  inferInstanceAs (Decidable (_ = _))

/-- The operation divides the least word by minus one, which has no quotient in 64 bits. -/
def QuotientOverflows (o : Op) (s : Processor) : Prop :=
  o.dividend s = some (BitVec.intMin 64) ∧ o.divisor s = some (-1)

/-- The state after the operation, if it does not fault. -/
def apply : Op → Processor → Processor
  | .ldp a, s => { s with p := s.sram a }.next
  | .bin f x y d, s => (s.setReg d (f.eval (s.regs x) (s.regs y))).next
  | .not x d, s => (s.setReg d (~~~s.regs x)).next
  | .set v d, s => (s.setReg d v).next
  | .ld a d, s => (s.setReg d (s.sram a)).next
  | .st x a, s => (s.setSram a (s.regs x)).next
  | .jal l d, s => (s.setReg d (s.pc.setWidth 64)).jump l
  | .ret x, s => { s with pc := (s.regs x + 1).setWidth 32 }
  | .beq x y l, s => if s.regs x = s.regs y then s.jump l else s.next
  | .prime f x y d, s => (s.setReg d ((f.eval (s.regs x) (s.regs y)).srem s.p)).next

/-- The exact integer an arithmetic operation forms before it reduces or stores it. -/
def exactResult : Op → Processor → Option ℤ
  | .bin .add x y _, s => some ((s.regs x).toInt + (s.regs y).toInt)
  | .bin .sub x y _, s => some ((s.regs x).toInt - (s.regs y).toInt)
  | .bin .mul x y _, s => some ((s.regs x).toInt * (s.regs y).toInt)
  | .bin .div x y _, s => some ((s.regs x).toInt.tdiv (s.regs y).toInt)
  | .prime .addp x y _, s => some ((s.regs x).toInt + (s.regs y).toInt)
  | .prime .subp x y _, s => some ((s.regs x).toInt - (s.regs y).toInt)
  | .prime .mulp x y _, s => some ((s.regs x).toInt * (s.regs y).toInt)
  | .ret x, s => some ((s.regs x).toInt + 1)
  | _, _ => none

/-- No signed overflow: the exact result is a `Word`. -/
def Exact (o : Op) (s : Processor) : Prop := ∀ z ∈ o.exactResult s, Lib.Fits 64 z

/-- Operations that always go on with the next instruction. -/
def plain : Op → Bool
  | .jal _ _ | .ret _ | .beq _ _ _ => false
  | _ => true

variable {o : Op} {s : Processor}

theorem fault_of_divisor (h : o.divisor s = none) : o.fault s = none := by
  cases o
  case bin f x y d =>
    cases f
    case div => cases h
    all_goals rfl
  case prime => cases h
  all_goals rfl

/-- The two ways to fail. -/
theorem fault_eq_some_iff {e : Fault} : o.fault s = some e ↔
    e = .divisionByZero ∧ o.DividesByZero s ∨ e = .quotientOverflow ∧ o.QuotientOverflows s := by
  cases o
  case bin f x y d =>
    cases f
    case div =>
      simp [fault, DividesByZero, QuotientOverflows, dividend, divisor, quotientFault_eq_some_iff]
    all_goals simp [fault, DividesByZero, QuotientOverflows, dividend, divisor]
  case prime f x y d =>
    simp [fault, DividesByZero, QuotientOverflows, dividend, divisor, quotientFault_eq_some_iff]
  all_goals simp [fault, DividesByZero, QuotientOverflows, dividend, divisor]

theorem fault_eq_none_iff :
    o.fault s = none ↔ ¬ o.DividesByZero s ∧ ¬ o.QuotientOverflows s := by
  rw [Option.eq_none_iff_forall_ne_some]
  constructor
  · intro h
    exact ⟨fun hz => h _ (fault_eq_some_iff.mpr (Or.inl ⟨rfl, hz⟩)),
      fun hq => h _ (fault_eq_some_iff.mpr (Or.inr ⟨rfl, hq⟩))⟩
  · rintro ⟨hz, hq⟩ e he
    rcases fault_eq_some_iff.mp he with ⟨-, h⟩ | ⟨-, h⟩
    · exact hz h
    · exact hq h

theorem not_dividesByZero_of_fault (h : o.fault s = none) : ¬ o.DividesByZero s :=
  (fault_eq_none_iff.mp h).1

end Op

section Step
variable {prog : VPUProgram} {s : Processor} {i : VPUInstruction} {o : Op}

/-- An executor with two operands, whose value exists unless the operation fails. -/
private theorem step_binary {e : Execute} {g : Word → Word → Except Fault Word} {x y d : Reg}
    {v : Word} (hi : prog.instr[s.pc.toNat]? = some i) (he : exec i.op = some e.nextPc)
    (hg : e i s = execBinary g i s) (hx : i.inReg 0 = .ok x) (hy : i.inReg 1 = .ok y)
    (hd : i.outReg 0 = .ok d) (hv : g (s.regs x) (s.regs y) = (o.fault s).elim (.ok v) .error)
    (ho : o.apply s = (s.setReg d v).next) :
    step prog s = (o.fault s).elim (.ok (o.apply s)) .error := by
  have hexec : e i s = (o.fault s).elim (.ok (s.setReg d v)) .error := by
    rw [hg, execBinary, hx, hy, hd]
    change (g (s.regs x) (s.regs y) >>= fun v => .ok (s.setReg d v)) = _
    rw [hv]
    cases o.fault s <;> rfl
  simp only [step, hi, he, Execute.nextPc, hexec, ho]
  cases o.fault s <;> rfl

private theorem step_bin {f : BinOp} (hi : prog.instr[s.pc.toNat]? = some i)
    (he : exec i.op = some (Execute.nextPc (execBinary fun a b => .ok (f.eval a b))))
    (hd : i.decodeBin f = .ok o) (hf : f ≠ .div) :
    step prog s = (o.fault s).elim (.ok (o.apply s)) .error := by
  simp only [VPUInstruction.decodeBin, bind_eq_ok] at hd
  obtain ⟨x, hx, y, hy, d, hz, h⟩ := hd
  cases h
  have hnone : (Op.bin f x y d).fault s = none := by
    cases f
    case div => exact absurd rfl hf
    all_goals rfl
  exact step_binary hi he rfl hx hy hz (by rw [hnone]; rfl) rfl

private theorem step_prime {f : PrimeOp} (hi : prog.instr[s.pc.toNat]? = some i)
    (he : exec i.op = some (Execute.nextPc (execBinaryPrime f.eval)))
    (hd : i.decodePrime f = .ok o) :
    step prog s = (o.fault s).elim (.ok (o.apply s)) .error := by
  simp only [VPUInstruction.decodePrime, bind_eq_ok] at hd
  obtain ⟨x, hx, y, hy, d, hz, h⟩ := hd
  cases h
  exact step_binary hi he rfl hx hy hz rfl rfl

/-- What one turn of the fetch loop does with a decoded instruction. -/
theorem step_eq_apply (hi : prog.instr[s.pc.toNat]? = some i) (hd : i.decode = .ok o) :
    step prog s = (o.fault s).elim (.ok (o.apply s)) .error := by
  unfold VPUInstruction.decode at hd
  cases hop : i.op <;> simp only [hop] at hd
  case unspecified => cases hd
  case add | sub | mul | and | or | xor => exact step_bin hi (by rw [hop]; rfl) hd (by decide)
  case addp | subp | mulp => exact step_prime hi (by rw [hop]; rfl) hd
  all_goals
    simp only [VPUInstruction.decodeBin, bind_eq_ok] at hd
  case div =>
    obtain ⟨x, hx, y, hy, d, hz, h⟩ := hd
    cases h
    exact step_binary hi (by rw [hop]; rfl) rfl hx hy hz rfl rfl
  case beq =>
    obtain ⟨x, hx, y, hy, z, hz, h⟩ := hd
    cases h
    simp only [step, hi, hop, exec, nextPcBEQ, hx, hy, hz, Op.fault, Op.apply]
    by_cases hxy : s.regs x = s.regs y
    · simp only [bind, Except.bind, hxy, if_true]; rfl
    · simp only [bind, Except.bind, hxy, if_false]; rfl
  case ldp =>
    obtain ⟨a, ha, h⟩ := hd
    cases h
    simp only [step, hi, hop, exec, Execute.nextPc, execLDP, ha]
    rfl
  case not =>
    obtain ⟨x, hx, d, hz, h⟩ := hd
    cases h
    simp only [step, hi, hop, exec, Execute.nextPc, execNOT, execUnary, hx, hz]
    rfl
  case set =>
    obtain ⟨x, hx, d, hz, h⟩ := hd
    cases h
    simp only [step, hi, hop, exec, Execute.nextPc, execSET, hx, hz]
    rfl
  case ld =>
    obtain ⟨a, ha, d, hz, h⟩ := hd
    cases h
    simp only [step, hi, hop, exec, Execute.nextPc, execLD, ha, hz]
    rfl
  case st =>
    obtain ⟨x, hx, a, ha, h⟩ := hd
    cases h
    simp only [step, hi, hop, exec, Execute.nextPc, execST, hx, ha]
    rfl
  case jal =>
    obtain ⟨d, hz, x, hx, h⟩ := hd
    cases h
    simp only [step, hi, hop, exec, nextPcJAL, hx, hz]
    rfl
  case ret =>
    obtain ⟨x, hx, h⟩ := hd
    cases h
    simp only [step, hi, hop, exec, nextPcRET, hx]
    rfl

theorem step_of_no_fault (hi : prog.instr[s.pc.toNat]? = some i) (hd : i.decode = .ok o)
    (hf : o.fault s = none) : step prog s = .ok (o.apply s) := by
  rw [step_eq_apply hi hd, hf, Option.elim_none]

theorem no_fault_of_step {t : Processor} (hi : prog.instr[s.pc.toNat]? = some i)
    (hd : i.decode = .ok o) (h : step prog s = .ok t) : o.fault s = none ∧ t = o.apply s := by
  rw [step_eq_apply hi hd] at h
  cases hf : o.fault s with
  | none => rw [hf] at h; cases h; exact ⟨rfl, rfl⟩
  | some e => rw [hf] at h; cases h

end Step
end Fabric

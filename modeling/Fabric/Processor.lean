import Mathlib.Logic.Function.Basic
import Fabric.Isa
import Fabric.Lib.Machine

/-! The processor of `processor.cc`: one executor for each opcode, the label
table and the fetch loop of `run_program`. Words wrap around; everything else
that C++ leaves undefined or aborts on is a `Fault`. -/
namespace Fabric

abbrev SRAM_SIZE : ℕ := 65536
abbrev NUM_REGS : ℕ := 32

instance neZero_sramSize : NeZero SRAM_SIZE := ⟨by decide⟩
instance neZero_numRegs : NeZero NUM_REGS := ⟨by decide⟩

/-- `std::unordered_map<std::string, uint32_t>`. -/
abbrev Labels := String → Option (BitVec 32)

structure Processor where
  sram : Fin SRAM_SIZE → Word
  regs : Fin NUM_REGS → Word
  p : Word
  pc : BitVec 32
  labels : Labels

inductive Fault
  | missingOperand
  | noExecutor
  | registerOutOfRange
  | addressOutOfRange
  | divisionByZero
  | quotientOverflow
  | noInstruction
  deriving DecidableEq, Repr

/-- `inputs().at(n)`. -/
def VPUInstruction.inputAt (i : VPUInstruction) (n : ℕ) : Except Fault InstructionInOut :=
  match i.inputs[n]? with
  | some x => .ok x
  | none => .error .missingOperand

/-- `outputs().at(n)`. -/
def VPUInstruction.outputAt (i : VPUInstruction) (n : ℕ) : Except Fault InstructionInOut :=
  match i.outputs[n]? with
  | some x => .ok x
  | none => .error .missingOperand

/-- `x.reg()` as an index of `regs_`. -/
def InstructionInOut.regIndex (x : InstructionInOut) : Except Fault (Fin NUM_REGS) :=
  if h : x.reg.toNat < NUM_REGS then .ok ⟨x.reg.toNat, h⟩ else .error .registerOutOfRange

/-- `x.addr()` as an index of `sram_`. -/
def InstructionInOut.addrIndex (x : InstructionInOut) : Except Fault (Fin SRAM_SIZE) :=
  if h : x.addr.toNat < SRAM_SIZE then .ok ⟨x.addr.toNat, h⟩ else .error .addressOutOfRange

namespace VPUInstruction
variable (i : VPUInstruction) (n : ℕ)

def inReg : Except Fault (Fin NUM_REGS) := i.inputAt n >>= InstructionInOut.regIndex

def outReg : Except Fault (Fin NUM_REGS) := i.outputAt n >>= InstructionInOut.regIndex

def inAddr : Except Fault (Fin SRAM_SIZE) := i.inputAt n >>= InstructionInOut.addrIndex

def outAddr : Except Fault (Fin SRAM_SIZE) := i.outputAt n >>= InstructionInOut.addrIndex

end VPUInstruction

namespace Processor

def setReg (proc : Processor) (r : Fin NUM_REGS) (v : Word) : Processor :=
  { proc with regs := Function.update proc.regs r v }

def setSram (proc : Processor) (a : Fin SRAM_SIZE) (v : Word) : Processor :=
  { proc with sram := Function.update proc.sram a v }

/-- `labels_[l]`, which stores index zero under a label it does not hold. -/
def labelAt (proc : Processor) (l : String) : BitVec 32 × Processor :=
  match proc.labels l with
  | some j => (j, proc)
  | none => (0, { proc with labels := Function.update proc.labels l (some 0) })

end Processor

/-- `Executor::execute`. -/
abbrev Execute := VPUInstruction → Processor → Except Fault Processor

/-- `Executor::next_pc`: the next program counter and the state it leaves. -/
abbrev NextPc := VPUInstruction → Processor → Except Fault (BitVec 32 × Processor)

/-- `Executor::next_pc` where it is not overridden. -/
def Execute.nextPc (execute : Execute) : NextPc := fun i proc => do
  let proc ← execute i proc
  .ok (proc.pc + 1, proc)

def execLDP : Execute := fun i proc => do
  let a ← i.inAddr 0
  .ok { proc with p := proc.sram a }

/-- `Exec_Binary<Op>`. -/
def execBinary (op : Word → Word → Except Fault Word) : Execute := fun i proc => do
  let x ← i.inReg 0
  let y ← i.inReg 1
  let v ← op (proc.regs x) (proc.regs y)
  let d ← i.outReg 0
  .ok (proc.setReg d v)

/-- What keeps `/` and `%` from having a value: no divisor, or a quotient that is no `Word`. -/
def quotientFault (a b : Word) : Option Fault :=
  if b = 0 then some .divisionByZero
  else if a = BitVec.intMin 64 ∧ b = -1 then some .quotientOverflow
  else none

/-- `std::divides<Word>`, truncating toward zero. -/
def divides (a b : Word) : Except Fault Word :=
  (quotientFault a b).elim (.ok (a.sdiv b)) .error

/-- `%`, whose sign is that of the dividend. -/
def modulus (a b : Word) : Except Fault Word :=
  (quotientFault a b).elim (.ok (a.srem b)) .error

/-- A divisor that every dividend has a quotient and a remainder by. -/
def SafeDivisor (b : Word) : Prop := b ≠ 0 ∧ b ≠ -1

instance (b : Word) : Decidable (SafeDivisor b) := inferInstanceAs (Decidable (_ ∧ _))

/-- The two ways to have no value. -/
theorem quotientFault_eq_some_iff {a b : Word} {e : Fault} :
    quotientFault a b = some e ↔ e = .divisionByZero ∧ b = 0 ∨
      e = .quotientOverflow ∧ a = BitVec.intMin 64 ∧ b = -1 := by
  rw [quotientFault]
  split_ifs with h0 h1
  · subst h0
    simp [eq_comm]
  · obtain ⟨rfl, rfl⟩ := h1
    simp [eq_comm]
  · refine iff_of_false (by simp) ?_
    rintro (⟨-, hb⟩ | ⟨-, hab⟩)
    · exact h0 hb
    · exact h1 hab

theorem quotientFault_of_safe {a b : Word} (h : SafeDivisor b) : quotientFault a b = none := by
  rw [quotientFault, if_neg h.1, if_neg fun hq => h.2 hq.2]

def execADD : Execute := execBinary fun a b => .ok (a + b)
def execSUB : Execute := execBinary fun a b => .ok (a - b)
def execMUL : Execute := execBinary fun a b => .ok (a * b)
def execDIV : Execute := execBinary divides
def execAND : Execute := execBinary fun a b => .ok (a &&& b)
def execOR : Execute := execBinary fun a b => .ok (a ||| b)
def execXOR : Execute := execBinary fun a b => .ok (a ^^^ b)

/-- `Exec_Unary<Op>`. -/
def execUnary (op : Word → Word) : Execute := fun i proc => do
  let x ← i.inReg 0
  let d ← i.outReg 0
  .ok (proc.setReg d (op (proc.regs x)))

def execNOT : Execute := execUnary fun a => ~~~a

def execSET : Execute := fun i proc => do
  let x ← i.inputAt 0
  let d ← i.outReg 0
  .ok (proc.setReg d x.value)

def execLD : Execute := fun i proc => do
  let a ← i.inAddr 0
  let d ← i.outReg 0
  .ok (proc.setReg d (proc.sram a))

def execST : Execute := fun i proc => do
  let x ← i.inReg 0
  let a ← i.outAddr 0
  .ok (proc.setSram a (proc.regs x))

/-- `Exec_JAL`: the link register receives the index of the jump itself. -/
def nextPcJAL : NextPc := fun i proc => do
  let d ← i.outReg 0
  let proc := proc.setReg d (proc.pc.setWidth 64)
  let x ← i.inputAt 0
  .ok (proc.labelAt x.label)

/-- `Exec_RET`: the word after the link, narrowed to `uint32_t`. -/
def nextPcRET : NextPc := fun i proc => do
  let x ← i.inReg 0
  .ok ((proc.regs x + 1).setWidth 32, proc)

def nextPcBEQ : NextPc := fun i proc => do
  let x ← i.inReg 0
  let y ← i.inReg 1
  if proc.regs x = proc.regs y then
    let z ← i.outputAt 0
    .ok (proc.labelAt z.label)
  else
    .ok (proc.pc + 1, proc)

/-- `Exec_BinaryPrime<Op>`: the 64-bit result is reduced modulo `p_`. -/
def execBinaryPrime (op : Word → Word → Word) : Execute := fun i proc =>
  execBinary (fun a b => modulus (op a b) proc.p) i proc

def execADDP : Execute := execBinaryPrime fun a b => a + b
def execSUBP : Execute := execBinaryPrime fun a b => a - b
def execMULP : Execute := execBinaryPrime fun a b => a * b

/-- `Processor::exec_`. -/
def exec : VPUOp → Option NextPc
  | .unspecified => none
  | .ldp => some execLDP.nextPc
  | .add => some execADD.nextPc
  | .sub => some execSUB.nextPc
  | .mul => some execMUL.nextPc
  | .div => some execDIV.nextPc
  | .set => some execSET.nextPc
  | .and => some execAND.nextPc
  | .or => some execOR.nextPc
  | .not => some execNOT.nextPc
  | .xor => some execXOR.nextPc
  | .ld => some execLD.nextPc
  | .st => some execST.nextPc
  | .jal => some nextPcJAL
  | .ret => some nextPcRET
  | .beq => some nextPcBEQ
  | .addp => some execADDP.nextPc
  | .subp => some execSUBP.nextPc
  | .mulp => some execMULP.nextPc

/-- The loop of `run_program` that enters the labels of the instructions from
index `j` on. The last definition of a label is the one that stays. -/
def loadLabels : List VPUInstruction → ℕ → Labels → Labels
  | [], _, m => m
  | i :: is, j, m =>
    loadLabels is (j + 1) (if i.label.length > 0 then Function.update m i.label (some j) else m)

/-- The state in which the fetch loop of `run_program` starts. -/
def start (prog : VPUProgram) (proc : Processor) : Processor :=
  { proc with labels := loadLabels prog.instr 0 proc.labels, pc := 0 }

/-- The index of the instruction a state is about to execute. -/
def Processor.index (proc : Processor) : ℕ := proc.pc.toNat

/-- A processor with the given words at the start of its SRAM and zeros elsewhere. -/
def Processor.ofCells (cells : List Word) : Processor where
  sram a := cells.getD a 0
  regs _ := 0
  p := 0
  pc := 0
  labels _ := none

/-- The body of the fetch loop. -/
def step (prog : VPUProgram) (proc : Processor) : Except Fault Processor :=
  match prog.instr[proc.pc.toNat]? with
  | none => .error .noInstruction
  | some i =>
    match exec i.op with
    | none => .error .noExecutor
    | some next => do
      let (pc, proc) ← next i proc
      .ok { proc with pc := pc }

theorem bind_eq_ok {α β : Type} {x : Except Fault α} {f : α → Except Fault β} {r : β} :
    x >>= f = .ok r ↔ ∃ a, x = .ok a ∧ f a = .ok r := by
  cases x with
  | error e =>
    constructor
    · intro h; cases h
    · rintro ⟨_, h, _⟩; cases h
  | ok a =>
    constructor
    · intro h; exact ⟨a, rfl, h⟩
    · rintro ⟨_, h, h'⟩; cases h; exact h'

section Step
variable {prog : VPUProgram} {proc : Processor} {i : VPUInstruction}

theorem step_of_none (hi : prog.instr[proc.index]? = none) :
    step prog proc = .error .noInstruction := by
  unfold Processor.index at hi
  simp only [step, hi]

theorem step_of_no_exec (hi : prog.instr[proc.index]? = some i) (he : exec i.op = none) :
    step prog proc = .error .noExecutor := by
  unfold Processor.index at hi
  simp only [step, hi, he]

theorem step_of_exec {next : NextPc} (hi : prog.instr[proc.index]? = some i)
    (he : exec i.op = some next) :
    step prog proc = (next i proc).map fun r => { r.2 with pc := r.1 } := by
  unfold Processor.index at hi
  simp only [step, hi, he]
  cases next i proc <;> rfl

end Step

/-- The fetch loop, running while `pc_ < prog.instr_size()`. -/
def machine (prog : VPUProgram) : Lib.Machine Processor Fault where
  running proc := decide (proc.pc.toNat < prog.instrSize)
  step := step prog

/-- `run_program`, cut off after `fuel` instructions. -/
def runProgram (prog : VPUProgram) (fuel : ℕ) (proc : Processor) : Except Fault Processor :=
  (machine prog).iter fuel (start prog proc)

/-- `run_program` returns and leaves the state `proc'`. -/
def Returns (prog : VPUProgram) (proc proc' : Processor) : Prop :=
  (machine prog).Halts (start prog proc) proc'

/-- `run_program` executes the instructions at the indices `tr` and leaves `t`. -/
def Executes (prog : VPUProgram) (proc : Processor) (tr : List ℕ) (t : Processor) : Prop :=
  (machine prog).Seg Processor.index (fun _ => True) (start prog proc) tr t ∧
    (machine prog).running t = false

theorem Executes.returns {prog : VPUProgram} {proc t : Processor} {tr : List ℕ}
    (h : Executes prog proc tr t) : Returns prog proc t := h.1.halts h.2

theorem Executes.det {prog : VPUProgram} {proc t t' : Processor} {tr tr' : List ℕ}
    (h : Executes prog proc tr t) (h' : Executes prog proc tr' t') : tr = tr' ∧ t = t' :=
  h.1.det h.2 h'.1 h'.2

theorem returns_iff {prog : VPUProgram} {proc proc' : Processor} :
    Returns prog proc proc' ↔
      ∃ fuel, runProgram prog fuel proc = .ok proc' ∧ prog.instrSize ≤ proc'.pc.toNat := by
  simp [Returns, Lib.Machine.Halts, runProgram, machine]

theorem Returns.det {prog : VPUProgram} {proc t t' : Processor} (h : Returns prog proc t)
    (h' : Returns prog proc t') : t = t' := Lib.Machine.Halts.det h h'

@[simp] theorem machine_running {prog : VPUProgram} {proc : Processor} :
    (machine prog).running proc = true ↔ proc.index < prog.instrSize := by
  simp [machine, Processor.index]

theorem machine_halted {prog : VPUProgram} {proc : Processor} :
    (machine prog).running proc = false ↔ prog.instrSize ≤ proc.index := by
  simp [machine, Processor.index]

namespace Processor
variable (proc : Processor)

theorem labelAt_of_some {l : String} {j : BitVec 32} (h : proc.labels l = some j) :
    proc.labelAt l = (j, proc) := by
  simp [labelAt, h]

end Processor
end Fabric

import Mathlib.Data.ZMod.Basic

/-! Instructions and programs of the accelerator, as `isa.proto` declares them. -/
namespace Fabric

/-- `int64_t`, read as a signed 64-bit word. -/
abbrev Word := BitVec 64

inductive VPUOp
  | unspecified
  | ldp
  | add | sub | mul | div | set | and | or | not | xor
  | ld | st
  | jal | ret | beq
  | addp | subp | mulp
  deriving DecidableEq, Repr

/-- One operand. `notSet` is an operand whose `intype` was never chosen. -/
inductive InstructionInOut
  | notSet
  | kAddr (addr : BitVec 64)
  | kReg (reg : BitVec 32)
  | kValue (value : Word)
  | kLabel (label : String)
  deriving DecidableEq, Repr

namespace InstructionInOut

/-- The field `addr`; an operand of another case reads as zero. -/
def addr : InstructionInOut → BitVec 64
  | kAddr a => a
  | _ => 0

def reg : InstructionInOut → BitVec 32
  | kReg r => r
  | _ => 0

def value : InstructionInOut → Word
  | kValue v => v
  | _ => 0

def label : InstructionInOut → String
  | kLabel l => l
  | _ => ""

end InstructionInOut

/-- The empty label stands for an instruction without a label. -/
structure VPUInstruction where
  op : VPUOp
  inputs : List InstructionInOut
  outputs : List InstructionInOut := []
  label : String := ""
  deriving DecidableEq, Repr

/-- `instr_size()` is an `int`. -/
def INT_MAX : ℕ := 2 ^ 31 - 1

/-- A program never holds more instructions than `instr_size()` can count. -/
structure VPUProgram where
  instr : List VPUInstruction
  instrSize_le : instr.length ≤ INT_MAX

namespace VPUProgram

def empty : VPUProgram := ⟨[], Nat.zero_le _⟩

/-- Repeated `add_instr`, which fails on a program that is full. -/
def addInstrs (prog : VPUProgram) (is : List VPUInstruction) : Option VPUProgram :=
  if h : (prog.instr ++ is).length ≤ INT_MAX then some ⟨prog.instr ++ is, h⟩ else none

def instrSize (prog : VPUProgram) : ℕ := prog.instr.length

theorem instrSize_lt (prog : VPUProgram) : prog.instrSize < 2 ^ 31 := by
  have h := prog.instrSize_le
  unfold INT_MAX at h
  unfold instrSize
  omega

theorem addInstrs_instr {prog prog' : VPUProgram} {is : List VPUInstruction}
    (h : prog.addInstrs is = some prog') : prog'.instr = prog.instr ++ is := by
  unfold addInstrs at h
  split at h
  · cases h; rfl
  · cases h

end VPUProgram
end Fabric

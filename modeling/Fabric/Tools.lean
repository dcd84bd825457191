import Fabric.Lib.Text
import Fabric.Isa

/-! The disassembly listing of `tools.cc` and what can be read back from it. -/
namespace Fabric
open Lib.Text

structure DisassemblyError where
  msg : String
  deriving DecidableEq, Repr

/-- `VPUOp_Name`. -/
def VPUOp.name : VPUOp → String
  | unspecified => "VPU_OP_UNSPECIFIED"
  | ldp => "VPU_OP_LDP"
  | add => "VPU_OP_ADD"
  | sub => "VPU_OP_SUB"
  | mul => "VPU_OP_MUL"
  | div => "VPU_OP_DIV"
  | set => "VPU_OP_SET"
  | and => "VPU_OP_AND"
  | or => "VPU_OP_OR"
  | not => "VPU_OP_NOT"
  | xor => "VPU_OP_XOR"
  | ld => "VPU_OP_LD"
  | st => "VPU_OP_ST"
  | jal => "VPU_OP_JAL"
  | ret => "VPU_OP_RET"
  | beq => "VPU_OP_BEQ"
  | addp => "VPU_OP_ADDP"
  | subp => "VPU_OP_SUBP"
  | mulp => "VPU_OP_MULP"

/-- `std::string::substr` from `pos` on. -/
def substr (s : String) (pos : ℕ) : String := String.ofList (s.toList.drop pos)

/-- `std::hex` on an unsigned number: lower case, no leading zeros. -/
def hex (n : ℕ) : String := String.ofList (Nat.toDigits 16 n)

section Printer
variable (debugString : InstructionInOut → String)

def inoutToStr (inout : InstructionInOut) : Except DisassemblyError String :=
  match inout with
  | .kAddr addr => .ok ("0x" ++ hex addr.toNat)
  | .kReg reg => .ok ("$R" ++ reg.toNat.repr)
  | .kValue value => .ok ("%" ++ value.toInt.repr)
  | .kLabel label => .ok ("[" ++ label ++ "]")
  | .notSet => .error ⟨"Unknown inout type: " ++ debugString inout⟩

/-- `ret += " " + inout_to_str(inout)`. -/
def appendInout (ret : String) (inout : InstructionInOut) : Except DisassemblyError String := do
  let str ← inoutToStr debugString inout
  return ret ++ (" " ++ str)

def instrToStr (instr : VPUInstruction) : Except DisassemblyError String := do
  let ret := substr instr.op.name 7
  let ret ← instr.inputs.foldlM (appendInout debugString) ret
  instr.outputs.foldlM (appendInout debugString) ret

/-- `ret += instr_to_str(instr) + "\n"`. -/
def appendInstr (ret : String) (instr : VPUInstruction) : Except DisassemblyError String := do
  let str ← instrToStr debugString instr
  return ret ++ (str ++ "\n")

def programToStr (prog : VPUProgram) : Except DisassemblyError String :=
  prog.instr.foldlM (appendInstr debugString) ""

end Printer

/-- What is left of the name of an opcode without `VPU_OP_`. -/
def VPUOp.mnemonic (op : VPUOp) : List Char := op.name.toList.drop 7

/-- The opcode with a given mnemonic. -/
def VPUOp.ofMnemonic (m : List Char) : Option VPUOp :=
  [unspecified, ldp, add, sub, mul, div, set, and, or, not, xor, ld, st, jal, ret, beq, addp,
    subp, mulp].find? (·.mnemonic == m)

theorem VPUOp.ofMnemonic_mnemonic (op : VPUOp) : ofMnemonic op.mnemonic = some op := by
  cases op <;> decide

theorem VPUOp.mnemonic_inj {op op' : VPUOp} (h : op.mnemonic = op'.mnemonic) : op = op' := by
  have hread := ofMnemonic_mnemonic op
  rw [h, ofMnemonic_mnemonic] at hread
  exact (Option.some.inj hread).symm

/-- No mnemonic contains either of the characters that end tokens and lines. -/
theorem VPUOp.notMem_mnemonic (op : VPUOp) : ' ' ∉ op.mnemonic ∧ '\n' ∉ op.mnemonic := by
  cases op <;> decide

/-- The characters that no number and no mark of an operand contains. -/
def Separator (c : Char) : Prop := (∀ d < 16, Nat.digitChar d ≠ c) ∧ c ∉ "x$R%-[]".toList

theorem separator_space : Separator ' ' := ⟨by decide, by decide⟩

theorem separator_newline : Separator '\n' := ⟨by decide, by decide⟩

namespace InstructionInOut

def IsSet (inout : InstructionInOut) : Prop := inout ≠ .notSet

/-- The spelling of an operand that is set. -/
def token : InstructionInOut → List Char
  | .kAddr addr => '0' :: 'x' :: Nat.toDigits 16 addr.toNat
  | .kReg reg => '$' :: 'R' :: Nat.toDigits 10 reg.toNat
  | .kValue value => '%' :: value.toInt.repr.toList
  | .kLabel label => '[' :: (label.toList ++ [']'])
  | .notSet => []

theorem inoutToStr_eq {debugString : InstructionInOut → String} {x : InstructionInOut}
    (h : x.IsSet) : inoutToStr debugString x = .ok (String.ofList x.token) := by
  cases x with
  | notSet => exact absurd rfl h
  | kAddr addr => simp [inoutToStr, token, hex, ← String.toList_inj]
  | kReg reg => simp [inoutToStr, token, ← String.toList_inj]
  | kValue value => simp [inoutToStr, token]
  | kLabel label => simp [inoutToStr, token, ← String.toList_inj]

/-- Every spelling starts with the mark of its kind. -/
theorem token_inj {x y : InstructionInOut} (hx : x.IsSet) (hy : y.IsSet)
    (h : x.token = y.token) : x = y := by
  cases x with
  | notSet => exact absurd rfl hx
  | kAddr a =>
    cases y with
    | kAddr b =>
      simp only [token, List.cons.injEq, true_and] at h
      rw [BitVec.eq_of_toNat_eq (toDigits_inj (by decide) (by decide) h)]
    | notSet => exact absurd rfl hy
    | _ => simp [token] at h
  | kReg r =>
    cases y with
    | kReg r' =>
      simp only [token, List.cons.injEq, true_and] at h
      rw [BitVec.eq_of_toNat_eq (toDigits_inj (by decide) (by decide) h)]
    | notSet => exact absurd rfl hy
    | _ => simp [token] at h
  | kValue v =>
    cases y with
    | kValue w =>
      simp only [token, List.cons.injEq, true_and] at h
      rw [BitVec.eq_of_toInt_eq (repr_inj h)]
    | notSet => exact absurd rfl hy
    | _ => simp [token] at h
  | kLabel l =>
    cases y with
    | kLabel l' =>
      simp only [token, List.cons.injEq, true_and] at h
      rw [String.toList_inj.mp (List.append_left_injective _ h)]
    | notSet => exact absurd rfl hy
    | _ => simp [token] at h

theorem notMem_token {c : Char} {x : InstructionInOut} (hc : Separator c)
    (hl : c ∉ x.label.toList) : c ∉ x.token := by
  obtain ⟨hdigit, hmark⟩ := hc
  have hzero : '0' ≠ c := hdigit 0 (by decide)
  have hten : ∀ n, c ∉ Nat.toDigits 10 n :=
    fun n => notMem_toDigits (by decide) (by decide) hdigit
  have hsixteen : ∀ n, c ∉ Nat.toDigits 16 n :=
    fun n => notMem_toDigits (by decide) (by decide) hdigit
  have hmarks : c ≠ 'x' ∧ c ≠ '$' ∧ c ≠ 'R' ∧ c ≠ '%' ∧ c ≠ '-' ∧ c ≠ '[' ∧ c ≠ ']' := by
    simpa using hmark
  cases x with
  | notSet => simp [token]
  | kAddr a => simp [token, hzero.symm, hmarks, hsixteen]
  | kReg r => simp [token, hmarks, hten]
  | kValue v => simp [token, hmarks, notMem_repr hdigit hmarks.2.2.2.2.1]
  | kLabel l => simpa [token, hmarks, label] using hl

/-- Operands a listing can show without ambiguity. -/
structure Plain (x : InstructionInOut) : Prop where
  isSet : x.IsSet
  space : ' ' ∉ x.label.toList
  newline : '\n' ∉ x.label.toList

end InstructionInOut

namespace VPUInstruction

def operands (instr : VPUInstruction) : List InstructionInOut := instr.inputs ++ instr.outputs

/-- The tokens of a line, the mnemonic first. -/
def tokens (instr : VPUInstruction) : List (List Char) :=
  instr.op.mnemonic :: instr.operands.map InstructionInOut.token

/-- The line of an instruction, without its end. -/
def line (instr : VPUInstruction) : List Char :=
  instr.op.mnemonic ++ separate ' ' (instr.operands.map InstructionInOut.token)

theorem separate_tokens (instr : VPUInstruction) :
    separate ' ' instr.tokens = ' ' :: instr.line := by
  rw [tokens, separate_cons, line]

/-- The numbers of inputs and of outputs are those of the opcode. -/
def HasArity (nIn nOut : VPUOp → ℕ) (instr : VPUInstruction) : Prop :=
  instr.inputs.length = nIn instr.op ∧ instr.outputs.length = nOut instr.op

/-- Equality of all that is executed: everything but the label. -/
structure EqButLabel (i i' : VPUInstruction) : Prop where
  op : i.op = i'.op
  inputs : i.inputs = i'.inputs
  outputs : i.outputs = i'.outputs

theorem notMem_line {c : Char} {i : VPUInstruction} (hc : Separator c) (hne : c ≠ ' ')
    (hm : c ∉ i.op.mnemonic) (hl : ∀ x ∈ i.operands, c ∉ x.label.toList) : c ∉ i.line := by
  simp only [line, separate, List.flatMap_map, List.mem_append, List.mem_flatMap, List.mem_cons,
    not_or, not_exists, not_and]
  exact ⟨hm, fun x hx => ⟨hne, InstructionInOut.notMem_token hc (hl x hx)⟩⟩

variable {i i' : VPUInstruction}

theorem notMem_tokens (h : ∀ x ∈ i.operands, x.Plain) : ∀ t ∈ i.tokens, ' ' ∉ t := by
  intro t ht
  rcases List.mem_cons.mp ht with rfl | ht
  · exact i.op.notMem_mnemonic.1
  · obtain ⟨x, hx, rfl⟩ := List.mem_map.mp ht
    exact InstructionInOut.notMem_token separator_space (h x hx).space

/-- A line determines its instruction but for the label. -/
theorem line_inj {nIn nOut : VPUOp → ℕ} (hn : i.HasArity nIn nOut) (hn' : i'.HasArity nIn nOut)
    (hp : ∀ x ∈ i.operands, x.Plain) (hp' : ∀ x ∈ i'.operands, x.Plain)
    (h : i.line = i'.line) : EqButLabel i i' := by
  have htokens : i.tokens = i'.tokens := by
    refine separate_inj (notMem_tokens hp) (notMem_tokens hp') ?_
    rw [separate_tokens, separate_tokens, h]
  obtain ⟨hmnemonic, hrest⟩ := List.cons.inj htokens
  have hop : i.op = i'.op := VPUOp.mnemonic_inj hmnemonic
  have hoperands : i.operands = i'.operands := by
    rw [← List.forall₂_eq_eq_eq]
    exact forall₂_of_map_eq
      (fun x hx y hy => InstructionInOut.token_inj (hp x hx).isSet (hp' y hy).isSet) hrest
  -- nothing in the line marks where the outputs start: the arity does
  have hlen : i.inputs.length = i'.inputs.length := by rw [hn.1, hn'.1, hop]
  obtain ⟨hin, hout⟩ := List.append_inj hoperands hlen
  exact ⟨hop, hin, hout⟩

end VPUInstruction

section Printed
variable {debugString : InstructionInOut → String}

theorem appendInout_eq {x : InstructionInOut} (h : x.IsSet) (ret : String) :
    appendInout debugString ret x = .ok (ret ++ String.ofList (' ' :: x.token)) := by
  rw [appendInout, InstructionInOut.inoutToStr_eq h]
  simp [Bind.bind, Except.bind, pure, Except.pure]

theorem foldlM_appendInout {xs : List InstructionInOut} (h : ∀ x ∈ xs, x.IsSet) (ret : String) :
    xs.foldlM (appendInout debugString) ret =
      .ok (ret ++ String.ofList (separate ' ' (xs.map InstructionInOut.token))) := by
  rw [foldlM_append fun x hx => appendInout_eq (h x hx), separate, List.flatMap_map]

theorem instrToStr_eq {instr : VPUInstruction} (h : ∀ x ∈ instr.operands, x.IsSet) :
    instrToStr debugString instr = .ok (String.ofList instr.line) := by
  have hin : ∀ x ∈ instr.inputs, x.IsSet := fun x hx => h x (List.mem_append_left _ hx)
  have hout : ∀ x ∈ instr.outputs, x.IsSet := fun x hx => h x (List.mem_append_right _ hx)
  rw [instrToStr, foldlM_appendInout hin]
  refine (foldlM_appendInout hout _).trans ?_
  simp [substr, VPUInstruction.line, VPUInstruction.operands, VPUOp.mnemonic, separate,
    ← String.toList_inj]

theorem appendInstr_eq {instr : VPUInstruction} (h : ∀ x ∈ instr.operands, x.IsSet)
    (ret : String) :
    appendInstr debugString ret instr = .ok (ret ++ String.ofList (instr.line ++ ['\n'])) := by
  rw [appendInstr, instrToStr_eq h]
  simp [Bind.bind, Except.bind, pure, Except.pure]

/-- A program whose operands are all set is listed, one line for each instruction. -/
theorem programToStr_eq {prog : VPUProgram} (h : ∀ i ∈ prog.instr, ∀ x ∈ i.operands, x.IsSet) :
    programToStr debugString prog =
      .ok (String.ofList (terminate '\n' (prog.instr.map VPUInstruction.line))) := by
  rw [programToStr, foldlM_append fun i hi => appendInstr_eq (h i hi), terminate,
    List.flatMap_map]
  simp

/-- A program whose listing can be read back, for given operand counts of the opcodes. -/
structure Listable (nIn nOut : VPUOp → ℕ) (prog : VPUProgram) : Prop where
  arity : ∀ i ∈ prog.instr, i.HasArity nIn nOut
  plain : ∀ i ∈ prog.instr, ∀ x ∈ i.operands, x.Plain

theorem Listable.programToStr_eq {nIn nOut : VPUOp → ℕ} {prog : VPUProgram}
    (h : Listable nIn nOut prog) : programToStr debugString prog =
      .ok (String.ofList (terminate '\n' (prog.instr.map VPUInstruction.line))) :=
  Fabric.programToStr_eq (fun i hi x hx => (h.plain i hi x hx).isSet)

theorem Listable.notMem_line {nIn nOut : VPUOp → ℕ} {prog : VPUProgram}
    (h : Listable nIn nOut prog) : ∀ l ∈ prog.instr.map VPUInstruction.line, '\n' ∉ l := by
  intro l hl
  obtain ⟨i, hi, rfl⟩ := List.mem_map.mp hl
  exact VPUInstruction.notMem_line separator_newline (by decide)
    i.op.notMem_mnemonic.2 (fun x hx => (h.plain i hi x hx).newline)

/-- Programs with one listing have the same instructions, but for their labels. -/
theorem listing_determines {nIn nOut : VPUOp → ℕ} {prog prog' : VPUProgram} {str : String}
    (h : Listable nIn nOut prog) (h' : Listable nIn nOut prog')
    (hstr : programToStr debugString prog = .ok str)
    (hstr' : programToStr debugString prog' = .ok str) :
    List.Forall₂ VPUInstruction.EqButLabel prog.instr prog'.instr := by
  rw [h.programToStr_eq] at hstr
  rw [h'.programToStr_eq] at hstr'
  have htext := String.ofList_injective (Except.ok.inj (hstr.trans hstr'.symm))
  have hlines := terminate_inj h.notMem_line h'.notMem_line htext
  exact forall₂_of_map_eq
    (fun i hi i' hi' => VPUInstruction.line_inj (h.arity i hi) (h'.arity i' hi')
      (h.plain i hi) (h'.plain i' hi')) hlines

/-- What `inout_to_str` throws. -/
def unknownInout (debugString : InstructionInOut → String) : DisassemblyError :=
  ⟨"Unknown inout type: " ++ debugString .notSet⟩

theorem appendInout_error {xs : List InstructionInOut} (h : ∃ x ∈ xs, ¬ x.IsSet) (ret : String) :
    xs.foldlM (appendInout debugString) ret = .error (unknownInout debugString) := by
  refine foldlM_error (g := fun x => ' ' :: x.token)
    (fun x _ hx ret => appendInout_eq (not_not.mp hx) ret) (fun x _ hx ret => ?_) h ret
  rw [not_not.mp hx]
  rfl

theorem instrToStr_error {instr : VPUInstruction} (h : ∃ x ∈ instr.operands, ¬ x.IsSet) :
    instrToStr debugString instr = .error (unknownInout debugString) := by
  by_cases hin : ∃ x ∈ instr.inputs, ¬ x.IsSet
  · rw [instrToStr, appendInout_error hin]
    rfl
  · simp only [not_exists, not_and, not_not] at hin
    obtain ⟨x, hx, hunset⟩ := h
    have hout : x ∈ instr.outputs := by
      rcases List.mem_append.mp hx with hx | hx
      · exact absurd (hin x hx) hunset
      · exact hx
    rw [instrToStr, foldlM_appendInout hin]
    exact appendInout_error ⟨x, hout, hunset⟩ _

/-- The listing of a program, one line for each instruction, or the one error if some
operand of it was never chosen. -/
theorem programToStr_total (prog : VPUProgram) :
    ((∀ i ∈ prog.instr, ∀ x ∈ i.operands, x.IsSet) ∧ programToStr debugString prog =
        .ok (String.ofList (terminate '\n' (prog.instr.map VPUInstruction.line)))) ∨
      (∃ i ∈ prog.instr, ∃ x ∈ i.operands, ¬ x.IsSet) ∧
        programToStr debugString prog = .error (unknownInout debugString) := by
  by_cases h : ∀ i ∈ prog.instr, ∀ x ∈ i.operands, x.IsSet
  · exact Or.inl ⟨h, programToStr_eq h⟩
  · have hbad : ∃ i ∈ prog.instr, ∃ x ∈ i.operands, ¬ x.IsSet := by
      simpa only [not_forall, exists_prop] using h
    refine Or.inr ⟨hbad, foldlM_error (g := fun i => i.line ++ ['\n']) (fun i _ hi ret => ?_)
      (fun i _ hi ret => ?_) hbad ""⟩
    · simp only [not_exists, not_and, not_not] at hi
      exact appendInstr_eq hi ret
    · rw [appendInstr, instrToStr_error hi]
      rfl

end Printed

/-- A constant set and stored, under any two labels. -/
def setStore (l l' : String) : VPUProgram :=
  ⟨[⟨.set, [.kValue (-3)], [.kReg 1], l⟩, ⟨.st, [.kReg 1], [.kAddr 171], l'⟩], by simp [INT_MAX]⟩

theorem setStore_listable (l l' : String) :
    Listable (fun _ => 1) (fun _ => 1) (setStore l l') where
  arity := by simp [setStore, VPUInstruction.HasArity]
  plain := by
    have hplain : ∀ x : InstructionInOut, x.IsSet ∧ x.label = "" → x.Plain :=
      fun x hx => ⟨hx.1, by simp [hx.2], by simp [hx.2]⟩
    intro i hi x hx
    refine hplain x ?_
    revert i x
    simp [setStore, VPUInstruction.operands, InstructionInOut.IsSet, InstructionInOut.label]

theorem listing_determines_setStore :
    programToStr (fun _ => "") (setStore "start" "") = .ok "SET %-3 $R1\nST $R1 0xab\n" ∧
      List.Forall₂ VPUInstruction.EqButLabel (setStore "start" "").instr
        (setStore "" "done").instr :=
  ⟨by decide, listing_determines (setStore_listable "start" "") (setStore_listable "" "done")
    (show programToStr (fun _ => "") _ = .ok "SET %-3 $R1\nST $R1 0xab\n" by decide)
    (by decide)⟩

end Fabric

import Fabric.Lib.Bitwise
import Fabric.Overflow
import Fabric.Progress

/-! The instruction set over the integers, without a word size. A run of the code
computes what this machine computes exactly as long as nothing overflows. -/
namespace Fabric
open Lib
open Lib.Machine (Alike)

/-- A state whose words are integers and whose labels are those a run starts with. -/
structure IntState where
  sram : Addr → ℤ
  regs : Reg → ℤ
  p : ℤ
  pc : BitVec 32
  target : String → BitVec 32

def BinOp.evalInt : BinOp → ℤ → ℤ → ℤ
  | .add, a, b => a + b
  | .sub, a, b => a - b
  | .mul, a, b => a * b
  | .div, a, b => a.tdiv b
  | .and, a, b => Int.land a b
  | .or, a, b => Int.lor a b
  | .xor, a, b => Int.xor a b

/-- The integer before the reduction. -/
def PrimeOp.evalInt : PrimeOp → ℤ → ℤ → ℤ
  | .addp, a, b => a + b
  | .subp, a, b => a - b
  | .mulp, a, b => a * b

namespace IntState

def setReg (r : IntState) (d : Reg) (v : ℤ) : IntState :=
  { r with regs := Function.update r.regs d v }

def next (r : IntState) : IntState := { r with pc := r.pc + 1 }

def jump (r : IntState) (l : String) : IntState := { r with pc := r.target l }

/-- The words of a processor as integers. -/
def ofProcessor (s : Processor) : IntState where
  sram a := (s.sram a).toInt
  regs x := (s.regs x).toInt
  p := s.p.toInt
  pc := s.pc
  target := s.target

end IntState

namespace Op

def applyInt : Op → IntState → IntState
  | .ldp a, r => { r with p := r.sram a }.next
  | .bin f x y d, r => (r.setReg d (f.evalInt (r.regs x) (r.regs y))).next
  | .not x d, r => (r.setReg d (Int.lnot (r.regs x))).next
  | .set v d, r => (r.setReg d v.toInt).next
  | .ld a d, r => (r.setReg d (r.sram a)).next
  | .st x a, r => { r with sram := Function.update r.sram a (r.regs x) }.next
  | .jal l d, r => (r.setReg d r.pc.toNat).jump l
  | .ret x, r => { r with pc := BitVec.ofInt 32 (r.regs x + 1) }
  | .beq x y l, r => if r.regs x = r.regs y then r.jump l else r.next
  | .prime f x y d, r => (r.setReg d ((f.evalInt (r.regs x) (r.regs y)).tmod r.p)).next

def divisorInt : Op → IntState → Option ℤ
  | .bin .div _ y _, r => some (r.regs y)
  | .prime _ _ _ _, r => some r.p
  | _, _ => none

/-- The integer an arithmetic operation forms. -/
def resultInt : Op → IntState → Option ℤ
  | .bin .add x y _, r => some (r.regs x + r.regs y)
  | .bin .sub x y _, r => some (r.regs x - r.regs y)
  | .bin .mul x y _, r => some (r.regs x * r.regs y)
  | .bin .div x y _, r => some ((r.regs x).tdiv (r.regs y))
  | .prime f x y _, r => some (f.evalInt (r.regs x) (r.regs y))
  | .ret x, r => some (r.regs x + 1)
  | _, _ => none

/-- The quotient that goes with a reduction. It has to fit although only the remainder is
stored. -/
def quotientInt : Op → IntState → Option ℤ
  | .prime f x y _, r => some ((f.evalInt (r.regs x) (r.regs y)).tdiv r.p)
  | _, _ => none

/-- The integers that the operation forms are words. -/
def ExactInt (o : Op) (r : IntState) : Prop :=
  (∀ z ∈ o.resultInt r, Fits 64 z) ∧ ∀ q ∈ o.quotientInt r, Fits 64 q

end Op

namespace IntState

def step (prog : VPUProgram) (r : IntState) : Except Fault IntState :=
  match prog.instr[r.pc.toNat]? with
  | none => .error .noInstruction
  | some i => do
    let o ← i.decode
    if o.divisorInt r = some 0 then .error .divisionByZero else .ok (o.applyInt r)

def machine (prog : VPUProgram) : Lib.Machine IntState Fault where
  running r := decide (r.pc.toNat < prog.instrSize)
  step := IntState.step prog

/-- The first `n` steps of the integer machine. -/
def run (prog : VPUProgram) (n : ℕ) (s : Processor) : Except Fault IntState :=
  (machine prog).iter n (ofProcessor (start prog s))

end IntState

/-- No step of the integer machine forms an integer that is not a `Word`. -/
def IntExactRun (prog : VPUProgram) (s : Processor) : Prop :=
  ∀ n r, IntState.run prog n s = .ok r → r.pc.toNat < prog.instrSize →
    ∀ o, OpAt prog r.pc.toNat o → o.ExactInt r

/-- The words of `s` are the integers of `r`. -/
def Abstracts (s : Processor) (r : IntState) : Prop := IntState.ofProcessor s = r

section Eval
variable {s : Processor}

theorem BinOp.toInt_eval {f : BinOp} {x y d : Reg} (h : (Op.bin f x y d).Exact s) :
    (f.eval (s.regs x) (s.regs y)).toInt = f.evalInt (s.regs x).toInt (s.regs y).toInt := by
  cases f
  case add => exact toInt_add_of_fits (h _ rfl)
  case sub => exact toInt_sub_of_fits (h _ rfl)
  case mul => exact toInt_mul_of_fits (h _ rfl)
  case div => exact toInt_sdiv_of_fits (by decide) (h _ rfl)
  case and => exact toInt_and_eq _ _
  case or => exact toInt_or_eq _ _
  case xor => exact toInt_xor_eq _ _

theorem PrimeOp.toInt_eval {f : PrimeOp} {x y d : Reg} (h : (Op.prime f x y d).Exact s) :
    (f.eval (s.regs x) (s.regs y)).toInt = f.evalInt (s.regs x).toInt (s.regs y).toInt := by
  cases f
  case addp => exact toInt_add_of_fits (h _ rfl)
  case subp => exact toInt_sub_of_fits (h _ rfl)
  case mulp => exact toInt_mul_of_fits (h _ rfl)

/-- Both machines form the same integer. -/
theorem resultInt_ofProcessor (o : Op) (s : Processor) :
    o.resultInt (.ofProcessor s) = o.exactResult s := by
  cases o
  case bin f x y d => cases f <;> rfl
  case prime f x y d => cases f <;> rfl
  all_goals rfl

/-- An operation forms words only if it is exact and its quotient does not overflow. -/
theorem exactInt_iff {o : Op} :
    o.ExactInt (.ofProcessor s) ↔ o.Exact s ∧ ¬ o.QuotientOverflows s := by
  rw [Op.ExactInt, resultInt_ofProcessor]
  refine and_congr_right fun he => ?_
  cases o
  case bin f x y d =>
    refine iff_of_true (fun q hq => by cases hq) ?_
    rintro ⟨hx, hy⟩
    cases f
    case div =>
      exact (fits_tdiv_iff (by decide)).mp (he _ rfl) ⟨Option.some.inj hx, Option.some.inj hy⟩
    all_goals cases hx
  case prime f x y d =>
    have hq : (Op.prime f x y d).QuotientOverflows s ↔
        f.eval (s.regs x) (s.regs y) = BitVec.intMin 64 ∧ s.p = -1 := by
      simp [Op.QuotientOverflows, Op.dividend, Op.divisor]
    have hv : (f.evalInt (s.regs x).toInt (s.regs y).toInt).tdiv s.p.toInt =
        (f.eval (s.regs x) (s.regs y)).toInt.tdiv s.p.toInt := by
      rw [PrimeOp.toInt_eval he]
    rw [hq]
    refine Iff.trans ?_ (fits_tdiv_iff (by decide))
    rw [← hv]
    simp [Op.quotientInt, IntState.ofProcessor]
  all_goals exact iff_of_true (fun q hq => by cases hq) (fun h => by cases h.1)

theorem divisorInt_ofProcessor (o : Op) (s : Processor) :
    o.divisorInt (.ofProcessor s) = some 0 ↔ o.DividesByZero s := by
  have hzero : ∀ v : Word, some v.toInt = some 0 ↔ some v = some 0 := by
    intro v
    rw [Option.some.injEq, Option.some.injEq, ← BitVec.toInt_inj]
    rfl
  unfold Op.DividesByZero
  cases o
  case bin f x y d =>
    cases f
    case div => exact hzero _
    all_goals exact iff_of_false (by simp [Op.divisorInt]) (by simp [Op.divisor])
  case prime f x y d => exact hzero _
  all_goals exact iff_of_false (by simp [Op.divisorInt]) (by simp [Op.divisor])

theorem ofProcessor_setReg (s : Processor) (d : Reg) (v : Word) :
    IntState.ofProcessor (s.setReg d v) = (IntState.ofProcessor s).setReg d v.toInt := by
  simp only [IntState.ofProcessor, IntState.setReg, Processor.setReg, IntState.mk.injEq]
  refine ⟨trivial, ?_, trivial, trivial, rfl⟩
  exact Function.comp_update BitVec.toInt s.regs d v

theorem ofProcessor_jump (s : Processor) (l : String) :
    IntState.ofProcessor (s.jump l) = (IntState.ofProcessor s).jump l := by
  obtain ⟨hsram, hregs, hp, -⟩ := s.labelAt_same l
  simp only [IntState.ofProcessor, IntState.jump, Processor.jump, IntState.mk.injEq]
  exact ⟨by rw [hsram], by rw [hregs], by rw [hp], s.labelAt_fst l, s.labelAt_target l⟩

/-- The link of a call, as an integer. -/
theorem toInt_link (pc : BitVec 32) : (pc.setWidth 64).toInt = pc.toNat := by
  have hlt := pc.isLt
  rw [BitVec.toInt_eq_toNat_of_lt, BitVec.toNat_setWidth, Nat.mod_eq_of_lt (by omega)]
  rw [BitVec.toNat_setWidth, Nat.mod_eq_of_lt (by omega)]
  omega

/-- The target of a return, as an integer. -/
theorem return_eq_ofInt (v : Word) : (v + 1).setWidth 32 = BitVec.ofInt 32 (v.toInt + 1) := by
  apply BitVec.eq_of_toNat_eq
  have h := toNat_return v
  rw [BitVec.toNat_ofInt]
  omega

/-- An operation that does not overflow does on words what it does on integers. -/
theorem ofProcessor_apply {o : Op} (h : o.Exact s) :
    IntState.ofProcessor (o.apply s) = o.applyInt (.ofProcessor s) := by
  cases o with
  | ldp a => rfl
  | bin f x y d =>
    change (IntState.ofProcessor (s.setReg d _)).next = _
    rw [ofProcessor_setReg, BinOp.toInt_eval h]
    rfl
  | not x d =>
    change (IntState.ofProcessor (s.setReg d _)).next = _
    rw [ofProcessor_setReg, toInt_not_eq _ (by decide)]
    rfl
  | set v d =>
    change (IntState.ofProcessor (s.setReg d _)).next = _
    rw [ofProcessor_setReg]
    rfl
  | ld a d =>
    change (IntState.ofProcessor (s.setReg d _)).next = _
    rw [ofProcessor_setReg]
    rfl
  | st x a =>
    simp only [Op.apply, Op.applyInt, IntState.ofProcessor, IntState.next, Processor.next,
      Processor.setSram, IntState.mk.injEq]
    exact ⟨Function.comp_update BitVec.toInt s.sram a (s.regs x), trivial, trivial, trivial, rfl⟩
  | jal l d =>
    change IntState.ofProcessor ((s.setReg d _).jump l) = _
    rw [ofProcessor_jump, ofProcessor_setReg, toInt_link]
    rfl
  | ret x =>
    simp only [Op.apply, Op.applyInt, IntState.ofProcessor, IntState.mk.injEq]
    exact ⟨trivial, trivial, trivial, return_eq_ofInt _, rfl⟩
  | beq x y l =>
    have hxy : (IntState.ofProcessor s).regs x = (IntState.ofProcessor s).regs y ↔
        s.regs x = s.regs y := BitVec.toInt_inj
    rw [Op.apply, Op.applyInt]
    by_cases h : s.regs x = s.regs y
    · rw [if_pos h, if_pos (hxy.mpr h), ofProcessor_jump]
    · rw [if_neg h, if_neg fun h' => h (hxy.mp h')]
      rfl
  | prime f x y d =>
    change (IntState.ofProcessor (s.setReg d _)).next = _
    rw [ofProcessor_setReg, BitVec.toInt_srem, PrimeOp.toInt_eval h]
    rfl

end Eval

section Run
variable {prog : VPUProgram} {s u : Processor} {r : IntState}

theorem IntState.step_of_opAt {o : Op} (h : OpAt prog r.pc.toNat o) : IntState.step prog r =
    if o.divisorInt r = some 0 then .error .divisionByZero else .ok (o.applyInt r) := by
  obtain ⟨i, hi, hd⟩ := h
  simp only [IntState.step, hi, hd]
  rfl

/-- A step that does not overflow is a step of the integer machine. -/
theorem step_abstracts (hd : Decodes prog) (hu : u.index < prog.instrSize) (he : Exact prog u)
    (hq : ¬ AtQuotientOverflow prog u) :
    Alike Abstracts (Fabric.step prog u) (IntState.step prog (.ofProcessor u)) := by
  obtain ⟨o, ho⟩ := hd.opAt hu
  rw [ho.step_eq, IntState.step_of_opAt (r := .ofProcessor u) ho]
  by_cases hz : o.DividesByZero u
  · rw [if_pos ((divisorInt_ofProcessor o u).mpr hz),
      Op.fault_eq_some_iff.mpr (Or.inl ⟨rfl, hz⟩)]
    rfl
  · rw [if_neg fun h => hz ((divisorInt_ofProcessor o u).mp h),
      Op.fault_eq_none_iff.mpr ⟨hz, fun h => hq ⟨o, ho, h⟩⟩]
    exact ofProcessor_apply (he o ho)

theorem running_abstracts (h : Abstracts u r) :
    (machine prog).running u = (IntState.machine prog).running r := by
  rw [← h]
  rfl

/-- Both runs agree as long as the run of the code does not overflow. -/
theorem run_abstracts (hd : Decodes prog) (h : ExactRun prog s)
    (hq : ∀ n, runProgram prog n s ≠ .error .quotientOverflow) (n : ℕ) :
    Alike Abstracts (runProgram prog n s) (IntState.run prog n s) := by
  refine Lib.Machine.alike_iter (fun _ _ => running_abstracts) ?_ rfl n
  rintro k u _ hk - rfl hr
  have hu := machine_running.mp hr
  refine step_abstracts hd hu (h k u hk hu) fun hover => ?_
  exact hq (k + 1) ((runProgram_error_iff hd).mpr
    ⟨k, k.lt_succ_self, u, hk, hu, Or.inr ⟨rfl, hover⟩⟩)

/-- Both runs agree as long as the run of the integer machine forms words only. -/
theorem run_abstracts_of_intExact (hd : Decodes prog) (h : IntExactRun prog s) (n : ℕ) :
    Alike Abstracts (runProgram prog n s) (IntState.run prog n s) := by
  refine Lib.Machine.alike_iter (fun _ _ => running_abstracts) ?_ rfl n
  rintro k u _ - hk rfl hr
  have hu := machine_running.mp hr
  refine step_abstracts hd hu (fun o ho => (exactInt_iff.mp (h k _ hk hu o ho)).1) ?_
  rintro ⟨o, ho, hover⟩
  exact (exactInt_iff.mp (h k _ hk hu o ho)).2 hover

/-- Overflow may be looked for in either run. -/
theorem exactRun_iff_int (hd : Decodes prog) : IntExactRun prog s ↔
    ExactRun prog s ∧ ∀ n, runProgram prog n s ≠ .error .quotientOverflow := by
  constructor
  · intro h
    have hexact : ∀ n u, runProgram prog n s = .ok u → u.index < prog.instrSize →
        ∀ o, OpAt prog u.index o → o.Exact u ∧ ¬ o.QuotientOverflows u := by
      intro n u hu hlt o ho
      obtain ⟨r, hr, rfl⟩ := (run_abstracts_of_intExact hd h n).ok hu
      exact exactInt_iff.mp (h n _ hr hlt o ho)
    refine ⟨fun n u hu hlt o ho => (hexact n u hu hlt o ho).1, fun n hn => ?_⟩
    obtain ⟨k, -, u, hu, hlt, ⟨he, -⟩ | ⟨-, o, ho, hover⟩⟩ := (runProgram_error_iff hd).mp hn
    · cases he
    · exact (hexact k u hu hlt o ho).2 hover
  · rintro ⟨h, hq⟩ n r hr hlt o ho
    obtain ⟨u, hu, rfl⟩ := (run_abstracts hd h hq n).symm.ok hr
    refine exactInt_iff.mpr ⟨h n u hu hlt o ho, fun hover => ?_⟩
    exact hq (n + 1) ((runProgram_error_iff hd).mpr
      ⟨n, n.lt_succ_self, u, hu, hlt, Or.inr ⟨rfl, o, ho, hover⟩⟩)

/-- Without overflow the code goes through the states of the integer machine, fails where
it fails, and returns exactly what it leaves. -/
theorem overflow_free_run (hd : Decodes prog) (h : IntExactRun prog s) :
    ExactRun prog s ∧
      (∀ n, Alike Abstracts (runProgram prog n s) (IntState.run prog n s)) ∧
      ∀ r, (IntState.machine prog).Halts (.ofProcessor (start prog s)) r ↔
        ∃ t, Returns prog s t ∧ IntState.ofProcessor t = r := by
  have hrun := run_abstracts_of_intExact hd h
  refine ⟨((exactRun_iff_int hd).mp h).1, hrun, fun r => ⟨fun hr => ?_, ?_⟩⟩
  · exact Lib.Machine.alike_halts (R := fun r s => Abstracts s r)
      (fun _ _ h => (running_abstracts h).symm) (fun n => (hrun n).symm) hr
  · rintro ⟨t, ht, rfl⟩
    obtain ⟨r, hr, rfl⟩ := Lib.Machine.alike_halts (fun _ _ => running_abstracts) hrun ht
    exact hr

/-- The inverse of five modulo 37, over the integers. -/
theorem overflow_free_inverse :
    ExactRun MultInverse.program (.ofCells [37, 5]) ∧
      (∀ n, Alike Abstracts (runProgram MultInverse.program n (.ofCells [37, 5]))
        (IntState.run MultInverse.program n (.ofCells [37, 5]))) ∧
      ∀ r, (IntState.machine MultInverse.program).Halts
          (.ofProcessor (start MultInverse.program (.ofCells [37, 5]))) r ↔
        ∃ t, Returns MultInverse.program (.ofCells [37, 5]) t ∧ IntState.ofProcessor t = r := by
  have hd : Decodes MultInverse.program := decodes_of_ops MultInverse.decode_code
  have he : ExactRun MultInverse.program (.ofCells [37, 5]) :=
    (MultInverse.exactRun_iff (P := 37) (by norm_num) (by norm_num)).mpr (by norm_num) _ rfl
      (by decide)
  obtain ⟨t, ⟨hrun, hrest⟩, -⟩ := MultInverse.executes (.ofCells [37, 5]) (by decide)
  exact overflow_free_run hd ((exactRun_iff_int hd).mpr
    ⟨he, fun _ => (hrun.halts hrest).iter_ne_error⟩)

end Run
end Fabric

import Fabric.Overflow

/-! Straight-line programs over the prime field instructions, as maps of residues. -/
namespace Fabric
open Lib

/-- Registers and SRAM with values in `R`. -/
@[ext] structure Values (R : Type*) where
  regs : Reg → R
  sram : Addr → R

namespace Values
variable {R : Type*}

def setReg (f : Values R) (d : Reg) (v : R) : Values R :=
  { f with regs := Function.update f.regs d v }

def setSram (f : Values R) (a : Addr) (v : R) : Values R :=
  { f with sram := Function.update f.sram a v }

end Values

section Evaluation
variable {R : Type*} [Ring R]

def PrimeOp.evalIn : PrimeOp → R → R → R
  | .addp, a, b => a + b
  | .subp, a, b => a - b
  | .mulp, a, b => a * b

/-- The meaning of a field operation in a ring. The others have none. -/
def Op.evalIn : Op → Values R → Values R
  | .set v d, f => f.setReg d (v.toInt : R)
  | .ld a d, f => f.setReg d (f.sram a)
  | .st x a, f => f.setSram a (f.regs x)
  | .prime g x y d, f => f.setReg d (g.evalIn (f.regs x) (f.regs y))
  | _, f => f

/-- A straight-line program, evaluated in a ring. -/
def evalIn (ops : List Op) (f : Values R) : Values R := ops.foldl (fun f o => o.evalIn f) f

end Evaluation

/-- The residues of the registers and of the SRAM. -/
def Processor.residues (P : ℕ) (s : Processor) : Values (ZMod P) where
  regs r := res P (s.regs r)
  sram a := res P (s.sram a)

/-- The program evaluated in `ℤ/P` from the residues of a state. -/
def fieldValues (P : ℕ) (s : Processor) (ops : List Op) : Values (ZMod P) :=
  evalIn ops (s.residues P)

/-- Every register and every cell lies in `(-p, p)`. -/
structure Processor.AllReduced (s : Processor) : Prop where
  regs : ∀ r, Reduced s.p.toInt (s.regs r).toInt
  sram : ∀ a, Reduced s.p.toInt (s.sram a).toInt

namespace Op

/-- The operations of field programs. -/
def isField : Op → Bool
  | .set _ _ | .ld _ _ | .st _ _ | .prime _ _ _ _ => true
  | _ => false

variable {o : Op} {s : Processor} {P : ℕ}

theorem plain_of_isField (h : o.isField = true) : o.plain = true := by
  cases o
  case set | ld | st | prime => rfl
  all_goals cases h

theorem apply_p_of_isField (h : o.isField = true) : (o.apply s).p = s.p := by
  cases o
  case set | ld | st | prime => rfl
  all_goals cases h

theorem fault_of_isField (h : o.isField = true) (hp : SafeDivisor s.p) : o.fault s = none := by
  cases o
  case set | ld | st => rfl
  case prime => exact quotientFault_of_safe hp
  all_goals cases h

theorem residues_setReg (s : Processor) (d : Reg) (v : Word) :
    (s.setReg d v).residues P = (s.residues P).setReg d (res P v) :=
  Values.ext (Function.comp_update (res P) s.regs d v) rfl

theorem residues_setSram (s : Processor) (a : Addr) (v : Word) :
    (s.setSram a v).residues P = (s.residues P).setSram a (res P v) :=
  Values.ext rfl (Function.comp_update (res P) s.sram a v)

theorem res_prime {g : PrimeOp} {x y d : Reg} (hP : s.p.toInt = P)
    (he : (Op.prime g x y d).Exact s) :
    res P ((g.eval (s.regs x) (s.regs y)).srem s.p) =
      g.evalIn (res P (s.regs x)) (res P (s.regs y)) := by
  cases g with
  | addp => exact res_addp hP (exact_addp s x y d |>.mp he)
  | subp => exact res_subp hP (exact_subp s x y d |>.mp he)
  | mulp => exact res_mulp hP (exact_mulp s x y d |>.mp he)

/-- An exact field operation commutes with taking residues. -/
theorem residues_apply (h : o.isField = true) (hP : s.p.toInt = P) (he : o.Exact s) :
    (o.apply s).residues P = o.evalIn (s.residues P) := by
  cases o
  case set v d => exact residues_setReg s d v
  case ld a d => exact residues_setReg s d (s.sram a)
  case st x a => exact residues_setSram s a (s.regs x)
  case prime g x y d =>
    refine (residues_setReg s d _).trans ?_
    rw [res_prime hP he]
    rfl
  all_goals cases h

/-- The constants of the operation lie in `(-p, p)`. -/
def ConstReduced (p : Word) (o : Op) : Prop := ∀ v d, o = .set v d → Reduced p.toInt v.toInt

theorem exact_of_reduced (h : o.isField = true) (hp : SmallModulus s.p) (hs : s.AllReduced) :
    o.Exact s := by
  cases o
  case set | ld | st => exact Op.exact_of_none rfl
  case prime g x y d =>
    have hx := hs.regs x
    have hy := hs.regs y
    cases g with
    | addp =>
      exact (exact_addp s x y d).mpr (hp.fits_add (within_of_reduced hx) (within_of_reduced hy))
    | subp =>
      exact (exact_subp s x y d).mpr (hp.fits_sub (within_of_reduced hx) (within_of_reduced hy))
    | mulp => exact (exact_mulp s x y d).mpr (hp.fits_mul hx hy)
  all_goals cases h

theorem setReg_reduced {d : Reg} {v : Word} (hs : s.AllReduced)
    (hv : Reduced s.p.toInt v.toInt) : (s.setReg d v).AllReduced where
  regs := (Function.forall_update_iff s.regs fun _ w => Reduced s.p.toInt w.toInt).mpr
    ⟨hv, fun r _ => hs.regs r⟩
  sram := hs.sram

theorem setSram_reduced {a : Addr} {v : Word} (hs : s.AllReduced)
    (hv : Reduced s.p.toInt v.toInt) : (s.setSram a v).AllReduced where
  regs := hs.regs
  sram := (Function.forall_update_iff s.sram fun _ w => Reduced s.p.toInt w.toInt).mpr
    ⟨hv, fun b _ => hs.sram b⟩

theorem next_reduced (hs : s.AllReduced) : s.next.AllReduced := ⟨hs.regs, hs.sram⟩

/-- No field operation leaves the interval, whatever the signs of its operands. -/
theorem apply_reduced (h : o.isField = true) (hc : o.ConstReduced s.p) (hp : 0 < s.p.toInt)
    (hs : s.AllReduced) : (o.apply s).AllReduced := by
  cases o
  case set v d => exact next_reduced (setReg_reduced hs (hc v d rfl))
  case ld a d => exact next_reduced (setReg_reduced hs (hs.sram a))
  case st x a => exact next_reduced (setSram_reduced hs (hs.regs x))
  case prime g x y d =>
    refine next_reduced (setReg_reduced hs ?_)
    rw [BitVec.toInt_srem]
    exact tmod_reduced hp _
  all_goals cases h

end Op

section Reduced
variable {P : ℕ} {prog : VPUProgram} {ops : List Op} {s : Processor}

theorem evalIn_cons {R : Type*} [Ring R] (o : Op) (ops : List Op) (f : Values R) :
    evalIn (o :: ops) f = evalIn ops (o.evalIn f) := rfl

theorem evalIn_concat {R : Type*} [Ring R] (ops : List Op) (o : Op) (f : Values R) :
    evalIn (ops ++ [o]) f = o.evalIn (evalIn ops f) := by
  rw [evalIn, List.foldl_append]
  rfl

/-- Straight-line code from a reduced state is exact and commutes with residues. -/
theorem safe_of_reduced (ho : ∀ o ∈ ops, o.isField = true ∧ o.ConstReduced s.p)
    (hp : SmallModulus s.p) (hP : s.p.toInt = P) (hs : s.AllReduced) :
    Safe True ops s ∧ (runOps ops s).residues P = evalIn ops (s.residues P) := by
  induction ops generalizing s with
  | nil => exact ⟨trivial, rfl⟩
  | cons o ops ih =>
    obtain ⟨hf, hc⟩ := ho o List.mem_cons_self
    have he := Op.exact_of_reduced hf hp hs
    have hap := Op.apply_p_of_isField (s := s) hf
    have hz := Op.fault_of_isField hf hp.safeDivisor
    obtain ⟨hsafe, hres⟩ := ih (s := o.apply s)
      (fun o' ho' => by rw [hap]; exact ho o' (List.mem_cons_of_mem o ho')) (by rwa [hap])
      (by rwa [hap]) (Op.apply_reduced hf hc hp.pos hs)
    refine ⟨⟨hz, fun _ => he, hsafe⟩, ?_⟩
    rw [runOps_cons, evalIn_cons, hres, Op.residues_apply hf hP he]

/-- At every point of the run all words are reduced. -/
theorem allReduced_of_run (hd : prog.instr.map VPUInstruction.decode = ops.map .ok)
    (ho : ∀ o ∈ ops, o.isField = true ∧ o.ConstReduced s.p) (hp : 0 < s.p.toInt)
    (hs : s.AllReduced) {n : ℕ} {u : Processor} (hn : runProgram prog n s = .ok u) :
    u.AllReduced ∧ u.p = s.p := by
  refine Machine.iter_invariant (I := fun u => u.AllReduced ∧ u.p = s.p) ?_ ⟨⟨hs.regs, hs.sram⟩,
    rfl⟩ hn
  rintro u v ⟨hu, hup⟩ - hstep
  obtain ⟨-, o, -, -, hmem, -, rfl⟩ := exists_op_of_step hd hstep
  obtain ⟨hf, hc⟩ := ho o hmem
  exact ⟨Op.apply_reduced hf (by rwa [hup]) (by rwa [hup]) hu,
    (Op.apply_p_of_isField hf).trans hup⟩

/-- A field program keeps its words in `(-p, p)`, never overflows, and computes in
`ℤ/p` what its instructions say. -/
theorem field_program_evaluates (hp : SmallModulus s.p) (hP : s.p.toInt = P)
    (hd : prog.instr.map VPUInstruction.decode = ops.map .ok)
    (ho : ∀ o ∈ ops, o.isField = true ∧ o.ConstReduced s.p) (hs : s.AllReduced) :
    (∀ n u, runProgram prog n s = .ok u → u.AllReduced ∧ u.p = s.p) ∧ ExactRun prog s ∧
      ∃ t, Executes prog s (List.range prog.instrSize) t ∧
        t.residues P = fieldValues P s ops := by
  have hsize : prog.instrSize = ops.length := by
    have hlen := congrArg List.length hd
    rwa [List.length_map, List.length_map] at hlen
  have hcode : CodeAt prog 0 ops := codeAt_of_decode [] [] (List.append_nil _).symm hd
  obtain ⟨hsafe, hres⟩ := safe_of_reduced (s := start prog s) ho hp hP ⟨hs.regs, hs.sram⟩
  obtain ⟨hr, hti⟩ := run_block hcode rfl (fun o h => Op.plain_of_isField (ho o h).1) hsafe
  have hhalt : (machine prog).running (runOps ops (start prog s)) = false :=
    machine_halted.mpr (by omega)
  refine ⟨fun n u hn => allReduced_of_run hd ho hp.pos hs hn, exactRun_of_run hr hhalt,
    runOps ops (start prog s), ⟨?_, hhalt⟩, hres⟩
  rw [hsize, List.range_eq_range']
  exact hr.weaken fun _ _ => trivial

end Reduced

/-- A fresh processor with the modulus five. -/
def moduloFive : Processor := { Processor.ofCells [] with p := 5 }

/-- A negative constant, stored, reloaded and squared. -/
def squareProgram : VPUProgram :=
  ⟨[ { op := .set, inputs := [.kValue (-3)], outputs := [.kReg 1] },
     { op := .st, inputs := [.kReg 1], outputs := [.kAddr 7] },
     { op := .ld, inputs := [.kAddr 7], outputs := [.kReg 2] },
     { op := .mulp, inputs := [.kReg 1, .kReg 2], outputs := [.kReg 3] } ], by decide⟩

def squareOps : List Op := [.set (-3) 1, .st 1 7, .ld 7 2, .prime .mulp 1 2 3]

theorem field_program_evaluates_square :
    (∀ n u, runProgram squareProgram n moduloFive = .ok u → u.AllReduced ∧ u.p = 5) ∧
      ExactRun squareProgram moduloFive ∧
      ∃ t, Executes squareProgram moduloFive (List.range 4) t ∧
        t.residues 5 = fieldValues 5 moduloFive squareOps := by
  have hzero : Reduced 5 ((0 : Word)).toInt := by decide
  have hops : ∀ o ∈ squareOps, o.isField = true ∧ o.ConstReduced 5 := by
    intro o ho
    simp only [squareOps, List.mem_cons, List.not_mem_nil, or_false] at ho
    rcases ho with rfl | rfl | rfl | rfl
    · refine ⟨rfl, fun v d h => ?_⟩
      cases h
      decide
    all_goals exact ⟨rfl, fun v d h => by cases h⟩
  exact field_program_evaluates (s := moduloFive) (by decide) rfl rfl hops
    ⟨fun _ => hzero, fun _ => hzero⟩

end Fabric

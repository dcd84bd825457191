import Fabric.Kernel.Power
import Mathlib.Tactic.Ring

/-! The sum that `padd.h` computes, as a function of the words it loads, and the
field elements it stands for. -/
namespace Fabric
open Lib

/-- The SRAM cells that the kernel loads. -/
structure Inputs where
  p : Word
  a : Word
  z : Word
  x1 : Word
  y1 : Word
  x2 : Word
  y2 : Word

/-- The difference of two coordinates, made canonical by adding the modulus. -/
def diffp (p a b : Word) : Word := addp p (subp p a b) p

/-- The line of slope `m` through `(x1, y1)` and its third intersection, negated. -/
structure Line where
  p : Word
  m : Word
  x1 : Word
  y1 : Word
  x2 : Word

namespace Line
variable (l : Line)

/-- R14: the ordinate at zero. Its sign is that of a truncated remainder. -/
def intercept : Word := subp l.p (addp l.p l.y1 l.p) (mulp l.p l.m l.x1)

def x3 : Word :=
  addp l.p (mulp l.p l.m l.m) (addp l.p (subp l.p l.p l.x1) (subp l.p l.p l.x2))

def y3 : Word :=
  addp l.p (subp l.p l.p (mulp l.p l.m l.x3)) (subp l.p l.p l.intercept)

end Line

namespace Inputs
variable (i : Inputs)

/-- The zero checks compare the bitwise or of a point's coordinates with EC-zero. -/
def firstZero : Prop := i.x1 ||| i.y1 = i.z

def secondZero : Prop := i.x2 ||| i.y2 = i.z

/-- Neither point is zero, and they are not opposite: the sum takes arithmetic. -/
def Computes : Prop := ¬ i.firstZero ∧ ¬ i.secondZero ∧ (i.x1 = i.x2 → i.y1 = i.y2)

instance : Decidable i.firstZero := inferInstanceAs (Decidable (_ = _))
instance : Decidable i.secondZero := inferInstanceAs (Decidable (_ = _))
instance : Decidable i.Computes := inferInstanceAs (Decidable (_ ∧ _ ∧ _))

def chordDenom : Word := diffp i.p i.x1 i.x2

def chordSlope : Word := mulp i.p (diffp i.p i.y1 i.y2) (inverse i.p i.chordDenom)

def tangentNum : Word := addp i.p (mulp i.p (mulp i.p i.x1 i.x1) 3) i.a

def tangentDenom : Word := mulp i.p i.y1 2

def tangentSlope : Word := mulp i.p i.tangentNum (inverse i.p i.tangentDenom)

def line (m : Word) : Line := ⟨i.p, m, i.x1, i.y1, i.x2⟩

/-- The pair that the kernel stores. -/
def sum : Word × Word :=
  if i.firstZero then (i.x2, i.y2)
  else if i.secondZero then (i.x1, i.y1)
  else if i.x1 = i.x2 then
    if i.y1 = i.y2 then ((i.line i.tangentSlope).x3, (i.line i.tangentSlope).y3)
    else (i.p, i.z)
  else ((i.line i.chordSlope).x3, (i.line i.chordSlope).y3)

section Branches
variable {i}

theorem sum_first (h1 : i.firstZero) : i.sum = (i.x2, i.y2) := if_pos h1

theorem sum_second (h1 : ¬ i.firstZero) (h2 : i.secondZero) : i.sum = (i.x1, i.y1) := by
  rw [sum, if_neg h1, if_pos h2]

theorem sum_opposite (h1 : ¬ i.firstZero) (h2 : ¬ i.secondZero) (hx : i.x1 = i.x2)
    (hy : i.y1 ≠ i.y2) : i.sum = (i.p, i.z) := by
  rw [sum, if_neg h1, if_neg h2, if_pos hx, if_neg hy]

theorem sum_tangent (h1 : ¬ i.firstZero) (h2 : ¬ i.secondZero) (hx : i.x1 = i.x2)
    (hy : i.y1 = i.y2) :
    i.sum = ((i.line i.tangentSlope).x3, (i.line i.tangentSlope).y3) := by
  rw [sum, if_neg h1, if_neg h2, if_pos hx, if_pos hy]

theorem sum_chord (h1 : ¬ i.firstZero) (h2 : ¬ i.secondZero) (hx : i.x1 ≠ i.x2) :
    i.sum = ((i.line i.chordSlope).x3, (i.line i.chordSlope).y3) := by
  rw [sum, if_neg h1, if_neg h2, if_neg hx]

end Branches

/-- The modulus is small and the curve parameter and all coordinates are canonical. -/
structure Canonical : Prop where
  p : SmallModulus i.p
  a : InField i.p i.a
  x1 : InField i.p i.x1
  y1 : InField i.p i.y1
  x2 : InField i.p i.x2
  y2 : InField i.p i.y2

end Inputs

section Words
variable {p a b : Word}

theorem diffp_field (hp : SmallModulus p) (ha : InField p a) (hb : InField p b) :
    InField p (diffp p a b) := by
  have hs := subp_reduced hp (hp.fits_sub ha.within hb.within)
  refine addp_field hp (hp.fits_add (within_of_reduced hs) (within_self hp)) ?_
  obtain ⟨h, -⟩ := hs
  omega

theorem subp_self_field (hp : SmallModulus p) (ha : Within p a) : InField p (subp p p a) := by
  refine subp_field hp (hp.fits_sub (within_self hp) ha) ?_
  exact (le_abs_self _).trans ha

variable {P : ℕ}

theorem res_diffp (hP : p.toInt = P) (hp : SmallModulus p) (ha : InField p a)
    (hb : InField p b) : res P (diffp p a b) = res P a - res P b := by
  have hf := hp.fits_sub ha.within hb.within
  have hs := subp_reduced hp hf
  rw [diffp, res_addp hP (hp.fits_add (within_of_reduced hs) (within_self hp)), res_subp hP hf,
    res_self hP, add_zero]

theorem res_subp_self (hP : p.toInt = P) (hp : SmallModulus p) (ha : Within p a) :
    res P (subp p p a) = -res P a := by
  rw [res_subp hP (hp.fits_sub (within_self hp) ha), res_self hP, zero_sub]

end Words

namespace Line

/-- All coordinates of the line are canonical. -/
structure Canonical (l : Line) : Prop where
  p : SmallModulus l.p
  m : InField l.p l.m
  x1 : InField l.p l.x1
  y1 : InField l.p l.y1
  x2 : InField l.p l.x2

variable {l : Line} {P : ℕ}

theorem Canonical.lift (h : l.Canonical) : InField l.p (addp l.p l.y1 l.p) :=
  addp_field h.p (h.p.fits_add h.y1.within (within_self h.p))
    (add_nonneg h.y1.1 h.p.pos.le)

theorem Canonical.intercept (h : l.Canonical) : Reduced l.p.toInt l.intercept.toInt :=
  subp_reduced h.p (h.p.fits_sub h.lift.within (h.m.mulp h.p h.x1).within)

theorem Canonical.x3 (h : l.Canonical) : InField l.p l.x3 :=
  (h.m.mulp h.p h.m).addp h.p
    ((subp_self_field h.p h.x1.within).addp h.p (subp_self_field h.p h.x2.within))

theorem Canonical.y3 (h : l.Canonical) : InField l.p l.y3 :=
  (subp_self_field h.p (h.m.mulp h.p h.x3).within).addp h.p
    (subp_self_field h.p (within_of_reduced h.intercept))

theorem res_intercept (hP : l.p.toInt = P) (h : l.Canonical) :
    res P l.intercept = res P l.y1 - res P l.m * res P l.x1 := by
  rw [Line.intercept, res_subp hP (h.p.fits_sub h.lift.within (h.m.mulp h.p h.x1).within),
    res_addp hP (h.p.fits_add h.y1.within (within_self h.p)), res_self hP, add_zero,
    res_mulp hP (h.p.fits_mul h.m.reduced h.x1.reduced)]

theorem res_x3 (hP : l.p.toInt = P) (h : l.Canonical) :
    res P l.x3 = res P l.m ^ 2 - res P l.x1 - res P l.x2 := by
  have h1 := subp_self_field h.p h.x1.within
  have h2 := subp_self_field h.p h.x2.within
  rw [Line.x3, res_addp hP (h.p.fits_add (h.m.mulp h.p h.m).within (h1.addp h.p h2).within),
    res_addp hP (h.p.fits_add h1.within h2.within), res_subp_self hP h.p h.x1.within,
    res_subp_self hP h.p h.x2.within, res_mulp hP (h.p.fits_mul h.m.reduced h.m.reduced)]
  ring

theorem res_y3 (hP : l.p.toInt = P) (h : l.Canonical) :
    res P l.y3 = res P l.m * (res P l.x1 - res P l.x3) - res P l.y1 := by
  have h1 := subp_self_field h.p (h.m.mulp h.p h.x3).within
  have h2 := subp_self_field h.p (within_of_reduced h.intercept)
  rw [Line.y3, res_addp hP (h.p.fits_add h1.within h2.within),
    res_subp_self hP h.p (h.m.mulp h.p h.x3).within,
    res_subp_self hP h.p (within_of_reduced h.intercept), res_intercept hP h,
    res_mulp hP (h.p.fits_mul h.m.reduced h.x3.reduced)]
  ring

end Line

namespace Inputs
variable {i : Inputs} {P : ℕ}

theorem Canonical.chordDenom (h : i.Canonical) : InField i.p i.chordDenom :=
  diffp_field h.p h.x1 h.x2

theorem Canonical.chordSlope (h : i.Canonical) (hP : i.p.toInt = P) :
    InField i.p i.chordSlope :=
  (diffp_field h.p h.y1 h.y2).mulp h.p (inverse_spec hP h.p h.chordDenom).1

theorem toInt_three : ((3 : Word)).toInt = 3 := rfl

theorem toInt_two : ((2 : Word)).toInt = 2 := rfl

theorem Canonical.fits_triple (h : i.Canonical) :
    Fits 64 ((mulp i.p i.x1 i.x1).toInt * ((3 : Word)).toInt) :=
  h.p.fits_mul_const (h.x1.mulp h.p h.x1).within (by rw [toInt_three]; norm_num)

theorem Canonical.fits_double (h : i.Canonical) : Fits 64 (i.y1.toInt * ((2 : Word)).toInt) :=
  h.p.fits_mul_const h.y1.within (by rw [toInt_two]; norm_num)

theorem Canonical.triple (h : i.Canonical) : InField i.p (mulp i.p (mulp i.p i.x1 i.x1) 3) :=
  mulp_field h.p h.fits_triple (mul_nonneg (h.x1.mulp h.p h.x1).1 (by decide))

theorem Canonical.tangentNum (h : i.Canonical) : InField i.p i.tangentNum :=
  h.triple.addp h.p h.a

theorem Canonical.tangentDenom (h : i.Canonical) : InField i.p i.tangentDenom :=
  mulp_field h.p h.fits_double (mul_nonneg h.y1.1 (by decide))

theorem Canonical.tangentSlope (h : i.Canonical) (hP : i.p.toInt = P) :
    InField i.p i.tangentSlope :=
  h.tangentNum.mulp h.p (inverse_spec hP h.p h.tangentDenom).1

theorem Canonical.line {m : Word} (h : i.Canonical) (hm : InField i.p m) :
    (i.line m).Canonical := ⟨h.p, hm, h.x1, h.y1, h.x2⟩

theorem res_chordDenom (hP : i.p.toInt = P) (h : i.Canonical) :
    res P i.chordDenom = res P i.x1 - res P i.x2 := res_diffp hP h.p h.x1 h.x2

theorem res_chordSlope (hP : i.p.toInt = P) (h : i.Canonical) :
    res P i.chordSlope = (res P i.y1 - res P i.y2) * (res P i.x1 - res P i.x2) ^ (P - 2) := by
  obtain ⟨hf, hr⟩ := inverse_spec hP h.p h.chordDenom
  rw [Inputs.chordSlope, res_mulp hP (h.p.fits_mul (diffp_field h.p h.y1 h.y2).reduced hf.reduced),
    res_diffp hP h.p h.y1 h.y2, hr, res_chordDenom hP h]

theorem res_tangentNum (hP : i.p.toInt = P) (h : i.Canonical) :
    res P i.tangentNum = 3 * res P i.x1 ^ 2 + res P i.a := by
  rw [Inputs.tangentNum, res_addp hP (h.p.fits_add h.triple.within h.a.within),
    res_mulp hP h.fits_triple, res_mulp hP (h.p.fits_mul h.x1.reduced h.x1.reduced)]
  rw [show res P 3 = 3 by rw [res, toInt_three]; norm_num]
  ring

theorem res_tangentDenom (hP : i.p.toInt = P) (h : i.Canonical) :
    res P i.tangentDenom = 2 * res P i.y1 := by
  rw [Inputs.tangentDenom, res_mulp hP h.fits_double,
    show res P 2 = 2 by rw [res, toInt_two]; norm_num, mul_comm]

theorem res_tangentSlope (hP : i.p.toInt = P) (h : i.Canonical) :
    res P i.tangentSlope =
      (3 * res P i.x1 ^ 2 + res P i.a) * (2 * res P i.y1) ^ (P - 2) := by
  obtain ⟨hf, hr⟩ := inverse_spec hP h.p h.tangentDenom
  rw [Inputs.tangentSlope, res_mulp hP (h.p.fits_mul h.tangentNum.reduced hf.reduced),
    res_tangentNum hP h, hr, res_tangentDenom hP h]

end Inputs
end Fabric

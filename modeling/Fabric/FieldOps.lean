import Fabric.Isa
import Fabric.Lib.Signed

/-! The prime field instructions as functions of words, and their meaning as
integers and as residues while no 64-bit result overflows. -/
namespace Fabric
open Lib

def addp (p a b : Word) : Word := (a + b).srem p
def subp (p a b : Word) : Word := (a - b).srem p
def mulp (p a b : Word) : Word := (a * b).srem p

/-- The largest modulus whose residues multiply within a `Word`. -/
def MAX_MODULUS : ℤ := 3037000500

/-- A modulus whose residues multiply within a `Word`. -/
def SmallModulus (p : Word) : Prop := 2 ≤ p.toInt ∧ p.toInt ≤ MAX_MODULUS

/-- `a` is a canonical field element. -/
def InField (p a : Word) : Prop := Canonical p.toInt a.toInt

/-- `a` is at most `p` in absolute value. -/
def Within (p a : Word) : Prop := |a.toInt| ≤ p.toInt

instance (p : Word) : Decidable (SmallModulus p) := inferInstanceAs (Decidable (_ ∧ _))
instance (p a : Word) : Decidable (InField p a) := inferInstanceAs (Decidable (Canonical _ _))
instance (p a : Word) : Decidable (Within p a) := inferInstanceAs (Decidable (_ ≤ _))

section Integers
variable {p a b : Word}

theorem SmallModulus.pos (h : SmallModulus p) : 0 < p.toInt := by have := h.1; omega

theorem ne_zero_of_one_le (h : 1 ≤ p.toInt) : p ≠ 0 := by
  rintro rfl
  exact absurd h (by decide)

theorem toInt_addp (h : Fits 64 (a.toInt + b.toInt)) :
    (addp p a b).toInt = (a.toInt + b.toInt).tmod p.toInt := by
  rw [addp, BitVec.toInt_srem, toInt_add_of_fits h]

theorem toInt_subp (h : Fits 64 (a.toInt - b.toInt)) :
    (subp p a b).toInt = (a.toInt - b.toInt).tmod p.toInt := by
  rw [subp, BitVec.toInt_srem, toInt_sub_of_fits h]

theorem toInt_mulp (h : Fits 64 (a.toInt * b.toInt)) :
    (mulp p a b).toInt = (a.toInt * b.toInt).tmod p.toInt := by
  rw [mulp, BitVec.toInt_srem, toInt_mul_of_fits h]

theorem fits_of_abs_le {z : ℤ} (h : |z| ≤ (MAX_MODULUS - 1) * (MAX_MODULUS - 1)) : Fits 64 z := by
  rw [abs_le] at h
  obtain ⟨h0, h1⟩ := h
  norm_num [MAX_MODULUS] at h0 h1
  constructor <;> norm_num <;> linarith

theorem SmallModulus.fits_add (hp : SmallModulus p) (ha : Within p a) (hb : Within p b) :
    Fits 64 (a.toInt + b.toInt) := by
  have hM := hp.2
  unfold Within at ha hb
  apply fits_of_abs_le
  calc |a.toInt + b.toInt| ≤ |a.toInt| + |b.toInt| := abs_add_le _ _
    _ ≤ (MAX_MODULUS - 1) * (MAX_MODULUS - 1) := by norm_num [MAX_MODULUS] at *; linarith

theorem SmallModulus.fits_sub (hp : SmallModulus p) (ha : Within p a) (hb : Within p b) :
    Fits 64 (a.toInt - b.toInt) := by
  have hM := hp.2
  unfold Within at ha hb
  apply fits_of_abs_le
  calc |a.toInt - b.toInt| ≤ |a.toInt| + |b.toInt| := abs_sub _ _
    _ ≤ (MAX_MODULUS - 1) * (MAX_MODULUS - 1) := by norm_num [MAX_MODULUS] at *; linarith

theorem SmallModulus.fits_mul (hp : SmallModulus p) (ha : Reduced p.toInt a.toInt)
    (hb : Reduced p.toInt b.toInt) : Fits 64 (a.toInt * b.toInt) := by
  have h0 := hp.1
  have h1 := hp.2
  apply fits_of_abs_le
  calc |a.toInt * b.toInt| ≤ (p.toInt - 1) * (p.toInt - 1) := ha.abs_mul_le hb
    _ ≤ (MAX_MODULUS - 1) * (MAX_MODULUS - 1) :=
      mul_le_mul (by linarith) (by linarith) (by linarith) (by norm_num [MAX_MODULUS])

/-- A small constant factor fits next to any residue, even when it exceeds the modulus. -/
theorem SmallModulus.fits_mul_const (hp : SmallModulus p) (ha : Within p a) (hb : |b.toInt| ≤ 3) :
    Fits 64 (a.toInt * b.toInt) := by
  have hM := hp.2
  unfold Within at ha
  apply fits_of_abs_le
  rw [abs_mul]
  calc |a.toInt| * |b.toInt| ≤ p.toInt * 3 :=
        mul_le_mul ha hb (abs_nonneg _) (by have := hp.1; linarith)
    _ ≤ (MAX_MODULUS - 1) * (MAX_MODULUS - 1) := by norm_num [MAX_MODULUS] at *; linarith

theorem InField.within (h : InField p a) : Within p a := by
  obtain ⟨h0, h1⟩ := h
  unfold Within
  rw [abs_of_nonneg h0]
  omega

theorem within_self (h : SmallModulus p) : Within p p := by
  unfold Within
  rw [abs_of_nonneg (by have := h.1; omega)]

theorem within_of_reduced (h : Reduced p.toInt a.toInt) : Within p a := by
  obtain ⟨h0, h1⟩ := h
  unfold Within
  rw [abs_le]
  omega

theorem addp_field (hp : SmallModulus p) (h : Fits 64 (a.toInt + b.toInt))
    (h0 : 0 ≤ a.toInt + b.toInt) : InField p (addp p a b) := by
  unfold InField
  rw [toInt_addp h]
  exact tmod_canonical hp.pos h0

theorem subp_field (hp : SmallModulus p) (h : Fits 64 (a.toInt - b.toInt))
    (h0 : b.toInt ≤ a.toInt) : InField p (subp p a b) := by
  unfold InField
  rw [toInt_subp h]
  exact tmod_canonical hp.pos (by omega)

theorem mulp_field (hp : SmallModulus p) (h : Fits 64 (a.toInt * b.toInt))
    (h0 : 0 ≤ a.toInt * b.toInt) : InField p (mulp p a b) := by
  unfold InField
  rw [toInt_mulp h]
  exact tmod_canonical hp.pos h0

theorem subp_reduced (hp : SmallModulus p) (h : Fits 64 (a.toInt - b.toInt)) :
    Reduced p.toInt (subp p a b).toInt := by
  rw [toInt_subp h]
  exact tmod_reduced hp.pos _

theorem InField.mulp (hp : SmallModulus p) (ha : InField p a) (hb : InField p b) :
    InField p (mulp p a b) :=
  mulp_field hp (hp.fits_mul ha.reduced hb.reduced) (mul_nonneg ha.1 hb.1)

theorem InField.addp (hp : SmallModulus p) (ha : InField p a) (hb : InField p b) :
    InField p (addp p a b) :=
  addp_field hp (hp.fits_add ha.within hb.within) (add_nonneg ha.1 hb.1)

theorem field_one (hp : SmallModulus p) : InField p 1 := by
  have := hp.1
  exact ⟨by decide, by rw [show ((1 : Word)).toInt = 1 from rfl]; omega⟩

end Integers

section Residues
variable {P : ℕ} {p a b : Word}

/-- The residue a word stands for. -/
def res (P : ℕ) (a : Word) : ZMod P := (a.toInt : ZMod P)

theorem res_self (hp : p.toInt = P) : res P p = 0 := by
  rw [res, hp, Int.cast_natCast, ZMod.natCast_self]

theorem res_addp (hp : p.toInt = P) (h : Fits 64 (a.toInt + b.toInt)) :
    res P (addp p a b) = res P a + res P b := by
  rw [res, toInt_addp h, hp, cast_tmod, Int.cast_add, res, res]

theorem res_subp (hp : p.toInt = P) (h : Fits 64 (a.toInt - b.toInt)) :
    res P (subp p a b) = res P a - res P b := by
  rw [res, toInt_subp h, hp, cast_tmod, Int.cast_sub, res, res]

theorem res_mulp (hp : p.toInt = P) (h : Fits 64 (a.toInt * b.toInt)) :
    res P (mulp p a b) = res P a * res P b := by
  rw [res, toInt_mulp h, hp, cast_tmod, Int.cast_mul, res, res]

/-- Canonical words of one residue are the same word. -/
theorem InField.ext (hp : p.toInt = P) (ha : InField p a) (hb : InField p b)
    (h : res P a = res P b) : a = b := by
  unfold InField at ha hb
  rw [hp] at ha hb
  exact BitVec.eq_of_toInt_eq (ha.eq_of_cast hb h)

theorem InField.eq_iff (hp : p.toInt = P) (ha : InField p a) (hb : InField p b) :
    a = b ↔ res P a = res P b := by
  constructor
  · intro h
    rw [h]
  · exact ha.ext hp hb

end Residues
end Fabric

import Mathlib.Data.ZMod.Basic
import Mathlib.Tactic.Linarith

/-! Exact two's complement arithmetic at any width, and the truncating remainder
as a map to the residues. -/
namespace Lib

/-- The integer `z` has a signed representation of `w` bits. -/
def Fits (w : ℕ) (z : ℤ) : Prop := -2 ^ (w - 1) ≤ z ∧ z < 2 ^ (w - 1)

instance (w : ℕ) (z : ℤ) : Decidable (Fits w z) := inferInstanceAs (Decidable (_ ∧ _))

section Words
variable {w : ℕ} {x y : BitVec w}

theorem toInt_add_of_fits (h : Fits w (x.toInt + y.toInt)) :
    (x + y).toInt = x.toInt + y.toInt := by
  apply BitVec.toInt_add_of_not_saddOverflow
  simp only [BitVec.saddOverflow, Bool.or_eq_true, decide_eq_true_eq, not_or, not_le, not_lt,
    ge_iff_le]
  exact ⟨h.2, h.1⟩

theorem toInt_sub_of_fits (h : Fits w (x.toInt - y.toInt)) :
    (x - y).toInt = x.toInt - y.toInt := by
  apply BitVec.toInt_sub_of_not_ssubOverflow
  simp only [BitVec.ssubOverflow, Bool.or_eq_true, decide_eq_true_eq, not_or, not_le, not_lt,
    ge_iff_le]
  exact ⟨h.2, h.1⟩

theorem toInt_mul_of_fits (h : Fits w (x.toInt * y.toInt)) :
    (x * y).toInt = x.toInt * y.toInt := by
  apply BitVec.toInt_mul_of_not_smulOverflow
  simp only [BitVec.smulOverflow, Bool.or_eq_true, decide_eq_true_eq, not_or, not_le, not_lt,
    ge_iff_le]
  exact ⟨h.2, h.1⟩

/-- Division is exact unless it divides by minus one. -/
theorem toInt_sdiv_of_pos (h : 0 < y.toInt) : (x.sdiv y).toInt = x.toInt.tdiv y.toInt := by
  apply BitVec.toInt_sdiv_of_ne_or_ne
  right
  rintro rfl
  rcases Nat.eq_zero_or_pos w with rfl | hw
  · simp at h
  · simp only [BitVec.neg_one_eq_allOnes, BitVec.toInt_allOnes, hw, if_true] at h
    omega

theorem toInt_fits (hw : 0 < w) (x : BitVec w) : Fits w x.toInt := by
  obtain ⟨n, rfl⟩ : ∃ n, w = n + 1 := ⟨w - 1, by omega⟩
  exact ⟨BitVec.le_toInt x, BitVec.toInt_lt⟩

/-- Only the least word divided by minus one has a quotient that does not fit. -/
theorem fits_tdiv_iff (hw : 0 < w) :
    Fits w (x.toInt.tdiv y.toInt) ↔ ¬ (x = BitVec.intMin w ∧ y = -1#w) := by
  constructor
  · rintro ⟨-, hhi⟩ ⟨rfl, rfl⟩
    rw [BitVec.toInt_intMin_of_pos hw, BitVec.neg_one_eq_allOnes, BitVec.toInt_allOnes,
      if_pos hw, Int.neg_tdiv_neg, Int.tdiv_one] at hhi
    exact absurd hhi (lt_irrefl _)
  · intro h
    rw [← BitVec.toInt_sdiv_of_ne_or_ne x y (not_and_or.mp h)]
    exact toInt_fits hw _

theorem toInt_sdiv_of_fits (hw : 0 < w) (h : Fits w (x.toInt.tdiv y.toInt)) :
    (x.sdiv y).toInt = x.toInt.tdiv y.toInt :=
  BitVec.toInt_sdiv_of_ne_or_ne x y (not_and_or.mp ((fits_tdiv_iff hw).mp h))

theorem msb_eq_false_of_nonneg (hx : 0 ≤ x.toInt) : x.msb = false := by
  by_contra h
  have := BitVec.toInt_neg_of_msb_true (x := x) (by simpa using h)
  omega

theorem toInt_eq_toNat_of_nonneg (hx : 0 ≤ x.toInt) : x.toInt = x.toNat :=
  BitVec.toInt_eq_toNat_of_msb (msb_eq_false_of_nonneg hx)

theorem toInt_ofNat_of_lt {n : ℕ} (hw : 0 < w) (hn : n < 2 ^ (w - 1)) :
    (BitVec.ofNat w n).toInt = n := by
  have hpow : 2 ^ w = 2 * 2 ^ (w - 1) := by
    rw [← Nat.pow_succ', Nat.succ_eq_add_one, Nat.sub_add_cancel hw]
  have htoNat : (BitVec.ofNat w n).toNat = n := by
    rw [BitVec.toNat_ofNat, Nat.mod_eq_of_lt (by omega)]
  rw [BitVec.toInt_eq_toNat_of_lt (by omega), htoNat]

theorem toInt_or_nonneg (hx : 0 ≤ x.toInt) (hy : 0 ≤ y.toInt) : 0 ≤ (x ||| y).toInt := by
  have hx' := msb_eq_false_of_nonneg hx
  have hy' := msb_eq_false_of_nonneg hy
  have h : (x ||| y).msb = false := by rw [BitVec.msb_or, hx', hy']; rfl
  rw [BitVec.toInt_eq_toNat_of_msb h]
  omega

end Words

/-- `z` is the canonical representative of its residue. -/
def Canonical (p z : ℤ) : Prop := 0 ≤ z ∧ z < p

/-- `z` is a truncated remainder modulo `p`, of either sign. -/
def Reduced (p z : ℤ) : Prop := -p < z ∧ z < p

instance (p z : ℤ) : Decidable (Canonical p z) := inferInstanceAs (Decidable (_ ∧ _))

instance (p z : ℤ) : Decidable (Reduced p z) := inferInstanceAs (Decidable (_ ∧ _))

section Residues
variable {p a b : ℤ}

theorem Canonical.reduced (h : Canonical p a) : Reduced p a := by
  obtain ⟨h0, h1⟩ := h
  exact ⟨by omega, h1⟩

theorem Canonical.pos (h : Canonical p a) : 0 < p := by
  obtain ⟨h0, h1⟩ := h
  omega

theorem tmod_reduced (hp : 0 < p) (a : ℤ) : Reduced p (a.tmod p) :=
  ⟨Int.lt_tmod_of_pos a hp, Int.tmod_lt_of_pos a hp⟩

theorem tmod_canonical (hp : 0 < p) (ha : 0 ≤ a) : Canonical p (a.tmod p) :=
  ⟨Int.tmod_nonneg p ha, Int.tmod_lt_of_pos a hp⟩

/-- Products of reduced values stay below the square of `p - 1`. -/
theorem Reduced.abs_mul_le (ha : Reduced p a) (hb : Reduced p b) : |a * b| ≤ (p - 1) * (p - 1) := by
  have habs : ∀ c, Reduced p c → |c| ≤ p - 1 := by
    intro c hc
    obtain ⟨h0, h1⟩ := hc
    rw [abs_le]
    constructor <;> omega
  have ha' := habs a ha
  have hb' := habs b hb
  have hp : 0 ≤ p - 1 := (abs_nonneg a).trans ha'
  rw [abs_mul]
  exact mul_le_mul ha' hb' (abs_nonneg b) hp

theorem cast_tmod (n : ℕ) (a : ℤ) : ((a.tmod n : ℤ) : ZMod n) = a := by
  rw [Int.tmod_def]
  push_cast
  rw [ZMod.natCast_self, zero_mul, sub_zero]

/-- Canonical representatives of one residue are equal. -/
theorem Canonical.eq_of_cast {n : ℕ} (ha : Canonical n a) (hb : Canonical n b)
    (h : (a : ZMod n) = b) : a = b := by
  rw [ZMod.intCast_eq_intCast_iff] at h
  have he : a % n = b % n := h
  rwa [Int.emod_eq_of_lt ha.1 ha.2, Int.emod_eq_of_lt hb.1 hb.2] at he

theorem Canonical.cast_eq_zero {n : ℕ} (ha : Canonical n a) (h : (a : ZMod n) = 0) : a = 0 :=
  ha.eq_of_cast ⟨le_rfl, ha.pos⟩ (by simpa using h)

end Residues
end Lib

import Mathlib.Data.Nat.Size
import Mathlib.Tactic.NormNum

/-! Pairs of words tested against a sentinel by one comparison of their bitwise or:
when a word that equals the sentinel is never missed, and when no other pair is
taken for it. -/
namespace Lib

/-- The `k` lowest bits are set. -/
def LowOnes {w : ℕ} (k : ℕ) (z : BitVec w) : Prop := ∀ j < k, z.getLsbD j = true

/-- Some bit from position `k` on is set. -/
def HighOne {w : ℕ} (k : ℕ) (z : BitVec w) : Prop := ∃ j, k ≤ j ∧ z.getLsbD j = true

variable {w k n : ℕ} {x y z : BitVec w}

theorem getLsbD_eq_false_of_lt {j : ℕ} (hy : y.toNat < 2 ^ k) (hj : k ≤ j) :
    y.getLsbD j = false :=
  Nat.testBit_lt_two_pow (hy.trans_le (Nat.pow_le_pow_right (by norm_num) hj))

theorem or_eq_left_iff : z ||| y = z ↔ ∀ j, y.getLsbD j = true → z.getLsbD j = true := by
  constructor
  · intro h j hj
    rw [← h, BitVec.getLsbD_or, hj, Bool.or_true]
  · intro h
    apply BitVec.eq_of_getLsbD_eq
    intro j _
    rw [BitVec.getLsbD_or]
    cases hy : y.getLsbD j with
    | false => rw [Bool.or_false]
    | true => rw [h j hy, Bool.or_true]

/-- A sentinel whose low bits are set absorbs every small word. -/
theorem LowOnes.or_eq (hz : LowOnes k z) (hy : y.toNat < 2 ^ k) : z ||| y = z := by
  rw [or_eq_left_iff]
  intro j hj
  apply hz
  by_contra hle
  rw [getLsbD_eq_false_of_lt hy (not_lt.mp hle)] at hj
  cases hj

/-- A sentinel with a high bit is not the or of small words. -/
theorem HighOne.or_ne (hz : HighOne k z) (hx : x.toNat < 2 ^ k) (hy : y.toNat < 2 ^ k) :
    x ||| y ≠ z := by
  rintro rfl
  obtain ⟨j, hj, hbit⟩ := hz
  rw [BitVec.getLsbD_or, getLsbD_eq_false_of_lt hx hj, getLsbD_eq_false_of_lt hy hj] at hbit
  cases hbit

theorem toNat_twoPow_lt (hn : n ≤ 2 ^ w) (hk : k < Nat.size (n - 1)) :
    k < w ∧ (BitVec.twoPow w k).toNat < n := by
  rw [Nat.lt_size] at hk
  have hpos : 0 < 2 ^ k := Nat.two_pow_pos k
  have hlt : 2 ^ k < 2 ^ w := by omega
  refine ⟨(Nat.pow_lt_pow_iff_right (by norm_num)).mp hlt, ?_⟩
  rw [BitVec.toNat_twoPow, Nat.mod_eq_of_lt hlt]
  omega

/-- Without all low bits some word below the bound is not absorbed. -/
theorem exists_or_ne (hn : n ≤ 2 ^ w) (hz : ¬ LowOnes (Nat.size (n - 1)) z) :
    ∃ y : BitVec w, y.toNat < n ∧ z ||| y ≠ z := by
  simp only [LowOnes, not_forall] at hz
  obtain ⟨j, hj, hbit⟩ := hz
  obtain ⟨hjw, hlt⟩ := toNat_twoPow_lt hn hj
  refine ⟨BitVec.twoPow w j, hlt, ?_⟩
  intro h
  refine hbit ((or_eq_left_iff.mp h) j ?_)
  rw [BitVec.getLsbD_twoPow, decide_eq_true hjw, decide_eq_true rfl]
  rfl

theorem getLsbD_clear (z : BitVec w) (k j : ℕ) :
    (z &&& ~~~BitVec.twoPow w k).getLsbD j = (z.getLsbD j && !decide (k = j)) := by
  rw [BitVec.getLsbD_and, BitVec.getLsbD_not, BitVec.getLsbD_twoPow]
  by_cases hj : j < w
  · by_cases hk : k = j
    · simp [hj, hk]
    · simp [hj, hk]
  · rw [BitVec.getLsbD_of_ge z j (by omega), Bool.false_and, Bool.false_and]

/-- A set bit, or-ed with the rest of the word. -/
theorem twoPow_or_clear (hk : z.getLsbD k = true) :
    BitVec.twoPow w k ||| (z &&& ~~~BitVec.twoPow w k) = z := by
  apply BitVec.eq_of_getLsbD_eq
  intro j hj
  rw [BitVec.getLsbD_or, getLsbD_clear, BitVec.getLsbD_twoPow]
  by_cases h : k = j
  · rw [← h, hk, decide_eq_true (h ▸ hj : k < w), decide_eq_true rfl]
    rfl
  · rw [decide_eq_false h]
    simp

theorem clear_toNat_lt (hz : ¬ HighOne (k + 1) z) :
    (z &&& ~~~BitVec.twoPow w k).toNat < 2 ^ k := by
  apply Nat.lt_pow_two_of_testBit
  intro j hj
  change (z &&& ~~~BitVec.twoPow w k).getLsbD j = false
  rw [getLsbD_clear]
  rcases Nat.eq_or_lt_of_le hj with rfl | hlt
  · simp
  · have hbit : z.getLsbD j = false := by
      by_contra hne
      exact hz ⟨j, hlt, by simpa using hne⟩
    rw [hbit, Bool.false_and]

/-- Without a high bit the sentinel is the or of two words below the bound. -/
theorem exists_or_eq (hn : n ≤ 2 ^ w) (h2 : 2 ≤ n) (hlow : LowOnes (Nat.size (n - 1)) z)
    (hhigh : ¬ HighOne (Nat.size (n - 1)) z) :
    ∃ x y : BitVec w, x.toNat < n ∧ y.toNat < n ∧ x ||| y = z := by
  have hpos : 0 < Nat.size (n - 1) := Nat.size_pos.mpr (by omega)
  obtain ⟨k, hk⟩ : ∃ k, Nat.size (n - 1) = k + 1 := ⟨Nat.size (n - 1) - 1, by omega⟩
  have hkn : k < Nat.size (n - 1) := by omega
  have hlt : 2 ^ k < n := by
    have := Nat.lt_size.mp hkn
    omega
  rw [hk] at hhigh
  exact ⟨BitVec.twoPow w k, z &&& ~~~BitVec.twoPow w k, (toNat_twoPow_lt hn hkn).2,
    (clear_toNat_lt hhigh).trans hlt, twoPow_or_clear (hlow k hkn)⟩

end Lib

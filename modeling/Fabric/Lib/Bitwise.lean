import Fabric.Lib.Signed
import Mathlib.Data.Int.Bitwise

/-! The bitwise operations on words as those on the integers they stand for. -/
namespace Lib
variable {w : ℕ} {x : BitVec w}

/-- A negative word is the complement of its complement's number. -/
theorem toInt_of_msb_true (hx : x.msb = true) : x.toInt = Int.negSucc (~~~x).toNat := by
  have hlt := x.isLt
  have hnot : ((~~~x).toNat : ℤ) = 2 ^ w - 1 - x.toNat := by
    rw [BitVec.toNat_not, Nat.sub_sub, Nat.cast_sub (by omega)]
    push_cast
    omega
  rw [BitVec.toInt_eq_msb_cond, if_pos hx, Int.negSucc_eq, hnot]
  push_cast
  omega

/-- The bits of a word are those of its number, the sign included. -/
theorem testBit_toInt (x : BitVec w) (k : ℕ) :
    x.toInt.testBit k = if k < w then x.getLsbD k else x.msb := by
  cases hx : x.msb with
  | false =>
    rw [BitVec.toInt_eq_toNat_of_msb hx]
    change x.toNat.testBit k = _
    rw [← BitVec.getLsbD]
    split_ifs with hk
    · rfl
    · exact BitVec.getLsbD_of_ge x k (by omega)
  | true =>
    rw [toInt_of_msb_true hx]
    change (!(~~~x).toNat.testBit k) = _
    rw [← BitVec.getLsbD, BitVec.getLsbD_not]
    split_ifs with hk <;> simp [hk]

/-- Far enough up, a number and a complement differ. -/
theorem exists_testBit_ne (m n : ℕ) :
    ∃ k, (Int.ofNat m).testBit k ≠ (Int.negSucc n).testBit k := by
  have hlt : ∀ j ≤ m + n, j.testBit (m + n) = false := fun j hj =>
    Nat.testBit_lt_two_pow (hj.trans_lt Nat.lt_two_pow_self)
  refine ⟨m + n, ?_⟩
  change m.testBit (m + n) ≠ !n.testBit (m + n)
  rw [hlt m (by omega), hlt n (by omega)]
  decide

/-- Integers with the same bits are equal. -/
theorem eq_of_testBit {a b : ℤ} (h : ∀ k, a.testBit k = b.testBit k) : a = b := by
  cases a with
  | ofNat m =>
    cases b with
    | ofNat n => exact congrArg Int.ofNat (Nat.eq_of_testBit_eq h)
    | negSucc n =>
      obtain ⟨k, hk⟩ := exists_testBit_ne m n
      exact absurd (h k) hk
  | negSucc m =>
    cases b with
    | ofNat n =>
      obtain ⟨k, hk⟩ := exists_testBit_ne n m
      exact absurd (h k).symm hk
    | negSucc n => exact congrArg Int.negSucc (Nat.eq_of_testBit_eq fun k => Bool.not_inj (h k))

theorem toInt_and_eq (x y : BitVec w) : (x &&& y).toInt = Int.land x.toInt y.toInt := by
  refine eq_of_testBit fun k => ?_
  simp only [Int.testBit_land, testBit_toInt, BitVec.getLsbD_and, BitVec.msb_and]
  split_ifs <;> rfl

theorem toInt_or_eq (x y : BitVec w) : (x ||| y).toInt = Int.lor x.toInt y.toInt := by
  refine eq_of_testBit fun k => ?_
  simp only [Int.testBit_lor, testBit_toInt, BitVec.getLsbD_or, BitVec.msb_or]
  split_ifs <;> rfl

theorem toInt_xor_eq (x y : BitVec w) : (x ^^^ y).toInt = Int.xor x.toInt y.toInt := by
  refine eq_of_testBit fun k => ?_
  simp only [Int.testBit_lxor, testBit_toInt, BitVec.getLsbD_xor, BitVec.msb_xor]
  split_ifs <;> rfl

theorem toInt_not_eq (x : BitVec w) (hw : 0 < w) : (~~~x).toInt = Int.lnot x.toInt := by
  refine eq_of_testBit fun k => ?_
  simp only [Int.testBit_lnot, testBit_toInt, BitVec.getLsbD_not, BitVec.msb_not]
  split_ifs <;> simp_all

end Lib

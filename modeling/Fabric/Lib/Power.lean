import Mathlib.Algebra.Ring.Nat
import Mathlib.Tactic.Common

/-! Right-to-left binary powers in a monoid, with the loop left at the bottom: the
body runs once before the exponent is tested, and the last squaring is unused. -/
namespace Lib

/-- `acc * base ^ exp` is the power still to be computed. -/
structure BinPow (M : Type*) where
  acc : M
  base : M
  exp : ℕ

namespace BinPow
variable {M : Type*} [Monoid M]

def value (s : BinPow M) : M := s.acc * s.base ^ s.exp

def next (s : BinPow M) : BinPow M where
  acc := if s.exp % 2 = 1 then s.acc * s.base else s.acc
  base := s.base * s.base
  exp := s.exp / 2

/-- At most `n` turns of the loop. -/
def run : ℕ → BinPow M → BinPow M
  | 0, s => s
  | n + 1, s => if s.next.exp = 0 then s.next else run n s.next

theorem value_next (s : BinPow M) : s.next.value = s.value := by
  have he := Nat.div_add_mod s.exp 2
  rcases Nat.mod_two_eq_zero_or_one s.exp with h | h
  · have hexp : s.exp = 2 * (s.exp / 2) := by omega
    simp only [value, next, h, Nat.zero_ne_one, if_false]
    conv_rhs => rw [hexp, pow_mul, pow_two]
  · have hexp : s.exp = 1 + 2 * (s.exp / 2) := by omega
    simp only [value, next, h, if_true]
    conv_rhs => rw [hexp, pow_add, pow_one, pow_mul, pow_two, ← mul_assoc]

theorem value_of_exp_zero {s : BinPow M} (h : s.exp = 0) : s.value = s.acc := by
  rw [value, h, pow_zero, mul_one]

/-- Enough turns leave the power in the accumulator. -/
theorem run_acc {n : ℕ} {s : BinPow M} (hn : s.exp < 2 ^ (n + 1)) :
    (run (n + 1) s).acc = s.value := by
  induction n generalizing s with
  | zero =>
    have hz : s.next.exp = 0 := by simp only [next]; omega
    rw [run, if_pos hz, ← value_of_exp_zero hz, value_next]
  | succ n ih =>
    rw [run]
    split_ifs with hz
    · rw [← value_of_exp_zero hz, value_next]
    · have hlt : s.next.exp < 2 ^ (n + 1) := by
        simp only [next]
        rw [Nat.pow_succ] at hn
        omega
      rw [ih hlt, value_next]

end BinPow
end Lib

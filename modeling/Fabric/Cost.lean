import Mathlib.Data.Nat.Size
import Fabric.Addition

/-! The number of instructions that the kernels execute, and what it depends on. -/
namespace Fabric
open Lib

/-- Six instructions for each bit of the exponent, one more for each bit that is set. -/
def powCost (e : ℕ) : ℕ := 6 * e.bits.length + e.bits.count true

theorem powCost_one : powCost 1 = 7 := by
  rw [powCost, Nat.one_bits]
  rfl

theorem powCost_half {e : ℕ} (he : e / 2 ≠ 0) : powCost e = powCost (e / 2) + 6 + e % 2 := by
  have hdiv := Nat.div_add_mod e 2
  rcases Nat.mod_two_eq_zero_or_one e with h | h
  · have hbits := Nat.bit0_bits (e / 2) he
    rw [show 2 * (e / 2) = e by omega] at hbits
    rw [powCost, powCost, hbits, h, List.length_cons, List.count_cons_of_ne (by decide)]
    omega
  · have hbits := Nat.bit1_bits (e / 2)
    rw [show 2 * (e / 2) + 1 = e by omega] at hbits
    rw [powCost, powCost, hbits, h, List.length_cons, List.count_cons_self]
    omega

theorem powCost_le {e n : ℕ} (he : e < 2 ^ n) : powCost e ≤ 7 * n := by
  have hlen : e.bits.length ≤ n := by
    rw [Nat.size_eq_bits_len]
    exact Nat.size_le.mpr he
  have hcount := List.count_le_length (a := true) (l := e.bits)
  unfold powCost
  omega

section Loop
variable {c w n : ℕ} {e : Word}

theorem and_one_eq_zero_iff : e &&& 1 = 0 ↔ e.toNat % 2 = 0 := by
  rw [← BitVec.toNat_inj]
  change e.toNat &&& 1 = 0 ↔ _
  rw [Nat.and_one_is_mod]

/-- Five instructions in every turn, one for the product and one for the jump back. -/
theorem length_turnTrace : (turnTrace c w e).length =
    5 + (if e &&& 1 = 0 then 0 else 1) + if e.sdiv 2 = 0 then 0 else 1 := by
  unfold turnTrace tailTrace
  split_ifs <;> rfl

theorem toNat_sdiv_two (he : 0 ≤ e.toInt) : (e.sdiv 2).toNat = e.toNat / 2 :=
  Loop.next_exp_toNat (p := 0) (L := ⟨0, 0, e⟩) he

theorem sdiv_two_eq_zero_iff (he : 0 ≤ e.toInt) : e.sdiv 2 = 0 ↔ e.toNat / 2 = 0 := by
  rw [← toNat_sdiv_two he, ← BitVec.toNat_inj]
  rfl

theorem length_last_turn (he : 0 < e.toInt) (hz : e.toNat / 2 = 0) :
    (loopTrace c w (n + 1) e).length + 1 = powCost e.toNat := by
  have hnat := toInt_eq_toNat_of_nonneg he.le
  have hone : e = 1 := BitVec.eq_of_toNat_eq (by change e.toNat = 1; omega)
  rw [hone]
  exact powCost_one.symm

/-- The loop leaves out the jump back from its last turn. -/
theorem length_loopTrace (he : 0 < e.toInt) (hn : e.toNat < 2 ^ (n + 1)) :
    (loopTrace c w (n + 1) e).length + 1 = powCost e.toNat := by
  induction n generalizing c e with
  | zero => exact length_last_turn he (by omega)
  | succ n ih =>
    by_cases hdiv : e.toNat / 2 = 0
    · exact length_last_turn he hdiv
    · have hz : ¬ e.sdiv 2 = 0 := fun h => hdiv ((sdiv_two_eq_zero_iff he.le).mp h)
      have hnonneg : 0 ≤ (e.sdiv 2).toInt :=
        Loop.next_exp_nonneg (p := 0) (L := ⟨0, 0, e⟩) (by change -1 ≤ e.toInt; omega)
      have hhalf := toNat_sdiv_two he.le
      have hnat := toInt_eq_toNat_of_nonneg hnonneg
      have hrest := ih (c := w) (e := e.sdiv 2) (by omega) (by omega)
      rw [loopTrace, List.length_append, length_turnTrace, if_neg hz, if_neg hz,
        powCost_half hdiv, ← hhalf, ← hrest]
      split_ifs with hbit
      · have heven := and_one_eq_zero_iff.mp hbit
        omega
      · have hodd := mt and_one_eq_zero_iff.mpr hbit
        omega

end Loop

section Cost
variable {p x : Word} {s : Processor} {n : ℕ}

/-- The loop as the inverse routines enter it. -/
theorem length_inverse_loop {c w : ℕ} (hp : 2 ≤ p.toInt) (hne : p - 2 ≠ 0) :
    (loopTrace c w 63 (p - 2)).length + 1 = powCost (p.toNat - 2) := by
  have he := toInt_exponent (p := p) (by omega)
  have hnn := toInt_eq_toNat_of_nonneg (x := p - 2) (by omega)
  have hpn := toInt_eq_toNat_of_nonneg (x := p) (by omega)
  have hlt := (exponent_loop_bounds (p := p) (by omega)).2
  have hpos : (p - 2).toNat ≠ 0 := fun h => hne (BitVec.eq_of_toNat_eq h)
  rw [length_loopTrace (by omega) (by omega)]
  congr 1
  omega

theorem sub_two_eq_zero_iff (hp : 2 ≤ p.toInt) : p - 2 = 0 ↔ p.toNat = 2 := by
  have he := toInt_exponent (p := p) (by omega)
  have hpn := toInt_eq_toNat_of_nonneg (x := p) (by omega)
  have hz : p - 2 = 0 ↔ (p - 2).toInt = 0 := (BitVec.toInt_inj (y := (0 : Word))).symm
  rw [hz]
  omega

namespace MultInverse

/-- The instructions that the inverse of `x` modulo `P` takes. -/
def cost (P : ℕ) (x : Word) : ℕ :=
  if x = 1 then 6 else if P = 2 then 11 else 10 + powCost (P - 2)

theorem length_trace {k o : ℕ} (hp : 2 ≤ p.toInt) : (trace k o p x).length = cost p.toNat x := by
  unfold trace cost
  split_ifs with hx hz h2 h2
  · simp
  · simp
  · exact absurd ((sub_two_eq_zero_iff hp).mp hz) h2
  · exact absurd ((sub_two_eq_zero_iff hp).mpr h2) hz
  · rw [← length_inverse_loop (c := k + 10) (w := o + 10) hp hz]
    simp only [List.length_append, List.length_range', List.length_singleton]
    omega

end MultInverse

namespace PAdd

/-- The instructions of the subroutine, its return included. -/
def inverseCost (P : ℕ) (x : Word) : ℕ :=
  if x = 1 then 4 else if P = 2 then 7 else 6 + powCost (P - 2)

theorem length_inverseTrace {o : ℕ} (hp : 2 ≤ p.toInt) :
    (inverseTrace o p x).length = inverseCost p.toNat x := by
  unfold inverseTrace inverseCost
  split_ifs with hx hz h2 h2
  · simp
  · simp
  · exact absurd ((sub_two_eq_zero_iff hp).mp hz) h2
  · exact absurd ((sub_two_eq_zero_iff hp).mpr h2) hz
  · rw [← length_inverse_loop (c := o + 31) (w := o + 31) hp hz]
    simp only [List.length_append, List.length_range', List.length_singleton]
    omega

/-- The instructions that the sum takes, branch by branch. -/
def cost (i : Inputs) : ℕ :=
  if i.firstZero then 15
  else if i.secondZero then 19
  else if i.x1 = i.x2 then
    if i.y1 = i.y2 then 41 + inverseCost i.p.toNat i.tangentDenom else 24
  else 39 + inverseCost i.p.toNat i.chordDenom

theorem length_trace {k o : ℕ} {i : Inputs} (hp : 2 ≤ i.p.toInt) :
    (trace k o i).length = cost i := by
  unfold trace bodyTrace cost
  split_ifs <;>
    simp only [List.length_append, List.length_range', List.length_cons, List.length_nil,
      length_inverseTrace hp] <;>
    omega

end PAdd

theorem powCost_exponent_le (hp : 2 ≤ p.toInt) : powCost (p.toNat - 2) ≤ 441 := by
  have hpn := toInt_eq_toNat_of_nonneg (x := p) (by omega)
  have hlt := BitVec.toInt_lt (x := p)
  exact powCost_le (n := 63) (by norm_num at hlt ⊢; omega)

/-- A program that executes the instructions `tr` is at rest after that many, not before. -/
theorem Executes.within_iff {prog : VPUProgram} {tr : List ℕ} {t : Processor}
    (h : Executes prog s tr t) :
    (∃ u, runProgram prog n s = .ok u ∧ prog.instrSize ≤ u.index) ↔ tr.length ≤ n := by
  rw [← h.1.at_rest_iff h.2]
  simp only [machine_halted]
  rfl

/-- The kernels are done after the instructions counted above and not before, and whatever
the operands these are less than five hundred. -/
theorem kernels_cost (s : Processor) (hp : 2 ≤ (s.sram 0).toInt) :
    (∀ n, (∃ t, runProgram MultInverse.program n s = .ok t ∧
        MultInverse.program.instrSize ≤ t.index) ↔
          MultInverse.cost (s.sram 0).toNat (s.sram 1) ≤ n) ∧
      (∀ n, (∃ t, runProgram PAdd.program n s = .ok t ∧ PAdd.program.instrSize ≤ t.index) ↔
        PAdd.cost (PAdd.inputs s) ≤ n) ∧
      MultInverse.cost (s.sram 0).toNat (s.sram 1) ≤ 451 ∧ PAdd.cost (PAdd.inputs s) ≤ 488 := by
  obtain ⟨t, ht, -⟩ := MultInverse.executes s (by omega)
  obtain ⟨u, hu, -⟩ := PAdd.executes s (by omega)
  have hle := powCost_exponent_le hp
  refine ⟨fun n => ?_, fun n => ?_, ?_, ?_⟩
  · rw [ht.within_iff, MultInverse.length_trace hp]
  · rw [hu.within_iff, PAdd.length_trace hp]
  · unfold MultInverse.cost
    split_ifs <;> omega
  · have hinv : ∀ x, PAdd.inverseCost (PAdd.inputs s).p.toNat x ≤ 447 := by
      intro x
      change PAdd.inverseCost (s.sram 0).toNat x ≤ 447
      unfold PAdd.inverseCost
      split_ifs <;> omega
    have htan := hinv (PAdd.inputs s).tangentDenom
    have hchord := hinv (PAdd.inputs s).chordDenom
    unfold PAdd.cost
    split_ifs <;> omega

/-- Two points modulo 37 with distinct abscissas, and the inverse of five. -/
theorem kernels_cost_five :
    (∀ n, (∃ t, runProgram MultInverse.program n (.ofCells [37, 5, 0, -1, 3, 4, 7, 6]) = .ok t ∧
        MultInverse.program.instrSize ≤ t.index) ↔ MultInverse.cost 37 5 ≤ n) ∧
      (∀ n, (∃ t, runProgram PAdd.program n (.ofCells [37, 5, 0, -1, 3, 4, 7, 6]) = .ok t ∧
        PAdd.program.instrSize ≤ t.index) ↔
          PAdd.cost (PAdd.inputs (.ofCells [37, 5, 0, -1, 3, 4, 7, 6])) ≤ n) ∧
      MultInverse.cost 37 5 ≤ 451 ∧
      PAdd.cost (PAdd.inputs (.ofCells [37, 5, 0, -1, 3, 4, 7, 6])) ≤ 488 :=
  kernels_cost (.ofCells [37, 5, 0, -1, 3, 4, 7, 6]) (by decide)

/-- What the instructions of `MultInverse` tell about its argument is whether it is one. -/
theorem multInverse_timing {s' : Processor} (hp : 1 ≤ (s.sram 0).toInt)
    (hs : s'.sram 0 = s.sram 0) :
    (∃ tr t t', Executes MultInverse.program s tr t ∧ Executes MultInverse.program s' tr t') ↔
      (s.sram 1 = 1 ↔ s'.sram 1 = 1) := by
  obtain ⟨t, ht, -⟩ := MultInverse.executes s hp
  obtain ⟨t', ht', -⟩ := MultInverse.executes s' (by rw [hs]; exact hp)
  rw [hs] at ht'
  -- an argument other than one goes on to the instruction at index 5
  have hmem : ∀ x, 5 ∈ MultInverse.trace 0 0 (s.sram 0) x ↔ x ≠ 1 := by
    intro x
    unfold MultInverse.trace
    by_cases hx : x = 1
    · rw [if_pos hx]
      exact iff_of_false (by decide) (not_not.mpr hx)
    · rw [if_neg hx]
      exact iff_of_true (List.mem_append_right _ (List.mem_append_left _ (by decide))) hx
  constructor
  · rintro ⟨tr, u, u', hu, hu'⟩
    obtain ⟨rfl, -⟩ := ht.det hu
    have htr := (ht'.det hu').1
    rw [← not_iff_not, ← ne_eq, ← ne_eq, ← hmem, ← hmem, htr]
  · intro hx
    have htr : MultInverse.trace 0 0 (s.sram 0) (s.sram 1) =
        MultInverse.trace 0 0 (s.sram 0) (s'.sram 1) := by
      simp only [MultInverse.trace, hx]
    rw [htr] at ht
    exact ⟨_, t, t', ht, ht'⟩

theorem multInverse_timing_five :
    (∃ tr t t', Executes MultInverse.program (.ofCells [37, 5]) tr t ∧
        Executes MultInverse.program (.ofCells [37, 7]) tr t') ↔
      ((Processor.ofCells [37, 5]).sram 1 = 1 ↔ (Processor.ofCells [37, 7]).sram 1 = 1) :=
  multInverse_timing (by decide) rfl

end Cost

end Fabric

import Fabric.Inverse
import Fabric.Kernel.PAddRun
import Fabric.Lib.ChordTangent
import Mathlib.Tactic.NormNum.Prime

/-! What a run of `PAdd` computes on finite points, and on swapped operands. -/
namespace Fabric
open Lib Lib.ChordTangent

theorem InField.ne_of_neg {p a z : Word} (ha : InField p a) (hz : z.toInt < 0) : a ≠ z := by
  rintro rfl
  exact absurd ha.1 (not_le.mpr hz)

namespace Inputs
variable {i : Inputs}

theorem not_firstZero (hz : i.z.toInt < 0) (hx : 0 ≤ i.x1.toInt) (hy : 0 ≤ i.y1.toInt) :
    ¬ i.firstZero := by
  intro h
  have hor := toInt_or_nonneg hx hy
  rw [show i.x1 ||| i.y1 = i.z from h] at hor
  omega

theorem not_secondZero (hz : i.z.toInt < 0) (hx : 0 ≤ i.x2.toInt) (hy : 0 ≤ i.y2.toInt) :
    ¬ i.secondZero := by
  intro h
  have hor := toInt_or_nonneg hx hy
  rw [show i.x2 ||| i.y2 = i.z from h] at hor
  omega

section Slope
variable {P : ℕ} [Fact P.Prime]

theorem isSlope_chordSlope (hP : i.p.toInt = P) (h : i.Canonical) (hx : i.x1 ≠ i.x2) :
    IsSlope (res P i.a) (res P i.x1) (res P i.y1) (res P i.x2) (res P i.y2)
      (res P i.chordSlope) := by
  have hx' : res P i.x1 ≠ res P i.x2 := fun h' => hx ((h.x1.eq_iff hP h.x2).mpr h')
  rw [isSlope_chord hx', res_chordSlope hP h, pow_sub_two (sub_ne_zero.mpr hx')]

theorem isSlope_tangentSlope (hP : i.p.toInt = P) (h : i.Canonical) (hx : i.x1 = i.x2)
    (hy : 2 * res P i.y1 ≠ 0) :
    IsSlope (res P i.a) (res P i.x1) (res P i.y1) (res P i.x2) (res P i.y2)
      (res P i.tangentSlope) := by
  rw [isSlope_tangent (by rw [hx]) hy, res_tangentSlope hP h, pow_sub_two hy]

/-- In odd characteristic only ordinate zero has no tangent slope. -/
theorem double_ne_zero (hP : i.p.toInt = P) (h : i.Canonical) (hodd : P ≠ 2) (hy : i.y1 ≠ 0) :
    2 * res P i.y1 ≠ 0 := by
  have h2 : (2 : ZMod P) ≠ 0 := by
    intro h2
    have hdvd : P ∣ 2 := (ZMod.natCast_eq_zero_iff 2 P).mp (by exact_mod_cast h2)
    have hle := Nat.le_of_dvd (by norm_num) hdvd
    have hge := (Fact.out : P.Prime).two_le
    omega
  refine mul_ne_zero h2 fun h0 => hy (BitVec.eq_of_toInt_eq ?_)
  exact h.y1.toInt_eq_zero hP h0

/-- The line that the kernel intersects with the curve. -/
theorem sum_eq_line (hP : i.p.toInt = P) (h : i.Canonical) (hz : i.z.toInt < 0) (hodd : P ≠ 2)
    (hcase : i.x1 = i.x2 → i.y1 = i.y2 ∧ i.y1 ≠ 0) :
    ∃ m, InField i.p m ∧ i.sum = ((i.line m).x3, (i.line m).y3) ∧
      IsSlope (res P i.a) (res P i.x1) (res P i.y1) (res P i.x2) (res P i.y2) (res P m) := by
  have h1 := not_firstZero hz h.x1.1 h.y1.1
  have h2 := not_secondZero hz h.x2.1 h.y2.1
  by_cases hx : i.x1 = i.x2
  · obtain ⟨hy, h0⟩ := hcase hx
    exact ⟨i.tangentSlope, h.tangentSlope hP, sum_tangent h1 h2 hx hy,
      isSlope_tangentSlope hP h hx (double_ne_zero hP h hodd h0)⟩
  · exact ⟨i.chordSlope, h.chordSlope hP, sum_chord h1 h2 hx, isSlope_chordSlope hP h hx⟩

/-- Opposite ordinates are equal on the axis only. -/
theorem opposite_eq_iff (hP : i.p.toInt = P) (h : i.Canonical) (hodd : P ≠ 2)
    (hy : res P i.y1 + res P i.y2 = 0) : i.y1 = i.y2 ↔ i.y1 = 0 := by
  constructor
  · intro he
    by_contra h0
    apply double_ne_zero hP h hodd h0
    rw [← hy, ← he]
    exact two_mul _
  · intro h0
    have hr0 : res P i.y1 = 0 := by rw [h0]; simp [res]
    rw [hr0, zero_add] at hy
    exact h.y1.ext hP h.y2 (hr0.trans hy.symm)

end Slope

/-- Points of one abscissa: a tangent has a canonical result, which is not read as zero. -/
theorem sum_reads_zero_iff {P : ℕ} (hP : i.p.toInt = P) (h : i.Canonical) (hz : i.z.toInt < 0)
    (hx : i.x1 = i.x2) : (i.sum.1 = i.z ∨ i.sum.2 = i.z) ↔ i.y1 ≠ i.y2 := by
  have h1 := not_firstZero hz h.x1.1 h.y1.1
  have h2 := not_secondZero hz h.x2.1 h.y2.1
  by_cases hy : i.y1 = i.y2
  · have hl := h.line (h.tangentSlope hP)
    rw [sum_tangent h1 h2 hx hy]
    refine iff_of_false ?_ (not_not.mpr hy)
    rintro (h' | h')
    · exact hl.x3.ne_of_neg hz h'
    · exact hl.y3.ne_of_neg hz h'
  · rw [sum_opposite h1 h2 hx hy]
    exact iff_of_true (Or.inr rfl) hy

/-- The operands in the other order. -/
def swap (i : Inputs) : Inputs := ⟨i.p, i.a, i.z, i.x2, i.y2, i.x1, i.y1⟩

theorem Canonical.swap (h : i.Canonical) : i.swap.Canonical :=
  ⟨h.p, h.a, h.x2, h.y2, h.x1, h.y1⟩

/-- A chord may be drawn from either end. -/
theorem chord_swap {P : ℕ} [Fact P.Prime] (hP : i.p.toInt = P) (h : i.Canonical)
    (hx : i.x1 ≠ i.x2) :
    ((i.swap.line i.swap.chordSlope).x3, (i.swap.line i.swap.chordSlope).y3) =
      ((i.line i.chordSlope).x3, (i.line i.chordSlope).y3) := by
  have hx' : res P i.x1 ≠ res P i.x2 := fun h' => hx ((h.x1.eq_iff hP h.x2).mpr h')
  have hm := isSlope_chordSlope hP h hx
  have hms := (isSlope_chordSlope (i := i.swap) hP h.swap hx.symm).symm hx'.symm
  have hslope : i.swap.chordSlope = i.chordSlope := by
    refine (h.swap.chordSlope hP).ext hP (h.chordSlope hP) (hms.unique (fun h' => absurd h' hx') hm)
  have hl := h.line (h.chordSlope hP)
  have hls := h.swap.line (h.swap.chordSlope hP)
  have hX : (i.swap.line i.swap.chordSlope).x3 = (i.line i.chordSlope).x3 := by
    refine hls.x3.ext hP hl.x3 ?_
    rw [Line.res_x3 hP hls, Line.res_x3 hP hl, hslope]
    exact thirdX_comm
  have hY : (i.swap.line i.swap.chordSlope).y3 = (i.line i.chordSlope).y3 := by
    refine hls.y3.ext hP hl.y3 ?_
    rw [Line.res_y3 hP hls, Line.res_y3 hP hl, Line.res_x3 hP hls, Line.res_x3 hP hl, hslope]
    exact (thirdY_comm hx' hm).symm
  rw [hX, hY]

/-- The point at infinity, written `(z, z)`, or a pair of canonical coordinates. -/
def Operand (p z x y : Word) : Prop := (x = z ∧ y = z) ∨ (InField p x ∧ InField p y)

theorem firstZero_of_eq (hx : i.x1 = i.z) (hy : i.y1 = i.z) : i.firstZero := by
  rw [firstZero, hx, hy, BitVec.or_self]

theorem secondZero_of_eq (hx : i.x2 = i.z) (hy : i.y2 = i.z) : i.secondZero := by
  rw [secondZero, hx, hy, BitVec.or_self]

theorem sum_swap_finite {P : ℕ} [Fact P.Prime] (hP : i.p.toInt = P) (h : i.Canonical)
    (hz : i.z.toInt < 0) : i.swap.sum = i.sum := by
  have h1 := not_firstZero hz h.x1.1 h.y1.1
  have h2 := not_secondZero hz h.x2.1 h.y2.1
  have h1' : ¬ i.swap.firstZero := h2
  have h2' : ¬ i.swap.secondZero := h1
  by_cases hx : i.x1 = i.x2
  · by_cases hy : i.y1 = i.y2
    · have hswap : i.swap = i := by
        obtain ⟨p, a, z, x1, y1, x2, y2⟩ := i
        simp only at hx hy
        rw [swap, hx, hy]
      rw [hswap]
    · rw [sum_opposite h1 h2 hx hy, sum_opposite h1' h2' hx.symm fun h' => hy h'.symm]
      rfl
  · rw [sum_chord h1 h2 hx, sum_chord h1' h2' fun h' => hx h'.symm]
    exact chord_swap hP h hx

theorem sum_swap {P : ℕ} [Fact P.Prime] (hP : i.p.toInt = P) (hp : SmallModulus i.p)
    (ha : InField i.p i.a) (hz : i.z.toInt < 0) (h1 : Operand i.p i.z i.x1 i.y1)
    (h2 : Operand i.p i.z i.x2 i.y2) : i.swap.sum = i.sum := by
  rcases h1 with ⟨hx1, hy1⟩ | ⟨hx1, hy1⟩ <;> rcases h2 with ⟨hx2, hy2⟩ | ⟨hx2, hy2⟩
  · have hf : i.firstZero := firstZero_of_eq hx1 hy1
    have hf' : i.swap.firstZero := secondZero_of_eq hx2 hy2
    rw [sum_first hf', sum_first hf]
    simp only [swap, hx1, hy1, hx2, hy2]
  · have hf : i.firstZero := firstZero_of_eq hx1 hy1
    have hn : ¬ i.swap.firstZero := not_secondZero hz hx2.1 hy2.1
    have hf' : i.swap.secondZero := hf
    rw [sum_second hn hf', sum_first hf]
    rfl
  · have hs : i.secondZero := secondZero_of_eq hx2 hy2
    have hn : ¬ i.firstZero := not_firstZero hz hx1.1 hy1.1
    have hf' : i.swap.firstZero := hs
    rw [sum_first hf', sum_second hn hs]
    rfl
  · exact sum_swap_finite hP ⟨hp, ha, hx1, hy1, hx2, hy2⟩ hz

end Inputs

namespace PAdd

/-- The cells of `s` hold the modulus `P`, a canonical curve parameter, a negative
EC-zero and two finite points. -/
structure FinitePoints (P : ℕ) (s : Processor) : Prop where
  p : (s.sram 0).toInt = P
  a : InField (s.sram 0) (s.sram 1)
  z : (s.sram 3).toInt < 0
  x1 : InField (s.sram 0) (s.sram 4)
  y1 : InField (s.sram 0) (s.sram 5)
  x2 : InField (s.sram 0) (s.sram 6)
  y2 : InField (s.sram 0) (s.sram 7)

theorem FinitePoints.canonical {P : ℕ} {s : Processor} (h : FinitePoints P s)
    (h2 : 2 ≤ P) (hmax : P ≤ 3037000500) : (inputs s).Canonical :=
  ⟨smallModulus_of_natCast h.p h2 hmax, h.a, h.x1, h.y1, h.x2, h.y2⟩

/-- The two words that a run leaves. -/
theorem executes_sum (s : Processor) (hp : 1 ≤ (s.sram 0).toInt) :
    ∃ t, Executes program s (trace 0 0 (inputs s)) t ∧ t.sram 10 = (inputs s).sum.1 ∧
      t.sram 11 = (inputs s).sum.2 := by
  obtain ⟨t, ht, hsram⟩ := executes s hp
  refine ⟨t, ht, ?_, ?_⟩
  · rw [hsram, Function.update_of_ne (by decide), Function.update_self]
  · rw [hsram, Function.update_self]

/-- Distinct abscissas give the chord, equal points off the axis the tangent. -/
theorem computes_chord_tangent {P : ℕ} (hprime : P.Prime) (h3 : 3 ≤ P) (hmax : P ≤ 3037000500)
    {s : Processor} (h : FinitePoints P s)
    (hcase : s.sram 4 ≠ s.sram 6 ∨
      s.sram 4 = s.sram 6 ∧ s.sram 5 = s.sram 7 ∧ s.sram 5 ≠ 0) :
    ∃ prog, generate .empty = some prog ∧ ∃ t, Returns prog s t ∧
      InField (s.sram 0) (t.sram 10) ∧ InField (s.sram 0) (t.sram 11) ∧
      ∃ m : ZMod P, (∀ m', IsSlope (res P (s.sram 1)) (res P (s.sram 4)) (res P (s.sram 5))
          (res P (s.sram 6)) (res P (s.sram 7)) m' ↔ m' = m) ∧
        res P (t.sram 10) = m ^ 2 - res P (s.sram 4) - res P (s.sram 6) ∧
        res P (t.sram 11) = m * (res P (s.sram 4) - res P (t.sram 10)) - res P (s.sram 5) := by
  have : Fact P.Prime := ⟨hprime⟩
  have hi := h.canonical (by omega) hmax
  have hodd : P ≠ 2 := by omega
  have hcase' : s.sram 4 = s.sram 6 → s.sram 5 = s.sram 7 ∧ s.sram 5 ≠ 0 := by
    intro hx
    rcases hcase with hne | ⟨-, hy⟩
    · exact absurd hx hne
    · exact hy
  obtain ⟨m, hm, hsum, hslope⟩ := Inputs.sum_eq_line h.p hi h.z hodd hcase'
  obtain ⟨t, ht, h10, h11⟩ := executes_sum s (by have := h.p; omega)
  rw [hsum] at h10 h11
  have hl := hi.line hm
  refine ⟨_, generate_empty, t, ht.returns, by rw [h10]; exact hl.x3, by rw [h11]; exact hl.y3,
    res P m, ?_, ?_, ?_⟩
  · intro m'
    constructor
    · intro h'
      refine h'.unique (fun hx => ?_) hslope
      have hxw : s.sram 4 = s.sram 6 := (h.x1.eq_iff h.p h.x2).mpr hx
      exact Inputs.double_ne_zero h.p hi hodd (hcase' hxw).2
    · rintro rfl
      exact hslope
  · rw [h10]
    exact Line.res_x3 h.p hl
  · rw [h10, h11]
    exact Line.res_y3 h.p hl

theorem finitePoints_six : FinitePoints 37 (.ofCells [37, 0, 0, -1, 6, 1, 8, 1]) :=
  ⟨rfl, by decide, by decide, by decide, by decide, by decide, by decide⟩

theorem computes_chord_six :
    ∃ prog, generate .empty = some prog ∧
      ∃ t, Returns prog (.ofCells [37, 0, 0, -1, 6, 1, 8, 1]) t ∧
      InField 37 (t.sram 10) ∧ InField 37 (t.sram 11) ∧
      ∃ m : ZMod 37, (∀ m', IsSlope (res 37 0) (res 37 6) (res 37 1) (res 37 8) (res 37 1) m' ↔
          m' = m) ∧
        res 37 (t.sram 10) = m ^ 2 - res 37 6 - res 37 8 ∧
        res 37 (t.sram 11) = m * (res 37 6 - res 37 (t.sram 10)) - res 37 1 :=
  computes_chord_tangent (by norm_num) (by norm_num) (by norm_num) finitePoints_six
    (Or.inl (by decide))

/-- Opposite points: the result reads as zero unless the point has order two. -/
theorem opposite_reads_zero_iff {P : ℕ} (hprime : P.Prime) (hodd : P ≠ 2) (hmax : P ≤ 3037000500)
    {s : Processor} (h : FinitePoints P s) (hx : s.sram 4 = s.sram 6)
    (hy : res P (s.sram 5) + res P (s.sram 7) = 0) :
    ∃ prog, generate .empty = some prog ∧ ∃ t, Returns prog s t ∧
      ((t.sram 10 = s.sram 3 ∨ t.sram 11 = s.sram 3) ↔ s.sram 5 ≠ 0) := by
  have : Fact P.Prime := ⟨hprime⟩
  have hp2 := hprime.two_le
  have hi := h.canonical hp2 hmax
  obtain ⟨t, ht, h10, h11⟩ := executes_sum s (by have := h.p; omega)
  refine ⟨_, generate_empty, t, ht.returns, ?_⟩
  rw [h10, h11]
  exact (Inputs.sum_reads_zero_iff h.p hi h.z hx).trans
    (not_congr (Inputs.opposite_eq_iff h.p hi hodd hy))

theorem opposite_reads_zero_six :
    ∃ prog, generate .empty = some prog ∧
      ∃ t, Returns prog (.ofCells [37, 0, 7, -1, 6, 1, 6, 36]) t ∧
      ((t.sram 10 = -1 ∨ t.sram 11 = -1) ↔ (1 : Word) ≠ 0) :=
  opposite_reads_zero_iff (P := 37) (by norm_num) (by norm_num) (by norm_num)
    ⟨rfl, by decide, by decide, by decide, by decide, by decide, by decide⟩ rfl (by decide)

/-- The origin is a point of order two of `y ^ 2 = x ^ 3 + x` modulo five, and its
double comes out as the origin again. -/
theorem order_two_not_zero :
    (5 : ℕ).Prime ∧ FinitePoints 5 (.ofCells [5, 1, 0, -1, 0, 0, 0, 0]) ∧
      (0 : ZMod 5) ^ 2 = 0 ^ 3 + 1 * 0 + 0 ∧
      ∃ t, Returns program (.ofCells [5, 1, 0, -1, 0, 0, 0, 0]) t ∧
        ¬ (t.sram 10 = -1 ∨ t.sram 11 = -1) := by
  refine ⟨by norm_num, ⟨rfl, by decide, by decide, by decide, by decide, by decide, by decide⟩,
    by decide, ?_⟩
  obtain ⟨t, ht, h10, h11⟩ := executes_sum (.ofCells [5, 1, 0, -1, 0, 0, 0, 0]) (by decide)
  refine ⟨t, ht.returns, ?_⟩
  rw [h10, h11]
  decide

/-- Swapped operands leave the same words. -/
theorem sum_comm {P : ℕ} (hprime : P.Prime) (hmax : P ≤ 3037000500) {s s' : Processor}
    (hP : (s.sram 0).toInt = P) (ha : InField (s.sram 0) (s.sram 1)) (hz : (s.sram 3).toInt < 0)
    (h1 : Inputs.Operand (s.sram 0) (s.sram 3) (s.sram 4) (s.sram 5))
    (h2 : Inputs.Operand (s.sram 0) (s.sram 3) (s.sram 6) (s.sram 7))
    (hs : inputs s' = (inputs s).swap) :
    ∃ prog, generate .empty = some prog ∧ ∃ t t', Returns prog s t ∧ Returns prog s' t' ∧
      t.sram 10 = t'.sram 10 ∧ t.sram 11 = t'.sram 11 := by
  have : Fact P.Prime := ⟨hprime⟩
  have hp := smallModulus_of_natCast hP hprime.two_le hmax
  have h0 : s'.sram 0 = s.sram 0 := congrArg Inputs.p hs
  have hpos := hp.pos
  obtain ⟨t, ht, h10, h11⟩ := executes_sum s (by omega)
  obtain ⟨t', ht', h10', h11'⟩ := executes_sum s' (by rw [h0]; omega)
  have hsum : (inputs s').sum = (inputs s).sum := by
    rw [hs]
    exact Inputs.sum_swap hP hp ha hz h1 h2
  refine ⟨_, generate_empty, t, t', ht.returns, ht'.returns, ?_, ?_⟩
  · rw [h10, h10', hsum]
  · rw [h11, h11', hsum]

theorem sum_comm_six :
    ∃ prog, generate .empty = some prog ∧
      ∃ t t', Returns prog (.ofCells [37, 0, 7, -1, 6, 1, 8, 1]) t ∧
      Returns prog (.ofCells [37, 0, 7, -1, 8, 1, 6, 1]) t' ∧
      t.sram 10 = t'.sram 10 ∧ t.sram 11 = t'.sram 11 :=
  sum_comm (P := 37) (by norm_num) (by norm_num) rfl (by decide) (by decide)
    (Or.inr (by decide)) (Or.inr (by decide)) rfl

end PAdd
end Fabric

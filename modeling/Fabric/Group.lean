import Fabric.Addition
import Fabric.Lib.AdditionChain

/-! Chains of `PAdd` runs compute in the group of the curve, results fed back included. -/
namespace Fabric.PAdd
open Lib Lib.ChordTangent WeierstrassCurve

/-- The cells of `s` hold the modulus, the curve parameter and EC-zero. -/
structure Loads (p a z : Word) (s : Processor) : Prop where
  p : s.sram 0 = p
  a : s.sram 1 = a
  z : s.sram 3 = z

/-- A run that adds the pair to an operand returns the operand. As the second pair
it is looked at if the first one is not zero. -/
structure TreatedAsZero (p a z : Word) (q : Word × Word) : Prop where
  first : ∀ s, Loads p a z s → (s.sram 4, s.sram 5) = q →
    ∃ t, Returns program s t ∧ (t.sram 10, t.sram 11) = (s.sram 6, s.sram 7)
  second : ∀ s, Loads p a z s → (s.sram 6, s.sram 7) = q → ¬ (inputs s).firstZero →
    ∃ t, Returns program s t ∧ (t.sram 10, t.sram 11) = (s.sram 4, s.sram 5)

/-- A run with operands `q` and `q'` leaves the pair `r`. -/
def RunSum (p a z : Word) (q q' r : Word × Word) : Prop :=
  ∃ s t, Loads p a z s ∧ (s.sram 4, s.sram 5) = q ∧ (s.sram 6, s.sram 7) = q' ∧
    Returns program s t ∧ (t.sram 10, t.sram 11) = r

/-- A canonical point of the curve with parameters `a` and `b`. -/
structure CurvePoint (P : ℕ) (p a : Word) (b : ZMod P) where
  x : Word
  y : Word
  x_mem : InField p x
  y_mem : InField p y
  equation : res P y ^ 2 = res P x ^ 3 + res P a * res P x + b

def CurvePoint.words {P : ℕ} {p a : Word} {b : ZMod P} (Q : CurvePoint P p a b) : Word × Word :=
  (Q.x, Q.y)

section Zero
variable {p a z : Word} {q : Word × Word}

theorem treatedAsZero_of_or (hp : 1 ≤ p.toInt) (hq : q.1 ||| q.2 = z) : TreatedAsZero p a z q where
  first s hs h := by
    obtain ⟨t, ht, h10, h11⟩ := executes_sum s (by rw [hs.p]; exact hp)
    have hf : (inputs s).firstZero := by
      rw [← h, ← hs.z] at hq
      exact hq
    refine ⟨t, ht.returns, ?_⟩
    rw [h10, h11, Inputs.sum_first hf]
    rfl
  second s hs h hf := by
    obtain ⟨t, ht, h10, h11⟩ := executes_sum s (by rw [hs.p]; exact hp)
    have hf2 : (inputs s).secondZero := by
      rw [← h, ← hs.z] at hq
      exact hq
    refine ⟨t, ht.returns, ?_⟩
    rw [h10, h11, Inputs.sum_second hf hf2]
    rfl

end Zero

section Points
variable {P : ℕ} [Fact P.Prime] {p a z : Word} {b : ZMod P}

/-- The group of the curve. -/
abbrev Point (P : ℕ) (a : Word) (b : ZMod P) [Fact P.Prime] : Type :=
  (curve (res P a) b).toAffine.Point

open Classical in
/-- The element of the group, for a nonsingular point. -/
noncomputable def CurvePoint.toPoint (Q : CurvePoint P p a b) : Point P a b :=
  if h : (curve (res P a) b).toAffine.Nonsingular (res P Q.x) (res P Q.y) then .some _ _ h else 0

/-- The pair is read as zero, or it is a canonical point of the curve. -/
def Represents (p a z : Word) (b : ZMod P) (q : Word × Word) (Q : Point P a b) : Prop :=
  (Q = 0 ∧ TreatedAsZero p a z q) ∨
    (InField p q.1 ∧ InField p q.2 ∧ ∃ h, Q = .some (res P q.1) (res P q.2) h)

/-- Without roots of the cubic no point lies on the axis. -/
theorem ordinate_ne_zero (hroot : ∀ x : ZMod P, x ^ 3 + res P a * x + b ≠ 0) {x y : ZMod P}
    (h : y ^ 2 = x ^ 3 + res P a * x + b) : y ≠ 0 := by
  rintro rfl
  exact hroot x (by rw [← h]; ring)

theorem represents_point (hP : p.toInt = P) (hp : SmallModulus p) (ha : InField p a)
    (hodd : P ≠ 2) (hroot : ∀ x : ZMod P, x ^ 3 + res P a * x + b ≠ 0)
    (Q : CurvePoint P p a b) : Represents p a z b Q.words Q.toPoint := by
  have hy0 : Q.y ≠ 0 := by
    intro h
    refine ordinate_ne_zero hroot Q.equation ?_
    rw [h, res]
    simp
  have hi : (Inputs.mk p a z Q.x Q.y Q.x Q.y).Canonical :=
    ⟨hp, ha, Q.x_mem, Q.y_mem, Q.x_mem, Q.y_mem⟩
  have hns := nonsingular_curve Q.equation (Inputs.double_ne_zero hP hi hodd hy0)
  refine Or.inr ⟨Q.x_mem, Q.y_mem, hns, ?_⟩
  exact dif_pos hns

section Finite
variable {i : Inputs} (hP : i.p.toInt = P) (h : i.Canonical) (hz : i.z.toInt < 0)
  (h1 : (curve (res P i.a) b).toAffine.Nonsingular (res P i.x1) (res P i.y1))
  (h2 : (curve (res P i.a) b).toAffine.Nonsingular (res P i.x2) (res P i.y2))
include hP h hz

/-- Opposite points: the pair `(P, z)` is read as zero. -/
theorem represents_opposite (hpz : i.p ||| i.z = i.z) (hx : i.x1 = i.x2) (hy : i.y1 ≠ i.y2) :
    Represents i.p i.a i.z b i.sum (.some _ _ h1 + .some _ _ h2) := by
  have hx' : res P i.x1 = res P i.x2 := by rw [hx]
  have hneg : res P i.y1 = -res P i.y2 :=
    (eq_or_eq_neg (equation_curve.mp h1.1) (equation_curve.mp h2.1) hx').resolve_left
      fun h' => hy (h.y1.ext hP h.y2 h')
  refine Or.inl ⟨some_add_opposite h1 h2 hx' hneg, ?_⟩
  rw [Inputs.sum_opposite (Inputs.not_firstZero hz h.x1.1 h.y1.1)
    (Inputs.not_secondZero hz h.x2.1 h.y2.1) hx hy]
  exact treatedAsZero_of_or (by have := h.p.pos; omega) hpz

/-- Other points: the pair is the third point of the line, reflected. -/
theorem represents_line (hodd : P ≠ 2) (hcase : i.x1 = i.x2 → i.y1 = i.y2 ∧ i.y1 ≠ 0) :
    Represents i.p i.a i.z b i.sum (.some _ _ h1 + .some _ _ h2) := by
  obtain ⟨m, hm, hsum, hslope⟩ := Inputs.sum_eq_line hP h hz hodd hcase
  have hl := h.line hm
  obtain ⟨h3, hadd⟩ := some_add_some h1 h2 (fun hx => by
    have hxw := (h.x1.eq_iff hP h.x2).mpr hx
    exact ⟨by rw [(hcase hxw).1], Inputs.double_ne_zero hP h hodd (hcase hxw).2⟩) hslope
  have hX := Line.res_x3 hP hl
  have hY := Line.res_y3 hP hl
  rw [hX] at hY
  have h3' : (curve (res P i.a) b).toAffine.Nonsingular (res P (i.line m).x3)
      (res P (i.line m).y3) := by
    rw [hX, hY]
    exact h3
  rw [hsum]
  refine Or.inr ⟨hl.x3, hl.y3, h3', hadd.trans ?_⟩
  congr 1
  · exact hX.symm
  · exact hY.symm

/-- Two finite points: the stored pair represents their sum. -/
theorem represents_sum_finite (hpz : i.p ||| i.z = i.z) (hodd : P ≠ 2)
    (hroot : ∀ x : ZMod P, x ^ 3 + res P i.a * x + b ≠ 0) :
    Represents i.p i.a i.z b i.sum (.some _ _ h1 + .some _ _ h2) := by
  have hy0 : i.y1 ≠ 0 := by
    intro h0
    refine ordinate_ne_zero hroot (equation_curve.mp h1.1) ?_
    rw [h0, res]
    simp
  by_cases hopp : i.x1 = i.x2 ∧ i.y1 ≠ i.y2
  · exact represents_opposite hP h hz h1 h2 hpz hopp.1 hopp.2
  · refine represents_line hP h hz h1 h2 hodd fun hx => ⟨?_, hy0⟩
    by_contra hy
    exact hopp ⟨hx, hy⟩

end Finite

/-- One run adds what its operands represent. -/
theorem runSum_represents (hP : p.toInt = P) (hp : SmallModulus p) (ha : InField p a)
    (hz : z.toInt < 0) (hpz : p ||| z = z) (hodd : P ≠ 2)
    (hroot : ∀ x : ZMod P, x ^ 3 + res P a * x + b ≠ 0) (q q' r : Word × Word)
    (Q Q' : Point P a b) (hq : Represents p a z b q Q) (hq' : Represents p a z b q' Q')
    (h : RunSum p a z q q' r) : Represents p a z b r (Q + Q') := by
  obtain ⟨s, t, hs, h1, h2, ht, rfl⟩ := h
  rcases hq with ⟨rfl, hzero⟩ | ⟨hx1, hy1, hns1, rfl⟩
  · obtain ⟨t', ht', hout⟩ := hzero.first s hs h1
    cases ht.det ht'
    rw [hout, h2, zero_add]
    exact hq'
  have hf : ¬ (inputs s).firstZero := by
    refine Inputs.not_firstZero (by rw [show (inputs s).z = z from hs.z]; exact hz) ?_ ?_
    · rw [show (inputs s).x1 = q.1 from congrArg Prod.fst h1]
      exact hx1.1
    · rw [show (inputs s).y1 = q.2 from congrArg Prod.snd h1]
      exact hy1.1
  rcases hq' with ⟨rfl, hzero⟩ | ⟨hx2, hy2, hns2, rfl⟩
  · obtain ⟨t', ht', hout⟩ := hzero.second s hs h2 hf
    cases ht.det ht'
    rw [hout, h1, add_zero]
    exact Or.inr ⟨hx1, hy1, hns1, rfl⟩
  · have hin : inputs s = ⟨p, a, z, q.1, q.2, q'.1, q'.2⟩ := by
      rw [← h1, ← h2, ← hs.p, ← hs.a, ← hs.z]
      rfl
    obtain ⟨t', ht', h10, h11⟩ := executes_sum s (by rw [hs.p]; have := hp.pos; omega)
    cases ht.det ht'.returns
    rw [h10, h11, hin]
    exact represents_sum_finite (i := ⟨p, a, z, q.1, q.2, q'.1, q'.2⟩) hP
      ⟨hp, ha, hx1, hy1, hx2, hy2⟩ hz hns1 hns2 hpz hodd hroot

end Points

/-- Every result of a chain is a canonical point or read as zero, and represents its
value in the group; an addition chain over one point computes its multiples. -/
theorem chain_computes {P : ℕ} [Fact P.Prime] (h5 : 5 ≤ P) (hmax : P ≤ 3037000500) {p a : Word}
    (hP : p.toInt = P) (ha : InField p a) {b : ZMod P}
    (hroot : ∀ x : ZMod P, x ^ 3 + res P a * x + b ≠ 0) :
    (∀ s, Loads p a (-1) s → ∃ t, Returns program s t) ∧
    (∀ (calls : List (Chain.Term (CurvePoint P p a b) × Chain.Term (CurvePoint P p a b)))
        (rs : List (Word × Word)),
      Chain.Results (-1, -1) CurvePoint.words (RunSum p a (-1)) calls rs →
      List.Forall₂ (Represents p a (-1) b) rs (Chain.values CurvePoint.toPoint calls)) ∧
    ∀ (G : CurvePoint P p a b) (calls : List (Chain.Term Unit × Chain.Term Unit))
        (rs : List (Word × Word)),
      Chain.Results (-1, -1) (fun _ => G.words) (RunSum p a (-1)) calls rs →
      List.Forall₂ (Represents p a (-1) b) rs
        ((Chain.values (fun _ => (1 : ℕ)) calls).map (· • G.toPoint)) := by
  have hp := smallModulus_of_natCast hP (by omega) hmax
  have hodd : P ≠ 2 := by omega
  have hpos : 1 ≤ p.toInt := by omega
  have hz : ((-1 : Word)).toInt < 0 := by decide
  have hor (x : Word) : x ||| -1 = -1 := BitVec.or_allOnes
  have hzero : Represents p a (-1) b (-1, -1) 0 :=
    Or.inl ⟨rfl, treatedAsZero_of_or hpos (hor _)⟩
  have hop := runSum_represents (b := b) hP hp ha hz (hor p) hodd hroot
  refine ⟨?_, ?_, ?_⟩
  · intro s hs
    obtain ⟨t, ht, -⟩ := executes s (by rw [hs.p]; exact hpos)
    exact ⟨t, ht.returns⟩
  · intro calls rs h
    exact h.represents hzero (represents_point hP hp ha hodd hroot) hop
  · intro G calls rs h
    rw [← Chain.values_const]
    exact h.represents hzero (fun _ => represents_point hP hp ha hodd hroot G) hop

instance fact_prime_five : Fact (Nat.Prime 5) := ⟨by norm_num⟩

/-- The curve `y ^ 2 = x ^ 3 + x + 1` modulo five. -/
theorem chain_computes_five :
    (∀ s, Loads 5 1 (-1) s → ∃ t, Returns program s t) ∧
    (∀ (calls : List (Chain.Term (CurvePoint 5 5 1 1) × Chain.Term (CurvePoint 5 5 1 1)))
        (rs : List (Word × Word)),
      Chain.Results (-1, -1) CurvePoint.words (RunSum 5 1 (-1)) calls rs →
      List.Forall₂ (Represents 5 1 (-1) 1) rs (Chain.values CurvePoint.toPoint calls)) ∧
    ∀ (G : CurvePoint 5 5 1 1) (calls : List (Chain.Term Unit × Chain.Term Unit))
        (rs : List (Word × Word)),
      Chain.Results (-1, -1) (fun _ => G.words) (RunSum 5 1 (-1)) calls rs →
      List.Forall₂ (Represents 5 1 (-1) 1) rs
        ((Chain.values (fun _ => (1 : ℕ)) calls).map (· • G.toPoint)) :=
  chain_computes (P := 5) (by norm_num) (by norm_num) rfl (by decide) (by decide)

end Fabric.PAdd

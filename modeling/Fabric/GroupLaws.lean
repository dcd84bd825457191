import Fabric.Group

/-! The laws of the group of the curve, as a host sees them that adds points up by runs of
`PAdd`, and the one pair of points that the kernel does not add. -/
namespace Fabric.PAdd
open Lib Lib.ChordTangent WeierstrassCurve

theorem CurvePoint.eq_of_words {P : ℕ} {p a : Word} {b : ZMod P} {R R' : CurvePoint P p a b}
    (hx : R.x = R'.x) (hy : R.y = R'.y) : R = R' := by
  cases R
  cases R'
  cases hx
  cases hy
  rfl

/-- A point that a host has: of the curve, or zero. -/
abbrev HostPoint (P : ℕ) (p a : Word) (b : ZMod P) := Option (CurvePoint P p a b)

/-- The pair that the host writes for it. -/
def HostPoint.words {P : ℕ} {p a : Word} {b : ZMod P} : HostPoint P p a b → Word × Word
  | none => (-1, -1)
  | some Q => Q.words

section Orders
variable {P : ℕ} [Fact P.Prime] {p a z : Word} {b : ZMod P} {q q' r : Word × Word}

noncomputable def HostPoint.toPoint : HostPoint P p a b → Point P a b
  | none => 0
  | some Q => Q.toPoint

theorem represents_host (hP : p.toInt = P) (hp : SmallModulus p) (ha : InField p a)
    (hodd : P ≠ 2) (hroot : ∀ x : ZMod P, x ^ 3 + res P a * x + b ≠ 0) (Q : HostPoint P p a b) :
    Represents p a (-1) b Q.words Q.toPoint := by
  cases Q with
  | none =>
    have hpos := hp.pos
    exact Or.inl ⟨rfl, treatedAsZero_of_or (by omega) (BitVec.or_self)⟩
  | some Q => exact represents_point hP hp ha hodd hroot Q

/-- An element has one canonical pair, zero has pairs that are read as zero. -/
theorem Represents.eq_or_zero (hP : p.toInt = P) {Q : Point P a b}
    (h : Represents p a z b q Q) (h' : Represents p a z b q' Q) :
    q = q' ∨ Q = 0 ∧ TreatedAsZero p a z q ∧ TreatedAsZero p a z q' := by
  rcases h with ⟨rfl, hzero⟩ | ⟨hx, hy, hns, rfl⟩
  · rcases h' with ⟨-, hzero'⟩ | ⟨-, -, hns', heq⟩
    · exact Or.inr ⟨rfl, hzero, hzero'⟩
    · exact absurd heq.symm (Affine.Point.some_ne_zero hns')
  · rcases h' with ⟨heq, -⟩ | ⟨hx', hy', hns', heq⟩
    · exact absurd heq (Affine.Point.some_ne_zero hns)
    · obtain ⟨hX, hY⟩ := Affine.Point.some.inj heq
      exact Or.inl (Prod.ext (hx.ext hP hx' hX) (hy.ext hP hy' hY))

theorem exists_runSum (hpos : 1 ≤ p.toInt) (q q' : Word × Word) : ∃ r, RunSum p a z q q' r := by
  let s : Processor := .ofCells [p, a, 0, z, q.1, q.2, q'.1, q'.2]
  obtain ⟨t, ht, -⟩ := executes s hpos
  exact ⟨_, s, t, ⟨rfl, rfl, rfl⟩, rfl, rfl, ht.returns, rfl⟩

/-- The points have one abscissa, and ordinates that add up to the modulus. -/
structure Opposite (R R' : CurvePoint P p a b) : Prop where
  x : R'.x = R.x
  y : R'.y = p - R.y

/-- Without roots of the cubic every point of the curve is nonsingular. -/
theorem CurvePoint.nonsingular (hP : p.toInt = P) (hp : SmallModulus p) (ha : InField p a)
    (hodd : P ≠ 2) (hroot : ∀ x : ZMod P, x ^ 3 + res P a * x + b ≠ 0) (R : CurvePoint P p a b) :
    (curve (res P a) b).toAffine.Nonsingular (res P R.x) (res P R.y) := by
  have hy0 : R.y ≠ 0 := by
    intro h
    refine ordinate_ne_zero hroot R.equation ?_
    rw [h, res]
    simp
  have hi : (Inputs.mk p a (-1) R.x R.y R.x R.y).Canonical :=
    ⟨hp, ha, R.x_mem, R.y_mem, R.x_mem, R.y_mem⟩
  exact nonsingular_curve R.equation (Inputs.double_ne_zero hP hi hodd hy0)

theorem CurvePoint.toPoint_eq {R : CurvePoint P p a b}
    (h : (curve (res P a) b).toAffine.Nonsingular (res P R.x) (res P R.y)) :
    R.toPoint = .some _ _ h := dif_pos h

theorem Opposite.toPoint_add (hP : p.toInt = P) (hp : SmallModulus p) (ha : InField p a)
    (hodd : P ≠ 2) (hroot : ∀ x : ZMod P, x ^ 3 + res P a * x + b ≠ 0) {R R' : CurvePoint P p a b}
    (h : Opposite R R') : R.toPoint + R'.toPoint = 0 := by
  have hns := R.nonsingular hP hp ha hodd hroot
  have hns' := R'.nonsingular hP hp ha hodd hroot
  have hX : res P R.x = res P R'.x := by rw [h.x]
  have hfits := hp.fits_sub (within_self hp) R.y_mem.within
  have hY : res P R.y = -res P R'.y := by
    rw [h.y, res, res, toInt_sub_of_fits hfits, Int.cast_sub, hP]
    simp
  rw [CurvePoint.toPoint_eq hns, CurvePoint.toPoint_eq hns']
  exact some_add_opposite hns hns' hX hY

end Orders

/-- The runs of a host that adds points up in the order and with the brackets of a tree. -/
abbrev TreeSum {P : ℕ} (p a : Word) {b : ZMod P} :
    Chain.Tree (HostPoint P p a b) → Word × Word → Prop :=
  Chain.Tree.Computes HostPoint.words (RunSum p a (-1))

/-- However a host orders and brackets the points that it adds up, it ends with the same
pair, or each time with one that is read as zero. -/
theorem sum_any_order {P : ℕ} [Fact P.Prime] (h5 : 5 ≤ P) (hmax : P ≤ 3037000500) {p a : Word}
    (hP : p.toInt = P) (ha : InField p a) {b : ZMod P}
    (hroot : ∀ x : ZMod P, x ^ 3 + res P a * x + b ≠ 0) {t t' : Chain.Tree (HostPoint P p a b)}
    (hperm : t.leaves.Perm t'.leaves) :
    (∃ r, TreeSum p a t r) ∧ ∀ r r', TreeSum p a t r → TreeSum p a t' r' →
      r = r' ∨ TreatedAsZero p a (-1) r ∧ TreatedAsZero p a (-1) r' := by
  have hp := smallModulus_of_natCast hP (by omega) hmax
  have hop := runSum_represents (b := b) hP hp ha (z := -1) (by decide) BitVec.or_allOnes
    (by omega) hroot
  have hhost := represents_host hP hp ha (by omega) hroot
  refine ⟨Chain.Tree.exists_computes (exists_runSum (by omega)) t, fun r r' h h' => ?_⟩
  have hr := h.represents hhost hop
  have hr' := h'.represents hhost hop
  rw [← (hperm.map HostPoint.toPoint).sum_eq] at hr'
  exact (hr.eq_or_zero hP hr').imp_right And.right

/-- Points of the curve `y ^ 2 = x ^ 3 + x + 1` modulo five, the last two opposite. -/
def twoOne : CurvePoint 5 5 1 1 := ⟨2, 1, by decide, by decide, by decide⟩

def zeroOne : CurvePoint 5 5 1 1 := ⟨0, 1, by decide, by decide, by decide⟩

def zeroFour : CurvePoint 5 5 1 1 := ⟨0, 4, by decide, by decide, by decide⟩

/-- Three points, and the last one moved to the front. -/
theorem sum_any_order_five :
    (∃ r, TreeSum 5 1 (.add (.add (.leaf (some zeroOne)) (.leaf (some twoOne)))
        (.leaf (some zeroFour))) r) ∧
      ∀ r r', TreeSum 5 1 (.add (.add (.leaf (some zeroOne)) (.leaf (some twoOne)))
          (.leaf (some zeroFour))) r →
        TreeSum 5 1 (.add (.leaf (some zeroFour)) (.add (.leaf (some zeroOne))
          (.leaf (some twoOne)))) r' →
        r = r' ∨ TreatedAsZero 5 1 (-1) r ∧ TreatedAsZero 5 1 (-1) r' :=
  sum_any_order (P := 5) (by norm_num) (by norm_num) rfl (by decide) (by decide)
    (show ([_, _] ++ [_]).Perm ([_] ++ [_, _]) from List.perm_append_comm)

/-- A point can be added and then taken away again, and this leaves the other one. -/
theorem sum_cancel {P : ℕ} [Fact P.Prime] (h5 : 5 ≤ P) (hmax : P ≤ 3037000500) {p a : Word}
    (hP : p.toInt = P) (ha : InField p a) {b : ZMod P}
    (hroot : ∀ x : ZMod P, x ^ 3 + res P a * x + b ≠ 0) {Q : HostPoint P p a b}
    {R R' : CurvePoint P p a b} (h : Opposite R R') :
    (∃ r r', RunSum p a (-1) Q.words R.words r ∧ RunSum p a (-1) r R'.words r') ∧
      ∀ r r', RunSum p a (-1) Q.words R.words r → RunSum p a (-1) r R'.words r' →
        r' = Q.words ∨ Q = none ∧ TreatedAsZero p a (-1) r' := by
  have hp := smallModulus_of_natCast hP (by omega) hmax
  have hodd : P ≠ 2 := by omega
  have hrun := exists_runSum (p := p) (a := a) (z := -1) (by omega)
  refine ⟨?_, fun r r' hr hr' => ?_⟩
  · obtain ⟨r, hr⟩ := hrun Q.words R.words
    obtain ⟨r', hr'⟩ := hrun r R'.words
    exact ⟨r, r', hr, hr'⟩
  · have hop := runSum_represents (b := b) hP hp ha (z := -1) (by decide) BitVec.or_allOnes
      hodd hroot
    have hQ := represents_host hP hp ha hodd hroot Q
    have hsum := hop _ _ _ _ _ hQ (represents_point hP hp ha hodd hroot R) hr
    have hback := hop _ _ _ _ _ hsum (represents_point hP hp ha hodd hroot R') hr'
    rw [add_assoc, h.toPoint_add hP hp ha hodd hroot, add_zero] at hback
    rcases hback.eq_or_zero hP hQ with heq | ⟨hzero, htreated, -⟩
    · exact Or.inl heq
    · cases Q with
      | none => exact Or.inr ⟨rfl, htreated⟩
      | some Q =>
        have hns := Q.nonsingular hP hp ha hodd hroot
        exact absurd ((CurvePoint.toPoint_eq hns).symm.trans hzero)
          (Affine.Point.some_ne_zero hns)

theorem sum_cancel_five :
    (∃ r r', RunSum 5 1 (-1) (2, 1) zeroOne.words r ∧ RunSum 5 1 (-1) r zeroFour.words r') ∧
      ∀ r r', RunSum 5 1 (-1) (2, 1) zeroOne.words r → RunSum 5 1 (-1) r zeroFour.words r' →
        r' = (2, 1) ∨ (some twoOne : HostPoint 5 5 1 1) = none ∧ TreatedAsZero 5 1 (-1) r' :=
  sum_cancel (P := 5) (Q := some twoOne) (by norm_num) (by norm_num) rfl (by decide) (by decide)
    (show Opposite zeroOne zeroFour from ⟨rfl, rfl⟩)

section Exact
variable {P : ℕ} [Fact P.Prime] {p a z : Word} {b : ZMod P} {q q' r : Word × Word}

/-- A run leaves the sum of its operands as words. -/
theorem RunSum.eq_sum (hpos : 1 ≤ p.toInt) (h : RunSum p a z q q' r) :
    r = (Inputs.mk p a z q.1 q.2 q'.1 q'.2).sum := by
  obtain ⟨s, t, hs, h1, h2, ht, rfl⟩ := h
  have hin : inputs s = ⟨p, a, z, q.1, q.2, q'.1, q'.2⟩ := by
    rw [← h1, ← h2, ← hs.p, ← hs.a, ← hs.z]
    rfl
  obtain ⟨t', ht', h10, h11⟩ := executes_sum s (by rw [hs.p]; exact hpos)
  cases ht.det ht'.returns
  rw [h10, h11, hin]

/-- A canonical pair is not read as zero. -/
theorem not_treatedAsZero {x y : Word} (hpos : 1 ≤ p.toInt) (hz : z.toInt < 0)
    (hx : 0 ≤ x.toInt) (hy : 0 ≤ y.toInt) : ¬ TreatedAsZero p a z (x, y) := by
  intro h
  let s : Processor := .ofCells [p, a, 0, z, x, y, z, z]
  obtain ⟨t, ht, hout⟩ := h.first s ⟨rfl, rfl, rfl⟩ rfl
  have hrun : RunSum p a z (x, y) (z, z) (z, z) :=
    ⟨s, t, ⟨rfl, rfl, rfl⟩, rfl, rfl, ht, hout⟩
  have hfirst : ¬ (Inputs.mk p a z x y z z).firstZero := Inputs.not_firstZero hz hx hy
  have hsum : (z, z) = (x, y) :=
    (hrun.eq_sum hpos).trans (Inputs.sum_second hfirst (BitVec.or_self (x := z)))
  have hxz : x = z := (congrArg Prod.fst hsum).symm
  rw [hxz] at hx
  exact absurd hz (not_lt.mpr hx)

/-- The discriminant keeps every point of the curve nonsingular. -/
theorem CurvePoint.nonsingular_of_discriminant (h2 : (2 : ZMod P) ≠ 0)
    (hdisc : 4 * res P a ^ 3 + 27 * b ^ 2 ≠ 0) (R : CurvePoint P p a b) :
    (curve (res P a) b).toAffine.Nonsingular (res P R.x) (res P R.y) := by
  have hΔ : (curve (res P a) b).toAffine.Δ ≠ 0 := by
    have heq : (curve (res P a) b).toAffine.Δ = -(2 ^ 4 * (4 * res P a ^ 3 + 27 * b ^ 2)) := by
      simp only [curve, WeierstrassCurve.Δ, WeierstrassCurve.b₂, WeierstrassCurve.b₄,
        WeierstrassCurve.b₆, WeierstrassCurve.b₈]
      ring
    rw [heq]
    exact neg_ne_zero.mpr (mul_ne_zero (pow_ne_zero 4 h2) hdisc)
  exact (Affine.equation_iff_nonsingular_of_Δ_ne_zero hΔ).mp (equation_curve.mpr R.equation)

/-- Two finite points are added, unless they are one point of the axis. -/
theorem represents_sum_iff {i : Inputs} (hP : i.p.toInt = P) (h : i.Canonical)
    (hz : i.z.toInt < 0) (hpz : i.p ||| i.z = i.z) (hodd : P ≠ 2)
    (h1 : (curve (res P i.a) b).toAffine.Nonsingular (res P i.x1) (res P i.y1))
    (h2 : (curve (res P i.a) b).toAffine.Nonsingular (res P i.x2) (res P i.y2)) :
    Represents i.p i.a i.z b i.sum (.some _ _ h1 + .some _ _ h2) ↔
      ¬ (i.x1 = i.x2 ∧ i.y1 = i.y2 ∧ i.y1 = 0) := by
  by_cases hopp : i.x1 = i.x2 ∧ i.y1 ≠ i.y2
  · refine iff_of_true (represents_opposite hP h hz h1 h2 hpz hopp.1 hopp.2) ?_
    rintro ⟨-, hy, -⟩
    exact hopp.2 hy
  by_cases haxis : i.x1 = i.x2 ∧ i.y1 = 0
  · obtain ⟨hx, hy0⟩ := haxis
    have hy : i.y1 = i.y2 := by
      by_contra hne
      exact hopp ⟨hx, hne⟩
    refine iff_of_false ?_ (not_not.mpr ⟨hx, hy, hy0⟩)
    -- the group has zero here, the kernel draws a tangent and leaves a canonical pair
    have hres : ∀ {w : Word}, w = 0 → res P w = 0 := by
      rintro _ rfl
      simp [res]
    have hzero : (.some _ _ h1 + .some _ _ h2 : Point P i.a b) = 0 :=
      some_add_opposite h1 h2 (by rw [hx]) (by rw [hres hy0, hres (hy ▸ hy0), neg_zero])
    have hl := h.line (h.tangentSlope hP)
    have hsum := Inputs.sum_tangent (Inputs.not_firstZero hz h.x1.1 h.y1.1)
      (Inputs.not_secondZero hz h.x2.1 h.y2.1) hx hy
    have hpos := h.p.pos
    rintro (⟨-, htreated⟩ | ⟨-, -, hns, heq⟩)
    · rw [hsum] at htreated
      exact not_treatedAsZero (by omega) hz hl.x3.1 hl.y3.1 htreated
    · exact Affine.Point.some_ne_zero hns (heq.symm.trans hzero)
  · refine iff_of_true (represents_line hP h hz h1 h2 hodd fun hx => ⟨?_, fun hy0 => ?_⟩) ?_
    · by_contra hne
      exact hopp ⟨hx, hne⟩
    · exact haxis ⟨hx, hy0⟩
    · rintro ⟨hx, -, hy0⟩
      exact haxis ⟨hx, hy0⟩

end Exact

/-- What a run leaves on a nonsingular curve is the sum, zero included, except for a point of
order two and itself. -/
theorem RunSum.adds_iff {P : ℕ} [Fact P.Prime] (h5 : 5 ≤ P) (hmax : P ≤ 3037000500) {p a : Word}
    (hP : p.toInt = P) (ha : InField p a) {b : ZMod P}
    (hdisc : 4 * res P a ^ 3 + 27 * b ^ 2 ≠ 0) {Q Q' : HostPoint P p a b} {r : Word × Word}
    (h : RunSum p a (-1) Q.words Q'.words r) :
    Represents p a (-1) b r (Q.toPoint + Q'.toPoint) ↔
      ¬ ∃ R : CurvePoint P p a b, Q = some R ∧ Q' = some R ∧ R.y = 0 := by
  have hp := smallModulus_of_natCast hP (by omega) hmax
  have h2 : (2 : ZMod P) ≠ 0 := by
    intro h2
    have hdvd : P ∣ 2 := (ZMod.natCast_eq_zero_iff 2 P).mp (by exact_mod_cast h2)
    have hle := Nat.le_of_dvd (by norm_num) hdvd
    omega
  have hns := CurvePoint.nonsingular_of_discriminant (p := p) h2 hdisc
  have hwords : ∀ R : HostPoint P p a b, Represents p a (-1) b R.words R.toPoint := by
    intro R
    cases R with
    | none => exact Or.inl ⟨rfl, treatedAsZero_of_or (by omega) (BitVec.or_self)⟩
    | some R => exact Or.inr ⟨R.x_mem, R.y_mem, hns R, CurvePoint.toPoint_eq (hns R)⟩
  have hz : ((-1 : Word)).toInt < 0 := by decide
  have hsum := h.eq_sum (by omega)
  cases Q with
  | none =>
    have hr : r = Q'.words := hsum.trans (Inputs.sum_first (Inputs.firstZero_of_eq rfl rfl))
    refine iff_of_true ?_ (by rintro ⟨R, hR, -⟩; cases hR)
    rw [hr, HostPoint.toPoint, zero_add]
    exact hwords Q'
  | some Q =>
    cases Q' with
    | none =>
      have hfirst : ¬ (Inputs.mk p a (-1) Q.x Q.y (-1) (-1)).firstZero :=
        Inputs.not_firstZero hz Q.x_mem.1 Q.y_mem.1
      have hr : r = Q.words := hsum.trans
        (Inputs.sum_second hfirst (Inputs.secondZero_of_eq rfl rfl))
      refine iff_of_true ?_ (by rintro ⟨R, -, hR, -⟩; cases hR)
      rw [hr, HostPoint.toPoint, HostPoint.toPoint, add_zero]
      exact hwords (some Q)
    | some Q' =>
      have hi : (Inputs.mk p a (-1) Q.x Q.y Q'.x Q'.y).Canonical :=
        ⟨hp, ha, Q.x_mem, Q.y_mem, Q'.x_mem, Q'.y_mem⟩
      have hiff := represents_sum_iff (b := b) hP hi hz BitVec.or_allOnes (by omega)
        (hns Q) (hns Q')
      rw [hsum, HostPoint.toPoint, HostPoint.toPoint, CurvePoint.toPoint_eq (hns Q),
        CurvePoint.toPoint_eq (hns Q')]
      refine hiff.trans (not_congr ⟨?_, ?_⟩)
      · rintro ⟨hx, hy, hy0⟩
        exact ⟨Q, rfl, congrArg some (CurvePoint.eq_of_words hx.symm hy.symm), hy0⟩
      · rintro ⟨R, hR, hR', hy0⟩
        cases hR
        cases hR'
        exact ⟨rfl, rfl, hy0⟩

/-- On a nonsingular curve every two points, zero included, have a run that adds them up, and
each leaves their sum except for a point of order two and itself. -/
theorem runSum_adds_iff {P : ℕ} [Fact P.Prime] (h5 : 5 ≤ P) (hmax : P ≤ 3037000500) {p a : Word}
    (hP : p.toInt = P) (ha : InField p a) {b : ZMod P}
    (hdisc : 4 * res P a ^ 3 + 27 * b ^ 2 ≠ 0) (Q Q' : HostPoint P p a b) :
    (∃ r, RunSum p a (-1) Q.words Q'.words r) ∧
      ∀ r, RunSum p a (-1) Q.words Q'.words r →
        (Represents p a (-1) b r (Q.toPoint + Q'.toPoint) ↔
          ¬ ∃ R : CurvePoint P p a b, Q = some R ∧ Q' = some R ∧ R.y = 0) :=
  ⟨exists_runSum (by omega) Q.words Q'.words, fun _ h => h.adds_iff h5 hmax hP ha hdisc⟩

/-- The curve `y ^ 2 = x ^ 3 + x` modulo five has points of order two. -/
def origin : CurvePoint 5 5 1 0 := ⟨0, 0, by decide, by decide, by decide⟩

def twoZero : CurvePoint 5 5 1 0 := ⟨2, 0, by decide, by decide, by decide⟩

theorem runSum_adds_origin :
    (∃ r, RunSum 5 1 (-1) (HostPoint.words (some origin)) (HostPoint.words (some twoZero)) r) ∧
      ∀ r, RunSum 5 1 (-1) (HostPoint.words (some origin)) (HostPoint.words (some twoZero)) r →
        (Represents 5 1 (-1) 0 r
            (HostPoint.toPoint (some origin) + HostPoint.toPoint (some twoZero)) ↔
          ¬ ∃ R : CurvePoint 5 5 1 0,
            some origin = some R ∧ some twoZero = some R ∧ R.y = 0) :=
  runSum_adds_iff (P := 5) (by norm_num) (by norm_num) rfl (by decide) (by decide)
    (some origin) (some twoZero)

end Fabric.PAdd

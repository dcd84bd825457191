import Fabric.Addition
import Fabric.Lib.Sentinel

/-! The zero checks of `PAdd` against its input contract: a point is zero if either
coordinate is EC-zero, while the kernel compares the or of the coordinates. -/
namespace Fabric.PAdd
open Lib

/-- The cells of `s` hold the modulus `P`, a canonical curve parameter, the EC-zero
`z`, and coordinates that are each EC-zero or canonical. -/
structure ZeroOperands (P : ℕ) (z : Word) (s : Processor) : Prop where
  p : (s.sram 0).toInt = P
  a : InField (s.sram 0) (s.sram 1)
  zero : s.sram 3 = z
  x1 : s.sram 4 = z ∨ InField (s.sram 0) (s.sram 4)
  y1 : s.sram 5 = z ∨ InField (s.sram 0) (s.sram 5)
  x2 : s.sram 6 = z ∨ InField (s.sram 0) (s.sram 6)
  y2 : s.sram 7 = z ∨ InField (s.sram 0) (s.sram 7)

/-- The input contract: if x or y is EC-zero, the point is zero. -/
def ContractZero (z x y : Word) : Prop := x = z ∨ y = z

instance (z x y : Word) : Decidable (ContractZero z x y) := inferInstanceAs (Decidable (_ ∨ _))

/-- The run treats its operands as the contract says: a zero operand yields the
other one, and finite operands reach the comparison of the abscissas. -/
def Recognises (s : Processor) : Prop :=
  ∃ tr t, Executes program s tr t ∧
    (ContractZero (s.sram 3) (s.sram 4) (s.sram 5) →
      t.sram 10 = s.sram 6 ∧ t.sram 11 = s.sram 7) ∧
    (¬ ContractZero (s.sram 3) (s.sram 4) (s.sram 5) →
      ContractZero (s.sram 3) (s.sram 6) (s.sram 7) →
      t.sram 10 = s.sram 4 ∧ t.sram 11 = s.sram 5) ∧
    (¬ ContractZero (s.sram 3) (s.sram 4) (s.sram 5) →
      ¬ ContractZero (s.sram 3) (s.sram 6) (s.sram 7) → 17 ∈ tr)

section Checks
variable {P : ℕ} {p x y z : Word} {s : Processor}

theorem inField_iff_toNat_lt (hp : p.toInt = P) (hP : P < 2 ^ 63) :
    InField p x ↔ x.toNat < P := by
  unfold InField Canonical
  rw [hp]
  constructor
  · rintro ⟨h0, hlt⟩
    have := toInt_eq_toNat_of_nonneg h0
    omega
  · intro hlt
    have : x.toInt = x.toNat := BitVec.toInt_eq_toNat_of_lt (by omega)
    omega

/-- Checks that agree with the contract are enough. -/
theorem recognises_of_iff (hp : 1 ≤ (s.sram 0).toInt)
    (h1 : (inputs s).firstZero ↔ ContractZero (s.sram 3) (s.sram 4) (s.sram 5))
    (h2 : ContractZero (s.sram 3) (s.sram 4) (s.sram 5) ∨
      ((inputs s).secondZero ↔ ContractZero (s.sram 3) (s.sram 6) (s.sram 7))) :
    Recognises s := by
  obtain ⟨t, ht, h10, h11⟩ := executes_sum s hp
  refine ⟨_, t, ht, ?_, ?_, ?_⟩
  · intro hc
    rw [h10, h11, Inputs.sum_first (h1.mpr hc)]
    exact ⟨rfl, rfl⟩
  · intro hc hc'
    have h2' := h2.resolve_left hc
    rw [h10, h11, Inputs.sum_second (fun h => hc (h1.mp h)) (h2'.mpr hc')]
    exact ⟨rfl, rfl⟩
  · intro hc hc'
    have h2' := h2.resolve_left hc
    rw [trace, bodyTrace, if_neg (fun h => hc (h1.mp h)), if_neg (fun h => hc' (h2'.mp h))]
    simp

/-- The check of one point against the contract, for a sentinel with all low bits
and a high bit. -/
theorem or_eq_iff_contractZero {k : ℕ} (hlow : LowOnes k z) (hhigh : HighOne k z)
    (hx : x = z ∨ x.toNat < 2 ^ k) (hy : y = z ∨ y.toNat < 2 ^ k) :
    x ||| y = z ↔ ContractZero z x y := by
  unfold ContractZero
  rcases hx with rfl | hx
  · refine iff_of_true ?_ (Or.inl rfl)
    rcases hy with rfl | hy
    · exact BitVec.or_self
    · exact hlow.or_eq hy
  · rcases hy with rfl | hy
    · refine iff_of_true ?_ (Or.inr rfl)
      rw [BitVec.or_comm]
      exact hlow.or_eq hx
    · refine iff_of_false (hhigh.or_ne hx hy) ?_
      rintro (rfl | rfl)
      · exact hhigh.or_ne hx hx BitVec.or_self
      · exact hhigh.or_ne hy hy BitVec.or_self

theorem ZeroOperands.recognises (h : ZeroOperands P z s) (hP : P < 2 ^ 63) (hpos : 1 ≤ P)
    (hlow : LowOnes (Nat.size (P - 1)) z) (hhigh : HighOne (Nat.size (P - 1)) z) :
    Recognises s := by
  have hsize : P ≤ 2 ^ Nat.size (P - 1) := by
    have := Nat.lt_size_self (P - 1)
    omega
  have hsmall {x : Word} (hx : x = z ∨ InField (s.sram 0) x) :
      x = z ∨ x.toNat < 2 ^ Nat.size (P - 1) :=
    hx.imp_right fun h' => ((inField_iff_toNat_lt h.p hP).mp h').trans_le hsize
  have hz := h.zero
  refine recognises_of_iff (by have := h.p; omega) ?_ (Or.inr ?_)
  · rw [hz]
    change s.sram 4 ||| s.sram 5 = s.sram 3 ↔ _
    rw [hz]
    exact or_eq_iff_contractZero hlow hhigh (hsmall h.x1) (hsmall h.y1)
  · rw [hz]
    change s.sram 6 ||| s.sram 7 = s.sram 3 ↔ _
    rw [hz]
    exact or_eq_iff_contractZero hlow hhigh (hsmall h.x2) (hsmall h.y2)

/-- A zero point whose other coordinate disturbs the or is not recognised. -/
theorem not_recognises_of_or_ne (hp : 1 ≤ (s.sram 0).toInt) (hx1 : s.sram 4 = s.sram 3)
    (hor : s.sram 3 ||| s.sram 5 ≠ s.sram 3) (hx2 : s.sram 6 = s.sram 3)
    (hy2 : s.sram 7 = s.sram 3) : ¬ Recognises s := by
  rintro ⟨tr, t, ht, hfirst, -, -⟩
  obtain ⟨t', ht', -, h11⟩ := executes_sum s hp
  obtain ⟨-, rfl⟩ := ht.det ht'
  have hf : ¬ (inputs s).firstZero := by
    intro h
    have h' : s.sram 4 ||| s.sram 5 = s.sram 3 := h
    rw [hx1] at h'
    exact hor h'
  have hs : (inputs s).secondZero := Inputs.secondZero_of_eq hx2 hy2
  rw [Inputs.sum_second hf hs] at h11
  have hout : s.sram 5 = s.sram 3 := by
    rw [← hy2, ← (hfirst (Or.inl hx1)).2]
    exact h11.symm
  rw [hout] at hor
  exact hor BitVec.or_self

/-- A finite point whose coordinates or to the EC-zero is taken for zero. -/
theorem not_recognises_of_or_eq (hp : 1 ≤ (s.sram 0).toInt)
    (hor : s.sram 4 ||| s.sram 5 = s.sram 3)
    (h1 : ¬ ContractZero (s.sram 3) (s.sram 4) (s.sram 5))
    (h2 : ¬ ContractZero (s.sram 3) (s.sram 6) (s.sram 7)) : ¬ Recognises s := by
  rintro ⟨tr, t, ht, -, -, hfinite⟩
  obtain ⟨t', ht', -, -⟩ := executes_sum s hp
  obtain ⟨rfl, -⟩ := ht.det ht'
  have hf : (inputs s).firstZero := hor
  have h17 := hfinite h1 h2
  rw [trace, bodyTrace, if_pos hf] at h17
  exact absurd h17 (by decide)

end Checks

section Operands
variable {P : ℕ} {z : Word}

theorem inField_modulus (hP : P < 2 ^ 63) {x : Word} : InField (.ofNat 64 P) x ↔ x.toNat < P :=
  inField_iff_toNat_lt (toInt_ofNat_of_lt (by decide) hP) hP

/-- A zero point `(z, y)` is missed if `y` disturbs the or. -/
theorem lowOnes_of_recognises (hP : P < 2 ^ 63) (hpos : 1 ≤ P)
    (h : ∀ s, ZeroOperands P z s → Recognises s) : LowOnes (Nat.size (P - 1)) z := by
  have hp : (BitVec.ofNat 64 P).toInt = P := toInt_ofNat_of_lt (by decide) hP
  have hzero : InField (.ofNat 64 P) 0 := (inField_modulus hP).mpr hpos
  by_contra hlow
  obtain ⟨y, hy, hor⟩ := exists_or_ne (by omega) hlow
  refine not_recognises_of_or_ne (s := .ofCells [.ofNat 64 P, 0, 0, z, z, y, z, z]) ?_ rfl hor
    rfl rfl (h _ ⟨hp, hzero, rfl, .inl rfl, .inr ((inField_modulus hP).mpr hy), .inl rfl, .inl rfl⟩)
  change 1 ≤ (BitVec.ofNat 64 P).toInt
  omega

/-- A finite point is taken for zero if its coordinates or to `z`. -/
theorem highOne_of_recognises (hP : P < 2 ^ 63) (h2 : 2 ≤ P) (hz : ¬ InField (.ofNat 64 P) z)
    (hlow : LowOnes (Nat.size (P - 1)) z) (h : ∀ s, ZeroOperands P z s → Recognises s) :
    HighOne (Nat.size (P - 1)) z := by
  have hp : (BitVec.ofNat 64 P).toInt = P := toInt_ofNat_of_lt (by decide) hP
  have hzero : InField (.ofNat 64 P) 0 := (inField_modulus hP).mpr (by change 0 < P; omega)
  have hne {x : Word} (hx : InField (.ofNat 64 P) x) : x ≠ z := fun h' => hz (h' ▸ hx)
  by_contra hhigh
  obtain ⟨x, y, hx, hy, hor⟩ := exists_or_eq (by omega) h2 hlow hhigh
  have hxf := (inField_modulus hP).mpr hx
  have hyf := (inField_modulus hP).mpr hy
  refine not_recognises_of_or_eq (s := .ofCells [.ofNat 64 P, 0, 0, z, x, y, 0, 0]) ?_ hor ?_ ?_
    (h _ ⟨hp, hzero, rfl, .inr hxf, .inr hyf, .inr hzero, .inr hzero⟩)
  · change 1 ≤ (BitVec.ofNat 64 P).toInt
    omega
  · exact not_or.mpr ⟨hne hxf, hne hyf⟩
  · exact not_or.mpr ⟨hne hzero, hne hzero⟩

end Operands

/-- The zero checks are right for all operands exactly if the EC-zero has all bits
below the length of `P - 1` and some bit above. On a given input they are right
whenever the two comparisons agree with the contract. -/
theorem recognises_iff {P : ℕ} (h3 : 3 ≤ P) (hmax : P ≤ 3037000500) {z : Word}
    (hz : ¬ (0 ≤ z.toInt ∧ z.toInt < P)) :
    ((∀ s, ZeroOperands P z s → Recognises s) ↔
        LowOnes (Nat.size (P - 1)) z ∧ HighOne (Nat.size (P - 1)) z) ∧
      ∀ s, ZeroOperands P z s →
        ((inputs s).firstZero ↔ ContractZero z (s.sram 4) (s.sram 5)) →
        (ContractZero z (s.sram 4) (s.sram 5) ∨
          ((inputs s).secondZero ↔ ContractZero z (s.sram 6) (s.sram 7))) → Recognises s := by
  have hP63 : P < 2 ^ 63 := by omega
  have hzf : ¬ InField (.ofNat 64 P) z := by
    unfold InField Canonical
    rwa [toInt_ofNat_of_lt (by decide) hP63]
  constructor
  · constructor
    · intro h
      have hlow := lowOnes_of_recognises hP63 (by omega) h
      exact ⟨hlow, highOne_of_recognises hP63 (by omega) hzf hlow h⟩
    · rintro ⟨hlow, hhigh⟩ s hs
      exact hs.recognises hP63 (by omega) hlow hhigh
  · intro s hs h1 h2
    refine recognises_of_iff (by have := hs.p; omega) ?_ ?_
    · rw [hs.zero]
      exact h1
    · rw [hs.zero]
      exact h2

theorem recognises_iff_thirty_seven :
    ((∀ s, ZeroOperands 37 (-1) s → Recognises s) ↔
        LowOnes (Nat.size (37 - 1)) (-1 : Word) ∧ HighOne (Nat.size (37 - 1)) (-1 : Word)) ∧
      ∀ s, ZeroOperands 37 (-1) s →
        ((inputs s).firstZero ↔ ContractZero (-1) (s.sram 4) (s.sram 5)) →
        (ContractZero (-1) (s.sram 4) (s.sram 5) ∨
          ((inputs s).secondZero ↔ ContractZero (-1) (s.sram 6) (s.sram 7))) → Recognises s :=
  recognises_iff (by norm_num) (by norm_num) (by decide)

/-- With EC-zero `-2` the zero point `(-2, 1)` is missed: it comes out where the
other operand, also zero, should. -/
theorem zero_point_missed :
    (37 : ℕ).Prime ∧ ZeroOperands 37 (-2) (.ofCells [37, 0, 7, -2, -2, 1, -2, -2]) ∧
      ¬ Recognises (.ofCells [37, 0, 7, -2, -2, 1, -2, -2]) :=
  ⟨by norm_num,
    ⟨rfl, by decide, rfl, Or.inl rfl, Or.inr (by decide), Or.inl rfl, Or.inl rfl⟩,
    not_recognises_of_or_ne (by decide) rfl (by decide) rfl rfl⟩

end Fabric.PAdd

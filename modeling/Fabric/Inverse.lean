import Fabric.Kernel.MultInverse
import Mathlib.FieldTheory.Finite.Basic

/-! What a run of `MultInverse` computes. -/
namespace Fabric
open Lib

section Values
variable {P : ℕ} {p a : Word}

theorem smallModulus_of_natCast (hP : p.toInt = P) (h2 : 2 ≤ P) (hmax : P ≤ 3037000500) :
    SmallModulus p := by
  constructor
  · omega
  · norm_num [MAX_MODULUS]
    omega

theorem inField_of_natCast {n : ℕ} (hP : p.toInt = P) (ha : a.toInt = n) (hn : n < P) :
    InField p a := by
  constructor
  · omega
  · omega

theorem res_natCast {n : ℕ} (ha : a.toInt = n) : res P a = n := by
  rw [res, ha, Int.cast_natCast]

/-- A canonical word is the value of its residue. -/
theorem toInt_eq_mod {n : ℕ} (hP : p.toInt = P) (ha : InField p a) (h : res P a = n) :
    a.toInt = (n % P : ℕ) := by
  unfold InField at ha
  rw [hP] at ha
  have hpos := ha.pos
  have hlt := Nat.mod_lt n (by omega : 0 < P)
  refine ha.eq_of_cast ⟨by positivity, by exact_mod_cast hlt⟩ ?_
  rw [Int.cast_natCast, ZMod.natCast_mod]
  exact h

end Values

section Prime
variable {P : ℕ} [Fact P.Prime] {p x : Word}

/-- In a prime field the power is the inverse. -/
theorem pow_sub_two {y : ZMod P} (hy : y ≠ 0) : y ^ (P - 2) = y⁻¹ := by
  have h2 := (Fact.out : P.Prime).two_le
  have h := ZMod.pow_card_sub_one_eq_one hy
  rw [show P - 1 = P - 2 + 1 by omega, pow_succ] at h
  exact eq_inv_of_mul_eq_one_left h

theorem res_inverse (hP : p.toInt = P) (hp : SmallModulus p) (hx : InField p x)
    (h0 : res P x ≠ 0) : res P (inverse p x) = (res P x)⁻¹ := by
  rw [(inverse_spec hP hp hx).2, pow_sub_two h0]

/-- A canonical word is zero only in the residue zero. -/
theorem InField.toInt_eq_zero (hP : p.toInt = P) (hx : InField p x) (h : res P x = 0) :
    x.toInt = 0 := by
  unfold InField at hx
  rw [hP] at hx
  exact hx.cast_eq_zero h

/-- The inverse of a nonzero number has one representative. -/
theorem mul_modEq_one_iff {n y : ℕ} (hn : (n : ZMod P) ≠ 0) :
    1 ≤ y ∧ y < P ∧ n * y ≡ 1 [MOD P] ↔ y < P ∧ (y : ZMod P) = (n : ZMod P)⁻¹ := by
  have hmod : n * y ≡ 1 [MOD P] ↔ (y : ZMod P) = (n : ZMod P)⁻¹ := by
    rw [← ZMod.natCast_eq_natCast_iff, Nat.cast_mul, Nat.cast_one, mul_eq_one_iff_inv_eq₀ hn,
      eq_comm]
  rw [hmod]
  constructor
  · rintro ⟨-, hlt, h⟩
    exact ⟨hlt, h⟩
  · rintro ⟨hlt, h⟩
    refine ⟨?_, hlt, h⟩
    rcases Nat.eq_zero_or_pos y with rfl | hy
    · rw [Nat.cast_zero] at h
      exact absurd h.symm (inv_ne_zero hn)
    · exact hy

/-- The representatives that invert `x` are the value of the routine. -/
theorem mul_modEq_one_iff_toInt {n y : ℕ} (hP : p.toInt = P) (hp : SmallModulus p)
    (hx : InField p x) (hX : x.toInt = n) (hn : n ≠ 0) :
    1 ≤ y ∧ y < P ∧ n * y ≡ 1 [MOD P] ↔ (inverse p x).toInt = y := by
  have hne : res P x ≠ 0 := by
    intro h
    have := hx.toInt_eq_zero hP h
    omega
  have hf := (inverse_spec hP hp hx).1
  have hinv := res_inverse hP hp hx hne
  rw [res_natCast hX] at hne hinv
  rw [mul_modEq_one_iff hne]
  constructor
  · rintro ⟨hlt, hy⟩
    rw [toInt_eq_mod hP hf (hinv.trans hy.symm), Nat.mod_eq_of_lt hlt]
  · intro hy
    refine ⟨?_, by rw [← res_natCast hy, hinv]⟩
    have := hf.2
    omega

end Prime

/-- The kernel computes the power for every modulus, the inverse for a prime one. -/
theorem multInverse_computes {P x : ℕ} (h2 : 2 ≤ P) (hmax : P ≤ 3037000500) (hx : x < P)
    {s : Processor} (hP : (s.sram 0).toInt = P) (hX : (s.sram 1).toInt = x) :
    ∃ prog, MultInverse.generate .empty = some prog ∧ ∃ t, Returns prog s t ∧
      (t.sram 10).toInt = (x ^ (P - 2) % P : ℕ) ∧
      (P.Prime → x ≠ 0 → ∀ y : ℕ,
        1 ≤ y ∧ y < P ∧ x * y ≡ 1 [MOD P] ↔ (t.sram 10).toInt = y) := by
  have hp := smallModulus_of_natCast hP h2 hmax
  have hxf := inField_of_natCast hP hX hx
  obtain ⟨t, ht, hsram⟩ := MultInverse.executes s (by omega)
  have hout : t.sram 10 = inverse (s.sram 0) (s.sram 1) := by
    rw [hsram, Function.update_self]
  obtain ⟨hf, hr⟩ := inverse_spec hP hp hxf
  refine ⟨_, MultInverse.generate_empty, t, ht.returns, ?_, ?_⟩
  · rw [hout]
    refine toInt_eq_mod hP hf ?_
    rw [hr, res_natCast hX, Nat.cast_pow]
  · intro hprime hx0 y
    have : Fact P.Prime := ⟨hprime⟩
    rw [hout]
    exact mul_modEq_one_iff_toInt hP hp hxf hX hx0

theorem multInverse_computes_five : ∃ prog, MultInverse.generate .empty = some prog ∧
    ∃ t, Returns prog (.ofCells [37, 5]) t ∧ (t.sram 10).toInt = (5 ^ 35 % 37 : ℕ) ∧
      ((37 : ℕ).Prime → (5 : ℕ) ≠ 0 → ∀ y : ℕ,
        1 ≤ y ∧ y < 37 ∧ 5 * y ≡ 1 [MOD 37] ↔ (t.sram 10).toInt = y) :=
  multInverse_computes (P := 37) (x := 5) (by decide) (by decide) (by decide) rfl rfl

section Fermat
variable {P : ℕ} {s : Processor}

/-- The word that the kernel stores inverts its argument exactly if the argument meets
Fermat's condition for the modulus. -/
theorem inverts_iff_pow (h2 : 2 ≤ P) (hmax : P ≤ 3037000500) (hP : (s.sram 0).toInt = P)
    (hx0 : 0 ≤ (s.sram 1).toInt) (hx : (s.sram 1).toInt < P) :
    ∃ t, Returns MultInverse.program s t ∧
      ((s.sram 1).toInt * (t.sram 10).toInt ≡ 1 [ZMOD P] ↔
        (s.sram 1).toInt ^ (P - 1) ≡ 1 [ZMOD P]) := by
  obtain ⟨t, ht, hsram⟩ := MultInverse.executes s (by omega)
  have hout : t.sram 10 = inverse (s.sram 0) (s.sram 1) := by
    rw [hsram, Function.update_self]
  have hxf : InField (s.sram 0) (s.sram 1) := ⟨hx0, by omega⟩
  have hpow : ((t.sram 10).toInt : ZMod P) = ((s.sram 1).toInt : ZMod P) ^ (P - 2) := by
    rw [hout]
    exact (inverse_spec hP (smallModulus_of_natCast hP h2 hmax) hxf).2
  refine ⟨t, ht.returns, ?_⟩
  rw [← ZMod.intCast_eq_intCast_iff, ← ZMod.intCast_eq_intCast_iff, Int.cast_mul, hpow,
    Int.cast_pow, ← pow_succ', show P - 2 + 1 = P - 1 by omega]

/-- The modulus `P` and the argument `x` in their cells. -/
def inverseInput (P x : ℕ) : Processor := .ofCells [BitVec.ofNat 64 P, BitVec.ofNat 64 x]

/-- The kernel inverts all residues but zero exactly for the prime moduli. -/
theorem inverts_all_iff_prime (h2 : 2 ≤ P) (hmax : P ≤ 3037000500) :
    (∀ s : Processor, (s.sram 0).toInt = P → 1 ≤ (s.sram 1).toInt → (s.sram 1).toInt < P →
      ∃ t, Returns MultInverse.program s t ∧
        (s.sram 1).toInt * (t.sram 10).toInt ≡ 1 [ZMOD P]) ↔ P.Prime := by
  constructor
  · intro h
    by_contra hprime
    -- the least factor divides every multiple of itself modulo `P`
    have hq := Nat.minFac_prime (show P ≠ 1 by omega)
    have hlt : P.minFac < P :=
      lt_of_le_of_ne (Nat.minFac_le (by omega)) fun heq => hprime (heq ▸ hq)
    have hP : ((inverseInput P P.minFac).sram 0).toInt = P :=
      toInt_ofNat_of_lt (by decide) (by omega)
    have hx : ((inverseInput P P.minFac).sram 1).toInt = P.minFac :=
      toInt_ofNat_of_lt (by decide) (by omega)
    have hpos := hq.one_lt
    obtain ⟨t, -, hmul⟩ := h (inverseInput P P.minFac) hP (by omega) (by omega)
    rw [hx] at hmul
    have hdvd : (P.minFac : ℤ) ∣ 1 := by
      have hfac := Int.natCast_dvd_natCast.mpr (Nat.minFac_dvd P)
      have hdiff := hfac.trans hmul.dvd
      rwa [dvd_sub_left (dvd_mul_right _ _)] at hdiff
    have hone := Int.natCast_dvd_natCast.mp (show (P.minFac : ℤ) ∣ (1 : ℕ) from hdvd)
    exact hq.one_lt.ne' (Nat.dvd_one.mp hone)
  · intro hprime s hP h1 hx
    have : Fact P.Prime := ⟨hprime⟩
    obtain ⟨t, ht, hiff⟩ := inverts_iff_pow h2 hmax hP (by omega) hx
    refine ⟨t, ht, hiff.mpr ?_⟩
    rw [← ZMod.intCast_eq_intCast_iff, Int.cast_pow, Int.cast_one]
    refine ZMod.pow_card_sub_one_eq_one fun hzero => ?_
    have hdvd := (ZMod.intCast_zmod_eq_zero_iff_dvd _ P).mp hzero
    have hle := Int.le_of_dvd (by omega) hdvd
    omega

theorem inverts_all_iff_prime_fifteen :
    (∀ s : Processor, (s.sram 0).toInt = 15 → 1 ≤ (s.sram 1).toInt → (s.sram 1).toInt < 15 →
      ∃ t, Returns MultInverse.program s t ∧
        (s.sram 1).toInt * (t.sram 10).toInt ≡ 1 [ZMOD 15]) ↔ (15 : ℕ).Prime :=
  inverts_all_iff_prime (P := 15) (by decide) (by decide)

end Fermat

section Laws
variable {P : ℕ} {p x y : Word} {s : Processor}

/-- What a run of the kernel on the argument `x` leaves. -/
theorem exists_inverse (hp : SmallModulus p) (hs : s.sram 0 = p) (x : Word) :
    ∃ t, Returns MultInverse.program (s.setSram 1 x) t ∧ t.sram 0 = p ∧
      t.sram 10 = inverse p x := by
  have hmod : (s.setSram 1 x).sram 0 = p := by
    change Function.update s.sram 1 x 0 = p
    rw [Function.update_of_ne (by decide), hs]
  have harg : (s.setSram 1 x).sram 1 = x := by
    change Function.update s.sram 1 x 1 = x
    rw [Function.update_self]
  obtain ⟨t, ht, hsram⟩ := MultInverse.executes (s.setSram 1 x) (by rw [hmod]; exact hp.pos)
  rw [hmod, harg] at hsram
  refine ⟨t, ht.returns, ?_, ?_⟩
  · rw [hsram, Function.update_of_ne (by decide), hmod]
  · rw [hsram, Function.update_self]

/-- The power of a product, for every modulus. -/
theorem inverse_mulp (hP : p.toInt = P) (hp : SmallModulus p) (hx : InField p x)
    (hy : InField p y) : inverse p (mulp p x y) = mulp p (inverse p x) (inverse p y) := by
  obtain ⟨hfx, hrx⟩ := inverse_spec hP hp hx
  obtain ⟨hfy, hry⟩ := inverse_spec hP hp hy
  obtain ⟨hf, hr⟩ := inverse_spec hP hp (hx.mulp hp hy)
  refine hf.ext hP (hfx.mulp hp hfy) ?_
  rw [hr, res_mulp hP (hp.fits_mul hx.reduced hy.reduced),
    res_mulp hP (hp.fits_mul hfx.reduced hfy.reduced), hrx, hry, mul_pow]

/-- Inverting a product, or multiplying the inverses, comes to the same, for composite
moduli too. -/
theorem inverse_of_product (hp : SmallModulus p) (hs : s.sram 0 = p) (hx : InField p x)
    (hy : InField p y) :
    ∃ t u v, Returns MultInverse.program (s.setSram 1 x) t ∧
      Returns MultInverse.program (s.setSram 1 y) u ∧
      Returns MultInverse.program (s.setSram 1 (mulp p x y)) v ∧
      v.sram 10 = mulp p (t.sram 10) (u.sram 10) := by
  have hP : p.toInt = p.toInt.toNat := (Int.toNat_of_nonneg hp.pos.le).symm
  obtain ⟨t, ht, -, htx⟩ := exists_inverse hp hs x
  obtain ⟨u, hu, -, huy⟩ := exists_inverse hp hs y
  obtain ⟨v, hv, -, hvxy⟩ := exists_inverse hp hs (mulp p x y)
  refine ⟨t, u, v, ht, hu, hv, ?_⟩
  rw [hvxy, htx, huy]
  exact inverse_mulp hP hp hx hy

theorem inverse_of_product_fifteen :
    ∃ t u v, Returns MultInverse.program ((Processor.ofCells [15]).setSram 1 6) t ∧
      Returns MultInverse.program ((Processor.ofCells [15]).setSram 1 7) u ∧
      Returns MultInverse.program ((Processor.ofCells [15]).setSram 1 (mulp 15 6 7)) v ∧
      v.sram 10 = mulp 15 (t.sram 10) (u.sram 10) :=
  inverse_of_product (by decide) rfl (by decide) (by decide)

theorem inverse_inverse [Fact P.Prime] (hP : p.toInt = P) (hp : SmallModulus p)
    (hx : InField p x) (h : P ≠ 2 ∨ res P x ≠ 0) : inverse p (inverse p x) = x := by
  obtain ⟨hf, hr⟩ := inverse_spec hP hp hx
  obtain ⟨hf', hr'⟩ := inverse_spec hP hp hf
  have h2 := (Fact.out : P.Prime).two_le
  refine hf'.ext hP hx ?_
  rw [hr', hr]
  by_cases h0 : res P x = 0
  · have hne : P - 2 ≠ 0 := by
      have hodd := h.resolve_right (not_not.mpr h0)
      omega
    rw [h0, zero_pow hne, zero_pow hne]
  · rw [pow_sub_two h0, pow_sub_two (inv_ne_zero h0), inv_inv]

/-- Inverting twice, with the first result as the second argument, leads back to the
argument, except for zero modulo two. -/
theorem inverse_twice_iff (hprime : P.Prime) (hmax : P ≤ 3037000500) (hP : p.toInt = P)
    (hs : s.sram 0 = p) (hx : InField p x) :
    ∃ t u, Returns MultInverse.program (s.setSram 1 x) t ∧
      Returns MultInverse.program (t.setSram 1 (t.sram 10)) u ∧
      (u.sram 10 = x ↔ ¬ (P = 2 ∧ x = 0)) := by
  have : Fact P.Prime := ⟨hprime⟩
  have hp := smallModulus_of_natCast hP hprime.two_le hmax
  obtain ⟨t, ht, htp, htx⟩ := exists_inverse hp hs x
  obtain ⟨u, hu, -, hux⟩ := exists_inverse hp htp (t.sram 10)
  refine ⟨t, u, ht, hu, ?_⟩
  rw [hux, htx]
  constructor
  · rintro h ⟨rfl, rfl⟩
    have hp2 : p = 2 := BitVec.eq_of_toInt_eq hP
    rw [hp2] at h
    exact absurd h (by decide)
  · intro h
    refine inverse_inverse hP hp hx ?_
    by_contra hno
    rw [not_or, not_not, not_not] at hno
    refine h ⟨hno.1, BitVec.eq_of_toInt_eq ?_⟩
    exact hx.toInt_eq_zero hP hno.2

theorem inverse_twice_two :
    ∃ t u, Returns MultInverse.program ((Processor.ofCells [2]).setSram 1 0) t ∧
      Returns MultInverse.program (t.setSram 1 (t.sram 10)) u ∧
      (u.sram 10 = 0 ↔ ¬ ((2 : ℕ) = 2 ∧ (0 : Word) = 0)) :=
  inverse_twice_iff (P := 2) (p := 2) Nat.prime_two (by norm_num) rfl rfl (by decide)

end Laws
end Fabric

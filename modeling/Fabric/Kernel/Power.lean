import Fabric.FieldOps
import Fabric.Lib.Power

/-! The square-and-multiply loop of both kernels as a function of words, and the
power it leaves. -/
namespace Fabric
open Lib

/-- The values of R8, R20 and R21. -/
structure Loop where
  acc : Word
  base : Word
  exp : Word

namespace Loop

def next (p : Word) (L : Loop) : Loop where
  acc := if L.exp &&& 1 = 0 then L.acc else mulp p L.acc L.base
  base := mulp p L.base L.base
  exp := L.exp.sdiv 2

/-- At most `n` turns. The exponent is tested after the body. -/
def run (p : Word) : ℕ → Loop → Loop
  | 0, L => L
  | n + 1, L => if (L.next p).exp = 0 then L.next p else run p n (L.next p)

/-- No product of the next turn overflows. -/
def Fits (L : Loop) : Prop :=
  Lib.Fits 64 (L.acc.toInt * L.base.toInt) ∧ Lib.Fits 64 (L.base.toInt * L.base.toInt)

def InField (p : Word) (L : Loop) : Prop := Fabric.InField p L.acc ∧ Fabric.InField p L.base

/-- The power that the loop still has to compute. -/
def residues (P : ℕ) (L : Loop) : BinPow (ZMod P) := ⟨res P L.acc, res P L.base, L.exp.toNat⟩

section Exponent
variable {p : Word} {L : Loop}

/-- The exponent `-1`, which a modulus of one gives, is halved to zero. -/
theorem next_exp_toInt (he : -1 ≤ L.exp.toInt) :
    (L.next p).exp.toInt = if L.exp.toInt = -1 then 0 else L.exp.toInt / 2 := by
  have h : (L.next p).exp.toInt = L.exp.toInt.tdiv 2 :=
    toInt_sdiv_of_pos (y := (2 : Word)) (by decide)
  rw [h]
  split_ifs with h1
  · rw [h1]; rfl
  · exact Int.tdiv_eq_ediv_of_nonneg (by omega)

theorem next_exp_nonneg (he : -1 ≤ L.exp.toInt) : 0 ≤ (L.next p).exp.toInt := by
  rw [next_exp_toInt he]
  split_ifs <;> omega

theorem next_exp_lt {n : ℕ} (he : -1 ≤ L.exp.toInt) (hn : L.exp.toInt < 2 ^ (n + 1 + 1)) :
    (L.next p).exp.toInt < 2 ^ (n + 1) := by
  have hpos : (0 : ℤ) < 2 ^ (n + 1) := by positivity
  rw [next_exp_toInt he]
  rw [pow_succ] at hn
  split_ifs <;> omega

theorem next_exp_eq_zero (he : -1 ≤ L.exp.toInt) (hn : L.exp.toInt < 2) : (L.next p).exp = 0 := by
  apply BitVec.eq_of_toInt_eq
  rw [next_exp_toInt he, show ((0 : Word)).toInt = 0 from rfl]
  split_ifs <;> omega

theorem next_exp_toNat (he : 0 ≤ L.exp.toInt) : (L.next p).exp.toNat = L.exp.toNat / 2 := by
  have h := next_exp_toInt (p := p) (L := L) (by omega)
  have hn := next_exp_nonneg (p := p) (L := L) (by omega)
  rw [if_neg (by omega)] at h
  rw [toInt_eq_toNat_of_nonneg he] at h
  rw [toInt_eq_toNat_of_nonneg hn] at h
  omega

end Exponent

section Field
variable {P : ℕ} {p : Word} {L : Loop}

theorem InField.fits (hL : L.InField p) (hp : SmallModulus p) : L.Fits :=
  ⟨hp.fits_mul hL.1.reduced hL.2.reduced, hp.fits_mul hL.2.reduced hL.2.reduced⟩

theorem InField.next (hL : L.InField p) (hp : SmallModulus p) : (L.next p).InField p := by
  constructor
  · simp only [Loop.next]
    split_ifs
    · exact hL.1
    · exact hL.1.mulp hp hL.2
  · exact hL.2.mulp hp hL.2

theorem residues_next (hP : p.toInt = P) (hp : SmallModulus p) (hL : L.InField p)
    (he : 0 ≤ L.exp.toInt) : (L.next p).residues P = (L.residues P).next := by
  have hbit : L.exp &&& 1 = 0 ↔ L.exp.toNat % 2 = 0 := by
    rw [← BitVec.toNat_inj, BitVec.toNat_and]
    change L.exp.toNat &&& 1 = 0 ↔ _
    rw [Nat.and_one_is_mod]
  have hfit := hL.fits hp
  have hacc : res P (L.next p).acc = (L.residues P).next.acc := by
    change res P (if L.exp &&& 1 = 0 then L.acc else mulp p L.acc L.base) =
      if L.exp.toNat % 2 = 1 then res P L.acc * res P L.base else res P L.acc
    by_cases h : L.exp.toNat % 2 = 0
    · rw [if_pos (hbit.mpr h), if_neg (by omega)]
    · rw [if_neg (fun h' => h (hbit.mp h')), if_pos (by omega), res_mulp hP hfit.1]
  have hbase : res P (L.next p).base = (L.residues P).next.base := res_mulp hP hfit.2
  rw [residues, hacc, hbase, next_exp_toNat he]
  rfl

theorem run_residues (hP : p.toInt = P) (hp : SmallModulus p) (hL : L.InField p)
    (he : 0 ≤ L.exp.toInt) (n : ℕ) :
    (L.run p n).residues P = (L.residues P).run n ∧ (L.run p n).InField p := by
  induction n generalizing L with
  | zero => exact ⟨rfl, hL⟩
  | succ n ih =>
    have hnext := residues_next hP hp hL he
    have hz : (L.next p).exp = 0 ↔ (L.residues P).next.exp = 0 := by
      rw [← hnext, ← BitVec.toNat_inj]
      rfl
    simp only [Loop.run, BinPow.run]
    by_cases h : (L.next p).exp = 0
    · rw [if_pos h, if_pos (hz.mp h)]
      exact ⟨hnext, hL.next hp⟩
    · rw [if_neg h, if_neg (fun h' => h (hz.mpr h')), ← hnext]
      exact ih (hL.next hp) (next_exp_nonneg (by omega))

/-- Enough turns leave the power in the accumulator. -/
theorem run_acc (hP : p.toInt = P) (hp : SmallModulus p) (hL : L.InField p)
    (he : 0 ≤ L.exp.toInt) {n : ℕ} (hn : L.exp.toNat < 2 ^ (n + 1)) :
    Fabric.InField p (L.run p (n + 1)).acc ∧
      res P (L.run p (n + 1)).acc = res P L.acc * res P L.base ^ L.exp.toNat := by
  obtain ⟨hrun, hfield⟩ := run_residues hP hp hL he (n + 1)
  exact ⟨hfield.1, (congrArg BinPow.acc hrun).trans (BinPow.run_acc hn)⟩

end Field
end Loop

/-- What both inverse routines leave in R8 for a modulus of at least one: its exponent takes at
most 63 turns. -/
def inverse (p x : Word) : Word :=
  if x = 1 then 1 else if p - 2 = 0 then 1 else (Loop.run p 63 ⟨1, x, p - 2⟩).acc

section Inverse
variable {P : ℕ} {p x : Word}

theorem toInt_exponent (hp : 1 ≤ p.toInt) : (p - 2).toInt = p.toInt - 2 := by
  have hlt := BitVec.toInt_lt (x := p)
  refine toInt_sub_of_fits (y := (2 : Word)) ?_
  change Fits 64 (p.toInt - 2)
  constructor <;> norm_num at * <;> omega

theorem exponent_loop_bounds (hp : 1 ≤ p.toInt) :
    -1 ≤ (p - 2).toInt ∧ (p - 2).toInt < 2 ^ 63 := by
  have hlt := BitVec.toInt_lt (x := p)
  rw [toInt_exponent hp]
  norm_num at *
  omega

theorem res_one : res P 1 = 1 := by
  rw [res, show ((1 : Word)).toInt = 1 from rfl, Int.cast_one]

/-- The inverse routine raises to the power `P - 2`, for composite `P` as well. -/
theorem inverse_spec (hP : p.toInt = P) (hp : SmallModulus p) (hx : InField p x) :
    InField p (inverse p x) ∧ res P (inverse p x) = res P x ^ (P - 2) := by
  have h2 := hp.1
  have he := toInt_exponent (p := p) (by omega)
  unfold inverse
  by_cases hx1 : x = 1
  · rw [if_pos hx1, hx1, res_one, one_pow]
    exact ⟨field_one hp, rfl⟩
  rw [if_neg hx1]
  by_cases hz : p - 2 = 0
  · have hP2 : P - 2 = 0 := by
      rw [hz] at he
      change 0 = p.toInt - 2 at he
      omega
    rw [if_pos hz, res_one, hP2, pow_zero]
    exact ⟨field_one hp, rfl⟩
  rw [if_neg hz]
  have hexp : (p - 2).toNat = P - 2 := by
    have hnn := toInt_eq_toNat_of_nonneg (x := p - 2) (by omega)
    omega
  have hlt := (exponent_loop_bounds (p := p) (by omega)).2
  have hrun := Loop.run_acc (L := ⟨1, x, p - 2⟩) (n := 62) hP hp ⟨field_one hp, hx⟩
    (by change 0 ≤ (p - 2).toInt; omega) (by change (p - 2).toNat < 2 ^ 63; omega)
  simp only [res_one, one_mul, hexp] at hrun
  exact hrun

end Inverse
end Fabric

import Fabric.Addition
import Mathlib.NumberTheory.LucasLehmer

/-! The moduli for which no instruction of a kernel overflows. -/
namespace Fabric
open Lib

/-- No instruction of the run forms an integer that is not a `Word`. -/
def ExactRun (prog : VPUProgram) (s : Processor) : Prop :=
  ∀ n u, (machine prog).iter n (start prog s) = .ok u → u.index < prog.instrSize → Exact prog u

section Runs
variable {prog : VPUProgram} {s u : Processor} {tr : List ℕ}

theorem exactRun_of_run (h : Run prog True (start prog s) tr u)
    (hu : (machine prog).running u = false) : ExactRun prog s := by
  intro n v hn hv
  exact h.forall_iter hu hn (machine_running.mpr hv) trivial

theorem not_exactRun {o : Op} (h : Run prog False (start prog s) tr u)
    (ho : OpAt prog u.index o) (ho' : ¬ o.Exact u) : ¬ ExactRun prog s := by
  intro hs
  exact ho' (hs _ u h.iter_eq ho.lt o ho)

end Runs

theorem not_fits_square {x : Word} (h : 3037000500 ≤ x.toInt) :
    ¬ Fits 64 (x.toInt * x.toInt) := by
  rintro ⟨-, hlt⟩
  have hsq : (3037000500 : ℤ) * 3037000500 ≤ x.toInt * x.toInt :=
    mul_le_mul h h (by norm_num) (by linarith)
  norm_num at hlt hsq
  linarith

namespace MultInverse

/-- The argument `P - 1` is squared before anything reduces it. -/
theorem not_exactRun_of_large {P : ℕ} {s : Processor} (hP : (s.sram 0).toInt = P)
    (hlarge : 3037000500 < P) (hx : (s.sram 1).toInt = P - 1) : ¬ ExactRun program s := by
  have hp1 : 1 ≤ (s.sram 0).toInt := by omega
  have hx1 : s.sram 1 ≠ 1 := by
    intro h
    rw [h] at hx
    change (1 : ℤ) = _ at hx
    omega
  have hz : s.sram 0 - 2 ≠ 0 := by
    intro h
    have he := toInt_exponent hp1
    rw [h] at he
    change (0 : ℤ) = _ at he
    omega
  obtain ⟨tr, u, hu, hui, -, h20⟩ := run_to_square s hx1 hz fun _ => safeDivisor_of_one_le hp1
  refine not_exactRun hu (o := .prime .mulp 20 20 20) ?_ ?_
  · rw [hui]
    exact codeAt_program.at 14 rfl
  · rw [exact_mulp, h20]
    exact not_fits_square (by omega)

theorem exactRun_iff {P : ℕ} (hprime : P.Prime) (hmax : P ≤ 2 ^ 63 - 1) :
    (∀ s : Processor, (s.sram 0).toInt = P → InField (s.sram 0) (s.sram 1) →
      ExactRun program s) ↔ P ≤ 3037000500 := by
  have hp2 := hprime.two_le
  constructor
  · intro h
    by_contra hlarge
    have hP : (BitVec.ofNat 64 P).toInt = P := toInt_ofNat_of_lt (by decide) (by omega)
    have hx : (BitVec.ofNat 64 (P - 1)).toInt = P - 1 := by
      rw [toInt_ofNat_of_lt (by decide) (by omega)]
      omega
    refine not_exactRun_of_large (s := .ofCells [.ofNat 64 P, .ofNat 64 (P - 1)]) hP
      (by omega) hx (h _ hP ?_)
    change InField (.ofNat 64 P) (.ofNat 64 (P - 1))
    unfold InField Canonical
    omega
  · intro hle s hP hx
    have hp := smallModulus_of_natCast hP hp2 hle
    obtain ⟨t, ht, -, hhalt⟩ := run_program (H := True) s (by omega) fun _ => ⟨hp, hx⟩
    exact exactRun_of_run ht hhalt

end MultInverse

namespace PAdd

/-- The tangent squares the abscissa before anything reduces it. -/
theorem not_exactRun_of_large {P : ℕ} {s : Processor} (h : FinitePoints P s)
    (hlarge : 3037000500 < P) (hx : (s.sram 4).toInt = P - 1) (hx2 : s.sram 4 = s.sram 6)
    (hy2 : s.sram 5 = s.sram 7) : ¬ ExactRun program s := by
  have h1 := Inputs.not_firstZero (i := inputs s) h.z h.x1.1 h.y1.1
  have h2 := Inputs.not_secondZero (i := inputs s) h.z h.x2.1 h.y2.1
  obtain ⟨tr, u, hu, hui, hload⟩ := run_to_tangent (H := False) (s := start program s)
    codeAt_program codeAt_program (linked_of_append [] s.labels) rfl h1 h2 hx2 hy2
  refine not_exactRun hu (o := .prime .mulp 1 1 13) ?_ ?_
  · rw [hui]
    exact codeAt_program.at 43 rfl
  · have hr1 : u.regs 1 = s.sram 4 := hload.r1
    rw [exact_mulp, hr1]
    exact not_fits_square (by omega)

theorem exactRun_iff {P : ℕ} (hprime : P.Prime) (hmax : P ≤ 2 ^ 63 - 1) :
    (∀ s : Processor, FinitePoints P s → ExactRun program s) ↔ P ≤ 3037000500 := by
  have hp2 := hprime.two_le
  constructor
  · intro h
    by_contra hlarge
    have hP : (BitVec.ofNat 64 P).toInt = P := toInt_ofNat_of_lt (by decide) (by omega)
    have hx : (BitVec.ofNat 64 (P - 1)).toInt = P - 1 := by
      rw [toInt_ofNat_of_lt (by decide) (by omega)]
      omega
    have hfield : ∀ a : Word, 0 ≤ a.toInt → a.toInt ≤ P - 1 → InField (.ofNat 64 P) a := by
      intro a h0 h1
      unfold InField Canonical
      omega
    have hzero : InField (.ofNat 64 P) 0 := hfield 0 le_rfl (by simp; omega)
    have hlast : InField (.ofNat 64 P) (.ofNat 64 (P - 1)) := hfield _ (by omega) (by omega)
    have hs : FinitePoints P (.ofCells [.ofNat 64 P, 0, 0, -1, .ofNat 64 (P - 1), 0,
        .ofNat 64 (P - 1), 0]) := ⟨hP, hzero, by change ((-1 : Word)).toInt < 0; decide, hlast,
        hzero, hlast, hzero⟩
    exact not_exactRun_of_large hs (by omega) hx rfl rfl (h _ hs)
  · intro hle s hs
    have hi := hs.canonical hp2 hle
    obtain ⟨t, ht, -, hhalt⟩ := run_program (H := True) s (by have := hs.p; omega) fun _ => hi
    exact exactRun_of_run ht hhalt

end PAdd

/-- Both kernels are exact for the primes whose residues multiply within a `Word`,
and for no other prime. -/
theorem kernels_exact_iff {P : ℕ} (hprime : P.Prime) (hmax : P ≤ 2 ^ 63 - 1) :
    ((∀ s : Processor, (s.sram 0).toInt = P → InField (s.sram 0) (s.sram 1) →
        ExactRun MultInverse.program s) ↔ P ≤ 3037000500) ∧
      ((∀ s : Processor, PAdd.FinitePoints P s → ExactRun PAdd.program s) ↔ P ≤ 3037000500) :=
  ⟨MultInverse.exactRun_iff hprime hmax, PAdd.exactRun_iff hprime hmax⟩

theorem kernels_exact_iff_five :
    ((∀ s : Processor, (s.sram 0).toInt = (5 : ℕ) → InField (s.sram 0) (s.sram 1) →
        ExactRun MultInverse.program s) ↔ 5 ≤ 3037000500) ∧
      ((∀ s : Processor, PAdd.FinitePoints 5 s → ExactRun PAdd.program s) ↔ 5 ≤ 3037000500) :=
  kernels_exact_iff (by norm_num) (by norm_num)

/-- The Mersenne prime `2 ^ 61 - 1`. -/
theorem mersenne_overflows :
    (2 ^ 61 - 1 : ℕ).Prime ∧ (2 ^ 61 - 1 : ℕ) ≤ 2 ^ 63 - 1 ∧
      InField 2305843009213693951 2305843009213693950 ∧
      ¬ ExactRun MultInverse.program (.ofCells [2305843009213693951, 2305843009213693950]) :=
  ⟨lucas_lehmer_sufficiency 61 (by norm_num) (by norm_num), by norm_num, by decide,
    MultInverse.not_exactRun_of_large (P := 2305843009213693951) rfl (by norm_num) rfl⟩

end Fabric

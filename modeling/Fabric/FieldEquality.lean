import Fabric.Labels
import Fabric.FieldProgram

/-! When the words of straight-line field programs decide equality in the field. -/
namespace Fabric
open Lib

/-- The registers that straight-line code writes. -/
def written (ops : List Op) : List Reg := ops.filterMap Op.dest

/-- The operation puts a canonical value into a register, or computes on registers of `W`. -/
def FieldInput (s : Processor) (W : List Reg) : Op → Prop
  | .set v _ => InField s.p v
  | .ld a _ => InField s.p (s.sram a)
  | .prime _ x y _ => x ∈ W ∧ y ∈ W
  | _ => False

/-- Code that loads canonical values and computes on registers it has written before. -/
def FieldCode (s : Processor) (ops : List Op) : Prop :=
  ∀ k o, ops[k]? = some o → FieldInput s (written (ops.take k)) o

/-- The field value of a register after the code. -/
def fieldValue (P : ℕ) (s : Processor) (ops : List Op) (r : Reg) : ZMod P :=
  (fieldValues P s ops).regs r

/-- After the code the registers it has written are canonical, and a branch on two of
them is taken exactly on equal field values. -/
structure DecidesEquality (P : ℕ) (s : Processor) (ops : List Op) : Prop where
  canonical : ∀ prog, CodeAt prog 0 ops → ∃ u, runProgram prog ops.length s = .ok u ∧
    ∀ r ∈ written ops, InField s.p (u.regs r)
  beq : ∀ prog x y l, CodeAt prog 0 (ops ++ [.beq x y l]) → x ∈ written ops → y ∈ written ops →
    ∃ u, runProgram prog ops.length s = .ok u ∧ step prog u = .ok
      (if fieldValue P s ops x = fieldValue P s ops y then u.jump l else u.next)

/-- Every subtraction of the code finds a minuend that is not the smaller one. -/
def SubpOrdered (prog : VPUProgram) (s : Processor) (ops : List Op) : Prop :=
  ∀ k x y d, ops[k]? = some (.prime .subp x y d) →
    ∀ u, runProgram prog k s = .ok u → (u.regs y).toInt ≤ (u.regs x).toInt

theorem kind_of_fieldInput {s : Processor} {W : List Reg} {o : Op} (h : FieldInput s W o) :
    o.pOnly = true ∧ o.isField = true := by
  cases o
  case set | ld | prime => exact ⟨rfl, rfl⟩
  all_goals exact h.elim

theorem FieldCode.pOnly {s : Processor} {ops : List Op} (h : FieldCode s ops) :
    ∀ o ∈ ops, o.pOnly = true := by
  intro o ho
  obtain ⟨k, hk⟩ := List.getElem?_of_mem ho
  exact (kind_of_fieldInput (h k o hk)).1

theorem FieldCode.take_regOnly {s : Processor} {ops : List Op} (h : FieldCode s ops) (k : ℕ) :
    ∀ o ∈ ops.take k, o.regOnly = true :=
  fun o ho => Op.regOnly_of_pOnly (h.pOnly o (List.mem_of_mem_take ho))

/-- A negative difference is reduced to a negative word. -/
theorem le_of_subp_inField {p a b : Word} (hp : SmallModulus p) (ha : InField p a)
    (hb : InField p b) (h : InField p (subp p a b)) : b.toInt ≤ a.toInt := by
  by_contra hlt
  have hneg : (a.toInt - b.toInt).tmod p.toInt = a.toInt - b.toInt := by
    have h1 := ha.1
    have h2 := hb.2
    rw [show a.toInt - b.toInt = -(b.toInt - a.toInt) by ring, Int.neg_tmod,
      Int.tmod_eq_of_lt (by omega) (by omega)]
  have h0 := h.1
  rw [toInt_subp (hp.fits_sub ha.within hb.within), hneg] at h0
  omega

section Run
variable {P k : ℕ} {prog prog' : VPUProgram} {ops : List Op} {s u : Processor} {o : Op}

/-- The state after the first `k` instructions. -/
theorem runProgram_take (hc : CodeAt prog 0 ops) (hf : ∀ o ∈ ops, o.pOnly = true)
    (hp : SafeDivisor s.p) (hk : k ≤ ops.length) :
    runProgram prog k s = .ok (runOps (ops.take k) (start prog s)) ∧
      (runOps (ops.take k) (start prog s)).index = k := by
  have hlen : (ops.take k).length = k := List.length_take_of_le hk
  obtain ⟨hr, hi⟩ := run_field_block (H := False) (s := start prog s) (hc.slice 0 k) rfl
    (fun o ho => hf o (List.mem_of_mem_take ho)) hp False.elim
  have hiter := hr.iter_eq
  rw [List.length_range'] at hiter
  change (machine prog).iter (ops.take k).length _ = _ at hiter
  change (runOps (ops.take k) _).index = 0 + 0 + (ops.take k).length at hi
  rw [hlen] at hiter hi
  exact ⟨hiter, by omega⟩

/-- One operation keeps what is written canonical, if it subtracts in order. -/
theorem canonical_apply {W : List Reg} (hin : FieldInput s W o) (hp : SmallModulus s.p)
    (hup : u.p = s.p) (husram : u.sram = s.sram) (hu : ∀ r ∈ W, InField s.p (u.regs r))
    (hsub : ∀ x y d, o = .prime .subp x y d → (u.regs y).toInt ≤ (u.regs x).toInt) :
    o.Exact u ∧ ∀ d ∈ o.dest, InField s.p ((o.apply u).regs d) := by
  cases o
  case set v d =>
    refine ⟨Op.exact_of_none rfl, fun d' hd => ?_⟩
    cases hd
    rw [apply_set_regs, if_pos rfl]
    exact hin
  case ld a d =>
    refine ⟨Op.exact_of_none rfl, fun d' hd => ?_⟩
    cases hd
    rw [apply_ld_regs, if_pos rfl, husram]
    exact hin
  case prime g x y d =>
    have hx := hu x hin.1
    have hy := hu y hin.2
    cases g with
    | addp =>
      have he := hp.fits_add hx.within hy.within
      refine ⟨(exact_addp u x y d).mpr he, fun d' hd => ?_⟩
      cases hd
      rw [apply_addp_regs, if_pos rfl, hup]
      exact hx.addp hp hy
    | subp =>
      have he := hp.fits_sub hx.within hy.within
      refine ⟨(exact_subp u x y d).mpr he, fun d' hd => ?_⟩
      cases hd
      rw [apply_subp_regs, if_pos rfl, hup]
      exact subp_field hp he (hsub x y d rfl)
    | mulp =>
      have he := hp.fits_mul hx.reduced hy.reduced
      refine ⟨(exact_mulp u x y d).mpr he, fun d' hd => ?_⟩
      cases hd
      rw [apply_mulp_regs, if_pos rfl, hup]
      exact hx.mulp hp hy
  all_goals exact hin.elim

theorem take_succ_eq (ho : ops[k]? = some o) : ops.take (k + 1) = ops.take k ++ [o] := by
  rw [List.take_add_one, ho]
  rfl

theorem mem_written_append {r : Reg} (h : r ∈ written (ops ++ [o])) :
    r ∈ written ops ∨ o.dest = some r := by
  simpa [written] using h

/-- Code whose subtractions are in order keeps what it has written canonical and
computes the field values. -/
theorem canonical_run (hp : SmallModulus s.p) (hP : s.p.toInt = P) (hc : CodeAt prog 0 ops)
    (hf : FieldCode s ops) (hsub : SubpOrdered prog s ops) (hk : k ≤ ops.length) :
    (∀ r ∈ written (ops.take k), InField s.p ((runOps (ops.take k) (start prog s)).regs r)) ∧
      (runOps (ops.take k) (start prog s)).residues P = fieldValues P s (ops.take k) := by
  induction k with
  | zero => exact ⟨fun _ hr => absurd hr List.not_mem_nil, rfl⟩
  | succ k ih =>
    obtain ⟨hcanon, hres⟩ := ih (by omega)
    have hrun := (runProgram_take (k := k) hc hf.pOnly hp.safeDivisor (by omega)).1
    obtain ⟨o, ho⟩ : ∃ o, ops[k]? = some o := ⟨_, List.getElem?_eq_getElem hk⟩
    have hup : (runOps (ops.take k) (start prog s)).p = s.p := runOps_p (hf.take_regOnly k)
    have husram : (runOps (ops.take k) (start prog s)).sram = s.sram :=
      runOps_sram (hf.take_regOnly k)
    obtain ⟨he, hdest⟩ := canonical_apply (hf k o ho) hp hup husram hcanon
      fun x y d h => hsub k x y d (h ▸ ho) _ hrun
    rw [take_succ_eq ho, runOps_concat]
    constructor
    · intro r hr
      by_cases hd : o.dest = some r
      · exact hdest r hd
      · rw [apply_regs (Op.plain_of_regOnly (Op.regOnly_of_pOnly
          (kind_of_fieldInput (hf k o ho)).1)) hd]
        exact hcanon r ((mem_written_append hr).resolve_right hd)
    · rw [Op.residues_apply (kind_of_fieldInput (hf k o ho)).2 (by rw [hup]; exact hP) he, hres,
        fieldValues, fieldValues, evalIn_concat]

theorem FieldCode.take (h : FieldCode s ops) (k : ℕ) : FieldCode s (ops.take k) := by
  intro j o hj
  have hjk : j < k := by
    by_contra hle
    rw [List.getElem?_take, if_neg hle] at hj
    cases hj
  rw [List.getElem?_take, if_pos hjk] at hj
  rw [List.take_take, min_eq_left hjk.le]
  exact h j o hj

/-- What the code computes does not depend on the program around it. -/
theorem canonical_elsewhere (hp : SmallModulus s.p) (hP : s.p.toInt = P) (hc : CodeAt prog 0 ops)
    (hf : FieldCode s ops) (hsub : SubpOrdered prog s ops) (hk : k ≤ ops.length)
    (hc' : CodeAt prog' 0 (ops.take k)) :
    ∃ u, runProgram prog' (ops.take k).length s = .ok u ∧ u.index = k ∧
      (∀ r ∈ written (ops.take k), InField s.p (u.regs r)) ∧
      ∀ r, res P (u.regs r) = fieldValue P s (ops.take k) r := by
  have hpOnly := (hf.take k).pOnly
  obtain ⟨hcanon, hres⟩ := canonical_run hp hP hc hf hsub hk
  obtain ⟨hrun, hi⟩ := runProgram_take hc' hpOnly hp.safeDivisor le_rfl
  rw [List.take_length] at hrun hi
  have hsame : (runOps (ops.take k) (start prog s)).Same (runOps (ops.take k) (start prog' s)) :=
    runOps_same (fun o ho => Op.plain_of_regOnly (hf.take_regOnly k o ho)) ⟨rfl, rfl, rfl, rfl⟩
  refine ⟨_, hrun, by rw [hi, List.length_take_of_le hk], ?_, ?_⟩
  · rw [← hsame.regs]
    exact hcanon
  · intro r
    rw [← hsame.regs, fieldValue, ← hres]
    rfl

/-- Canonical words before and after a subtraction put it in order. -/
theorem subpOrdered_of_decidesEquality (hp : SmallModulus s.p) (hc : CodeAt prog 0 ops)
    (hf : FieldCode s ops) (h : ∀ k ≤ ops.length, DecidesEquality P s (ops.take k)) :
    SubpOrdered prog s ops := by
  intro k x y d hk u hu
  have hlt : k < ops.length := (List.getElem?_eq_some_iff.mp hk).1
  obtain ⟨hx, hy⟩ := hf k _ hk
  have hbefore := (runProgram_take hc hf.pOnly hp.safeDivisor hlt.le).1
  have hafter := (runProgram_take (k := k + 1) hc hf.pOnly hp.safeDivisor hlt).1
  rw [hbefore] at hu
  cases hu
  obtain ⟨u, hu, hcanon⟩ := (h k hlt.le).canonical prog (hc.slice 0 k)
  obtain ⟨v, hv, hcanon'⟩ := (h (k + 1) hlt).canonical prog (hc.slice 0 (k + 1))
  rw [List.length_take_of_le hlt.le, hbefore] at hu
  rw [List.length_take_of_le hlt, hafter, take_succ_eq hk, runOps_concat] at hv
  cases hu
  cases hv
  have hd : d ∈ written (ops.take (k + 1)) := by
    rw [take_succ_eq hk]
    simp [written, Op.dest]
  have hdiff := hcanon' d hd
  have hup : (runOps (ops.take k) (start prog s)).p = s.p := runOps_p (hf.take_regOnly k)
  rw [apply_subp_regs, if_pos rfl, hup] at hdiff
  exact le_of_subp_inField hp (hcanon x hx) (hcanon y hy) hdiff

theorem decidesEquality_of_subpOrdered (hp : SmallModulus s.p) (hP : s.p.toInt = P)
    (hc : CodeAt prog 0 ops) (hf : FieldCode s ops) (hsub : SubpOrdered prog s ops)
    (hk : k ≤ ops.length) : DecidesEquality P s (ops.take k) := by
  constructor
  · intro prog' hc'
    obtain ⟨u, hu, -, hcanon, -⟩ := canonical_elsewhere hp hP hc hf hsub hk hc'
    exact ⟨u, hu, hcanon⟩
  · intro prog' x y l hc' hx hy
    obtain ⟨u, hu, hi, hcanon, hres⟩ := canonical_elsewhere hp hP hc hf hsub hk hc'.left
    have hbeq : OpAt prog' (0 + k) (.beq x y l) := hc' k _ (by
      rw [List.getElem?_append_right (by simp), List.length_take_of_le hk, Nat.sub_self]
      rfl)
    rw [Nat.zero_add, ← hi] at hbeq
    obtain ⟨i, hinstr, hdec⟩ := hbeq
    refine ⟨u, hu, ?_⟩
    rw [step_of_no_fault hinstr hdec rfl, ← hres x, ← hres y]
    simp only [Op.apply, (hcanon x hx).eq_iff hP (hcanon y hy)]

/-- Field programs decide equality at every point exactly if no subtraction goes below
zero. -/
theorem decidesEquality_iff (hp : SmallModulus s.p) (hP : s.p.toInt = P) (hc : CodeAt prog 0 ops)
    (hf : FieldCode s ops) :
    (∀ k ≤ ops.length, DecidesEquality P s (ops.take k)) ↔ SubpOrdered prog s ops := by
  constructor
  · intro h
    exact subpOrdered_of_decidesEquality hp hc hf h
  · intro hsub k hk
    exact decidesEquality_of_subpOrdered hp hP hc hf hsub hk

end Run

/-- Two constants subtracted, and a third one compared with the difference. -/
def differenceProgram (a b c : Word) : VPUProgram :=
  ⟨[ { op := .set, inputs := [.kValue a], outputs := [.kReg 1], label := "start" },
     { op := .set, inputs := [.kValue b], outputs := [.kReg 2] },
     { op := .subp, inputs := [.kReg 1, .kReg 2], outputs := [.kReg 3] },
     { op := .set, inputs := [.kValue c], outputs := [.kReg 4] },
     { op := .beq, inputs := [.kReg 3, .kReg 4], outputs := [.kLabel "start"] } ],
    by simp [INT_MAX]⟩

def differenceOps (a b c : Word) : List Op :=
  [.set a 1, .set b 2, .prime .subp 1 2 3, .set c 4]

theorem codeAt_difference (a b c : Word) :
    CodeAt (differenceProgram a b c) 0 (differenceOps a b c ++ [.beq 3 4 "start"]) := by
  have hd : (differenceProgram a b c).instr.map VPUInstruction.decode =
      (differenceOps a b c ++ [Op.beq 3 4 "start"]).map .ok := rfl
  exact codeAt_of_decode [] [] (List.append_nil _).symm hd

theorem fieldCode_difference {a b c : Word} (s : Processor) (ha : InField s.p a)
    (hb : InField s.p b) (hc : InField s.p c) : FieldCode s (differenceOps a b c) := by
  intro k o hk
  rcases k with _ | _ | _ | _ | k <;> cases hk
  · exact ha
  · exact hb
  · exact ⟨by simp [written, differenceOps, Op.dest], by simp [written, differenceOps, Op.dest]⟩
  · exact hc

theorem decidesEquality_difference : DecidesEquality 5 moduloFive (differenceOps 2 1 1) := by
  refine (decidesEquality_iff (s := moduloFive) (by decide) rfl (codeAt_difference 2 1 1).left
    (fieldCode_difference moduloFive (by decide) (by decide) (by decide))).mpr ?_ 4 le_rfl
  intro k x y d hk u hu
  rcases k with _ | _ | _ | _ | k <;> cases hk
  cases hu
  decide

/-- One minus two is kept as minus one, which a branch tells from four. -/
theorem negative_difference :
    Nat.Prime 5 ∧ SmallModulus moduloFive.p ∧ moduloFive.p.toInt = (5 : ℕ) ∧
      FieldCode moduloFive (differenceOps 1 2 4) ∧
      CodeAt (differenceProgram 1 2 4) 0 (differenceOps 1 2 4 ++ [.beq 3 4 "start"]) ∧
      fieldValue 5 moduloFive (differenceOps 1 2 4) 3 =
        fieldValue 5 moduloFive (differenceOps 1 2 4) 4 ∧
      (∃ u, runProgram (differenceProgram 1 2 4) 4 moduloFive = .ok u ∧ u.regs 3 = -1 ∧
        u.regs 4 = 4 ∧ step (differenceProgram 1 2 4) u = .ok u.next ∧
        u.next.pc ≠ (u.jump "start").pc) ∧
      ¬ DecidesEquality 5 moduloFive (differenceOps 1 2 4) := by
  have hvalue : fieldValue 5 moduloFive (differenceOps 1 2 4) 3 =
      fieldValue 5 moduloFive (differenceOps 1 2 4) 4 := by
    decide
  have hrun : ∃ u, runProgram (differenceProgram 1 2 4) 4 moduloFive = .ok u ∧ u.regs 3 = -1 ∧
      u.regs 4 = 4 ∧ step (differenceProgram 1 2 4) u = .ok u.next ∧
      u.next.pc ≠ (u.jump "start").pc :=
    ⟨_, rfl, by decide, by decide, rfl, by decide⟩
  refine ⟨by norm_num, by decide, rfl, fieldCode_difference _ (by decide) (by decide) (by decide),
    codeAt_difference 1 2 4, hvalue, hrun, fun h => ?_⟩
  obtain ⟨u, hu, -, -, hstep, hne⟩ := hrun
  obtain ⟨v, hv, hbeq⟩ := h.beq _ 3 4 "start" (codeAt_difference 1 2 4)
    (by simp [written, differenceOps, Op.dest]) (by simp [written, differenceOps, Op.dest])
  rw [show (differenceOps 1 2 4).length = 4 from rfl, hu] at hv
  cases hv
  rw [if_pos hvalue, hstep] at hbeq
  exact hne (congrArg Processor.pc (Except.ok.inj hbeq))

end Fabric

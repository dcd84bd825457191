import Fabric.Rerun

/-! Tables of what is known before each instruction. A table that passes its check holds in
every run; with it divisions are safe, returns lead to known indices, and loops end. -/
namespace Fabric
open Lib

/-- What may be known of the words that a processor keeps. -/
inductive Fact
  | among (l : Loc) (ws : List Word)
  | nonzero (l : Loc)
  | same (l m : Loc)
  deriving DecidableEq, Repr

def Fact.Holds (s : Processor) : Fact → Prop
  | .among l ws => s.get l ∈ ws
  | .nonzero l => s.get l ≠ 0
  | .same l m => s.get l = s.get m

abbrev Facts := List Fact

namespace Facts
variable {K : Facts} {s : Processor} {l : Loc} {ws : List Word}

def Hold (K : Facts) (s : Processor) : Prop := ∀ f ∈ K, f.Holds s

/-- The words that the place may hold, if it is known. -/
def words : Facts → Loc → Option (List Word)
  | [], _ => none
  | .among m ws :: K, l => if m = l then some ws else words K l
  | _ :: K, l => words K l

/-- The place does not hold the word. -/
def excludes (K : Facts) (l : Loc) (w : Word) : Bool :=
  decide (w = 0 ∧ .nonzero l ∈ K) || (K.words l).any fun ws => decide (w ∉ ws)

theorem hold_nil (s : Processor) : Hold [] s := fun _ hf => absurd hf List.not_mem_nil

theorem Hold.words (h : K.Hold s) (hw : K.words l = some ws) : s.get l ∈ ws := by
  induction K with
  | nil => cases hw
  | cons f K ih =>
    have htail : Hold K s := fun f' hf' => h f' (List.mem_cons_of_mem _ hf')
    cases f with
    | among m ws' =>
      rw [Facts.words] at hw
      split_ifs at hw with hm
      · cases hw
        rw [← hm]
        exact h _ List.mem_cons_self
      · exact ih htail hw
    | nonzero | same => exact ih htail hw

theorem Hold.ne {w : Word} (h : K.Hold s) (hw : K.excludes l w = true) : s.get l ≠ w := by
  rw [excludes, Bool.or_eq_true, decide_eq_true_eq, Option.any_eq_true] at hw
  rcases hw with ⟨rfl, hz⟩ | ⟨ws, hws, hw⟩
  · exact h _ hz
  · rw [decide_eq_true_eq] at hw
    exact fun h0 => hw (h0 ▸ h.words hws)

end Facts

namespace Op
variable {K : Facts} {k : ℕ} {o : Op} {s : Processor} {l m : Loc} {ws : List Word} {f : Fact}

/-- The place an operation writes. -/
def writes : Op → Option Loc
  | .ldp _ => some .p
  | .st _ a => some (.cell a)
  | o => o.dest.map .reg

/-- It is the one that the instruction names. -/
theorem writes_of_decode {i : VPUInstruction} (hd : i.decode = .ok o) : i.writes = o.writes := by
  unfold VPUInstruction.decode at hd
  cases hop : i.op <;> simp only [hop, VPUInstruction.decodeBin, VPUInstruction.decodePrime,
    bind_eq_ok] at hd
  all_goals grind [VPUInstruction.writes, writes, dest, Except.toOption]

/-- The place whose word an operation only moves. -/
def source : Op → Option Loc
  | .ldp a | .ld a _ => some (.cell a)
  | .st x _ => some (.reg x)
  | _ => none

/-- The words that the operation at index `k` may write. -/
def results (K : Facts) (k : ℕ) : Op → Option (List Word)
  | .set v _ => some [v]
  | .not x _ => (K.words (.reg x)).map (·.map (~~~·))
  | .bin f x y _ => (K.words (.reg x)).bind fun vs => (K.words (.reg y)).map fun ws =>
      vs.flatMap fun v => ws.map (f.eval v)
  | .jal _ _ => some [BitVec.ofNat 64 k]
  | o => o.source.bind K.words

/-- The fact holds behind the operation at index `k` if those of `K` hold before it. -/
def establishes (K : Facts) (k : ℕ) (o : Op) : Fact → Bool
  | .among l ws => ((if o.writes = some l then o.results K k else K.words l)).any fun ws' =>
      decide (ws' ⊆ ws)
  | .nonzero l =>
    if o.writes = some l then (o.results K k).any fun ws => decide (0 ∉ ws) else K.excludes l 0
  | .same l m => decide (o.writes = some l ∧ o.source = some m ∧ l ≠ m ∨
      o.writes ≠ some l ∧ o.writes ≠ some m ∧ .same l m ∈ K)

theorem get_jump (s : Processor) (l : String) (x : Loc) : (s.jump l).get x = s.get x := by
  rw [← get_labelAt s l x]
  cases x <;> rfl

/-- What an operation does not write stays as it is. -/
theorem get_apply (h : o.writes ≠ some l) (s : Processor) : (o.apply s).get l = s.get l := by
  have hput : ∀ (x : Loc) (v : Word), some x ≠ some l → (s.put x v).get l = s.get l := by
    intro x v hx
    rw [Processor.get_put, if_neg fun hl => hx (by rw [hl])]
  cases o with
  | ldp a => exact (get_next _ l).trans (hput .p _ h)
  | st x a => exact (get_next _ l).trans (hput (.cell a) _ h)
  | bin f x y d => exact (get_next _ l).trans (hput (.reg d) _ h)
  | not x d => exact (get_next _ l).trans (hput (.reg d) _ h)
  | set v d => exact (get_next _ l).trans (hput (.reg d) _ h)
  | ld a d => exact (get_next _ l).trans (hput (.reg d) _ h)
  | prime f x y d => exact (get_next _ l).trans (hput (.reg d) _ h)
  | jal t d => exact (get_jump _ t l).trans (hput (.reg d) _ h)
  | ret x => cases l <;> rfl
  | beq x y t =>
    rw [apply]
    split_ifs
    · exact get_jump s t l
    · exact get_next s l

/-- An operation that moves a word leaves it at its destination. -/
theorem get_apply_source (hw : o.writes = some l) (hs : o.source = some m) (s : Processor) :
    (o.apply s).get l = s.get m := by
  cases o
  case ldp a => cases hw; cases hs; rfl
  case ld a d =>
    cases hw
    cases hs
    exact (Processor.get_put s (.reg d) (.reg d) _).trans (if_pos rfl)
  case st x a =>
    cases hw
    cases hs
    exact (Processor.get_put s (.cell a) (.cell a) _).trans (if_pos rfl)
  all_goals cases hs

/-- The written word is one of those that the facts allow. -/
theorem apply_mem_results (h : K.Hold s) (hk : s.index = k) (hw : o.writes = some l)
    (hr : o.results K k = some ws) : (o.apply s).get l ∈ ws := by
  have hput : ∀ d v, (s.setReg d v).get (.reg d) = v := fun d v =>
    (Processor.get_put s (.reg d) (.reg d) v).trans (if_pos rfl)
  cases o with
  | set v d =>
    cases hw
    cases hr
    exact List.mem_singleton.mpr ((get_next _ _).trans (hput d v))
  | not x d =>
    cases hw
    obtain ⟨vs, hvs, rfl⟩ := Option.map_eq_some_iff.mp hr
    rw [apply, get_next, hput]
    exact List.mem_map_of_mem (h.words hvs)
  | bin f x y d =>
    cases hw
    obtain ⟨vs, hvs, hr⟩ := Option.bind_eq_some_iff.mp hr
    obtain ⟨us, hus, rfl⟩ := Option.map_eq_some_iff.mp hr
    rw [apply, get_next, hput]
    exact List.mem_flatMap.mpr ⟨_, h.words hvs, List.mem_map_of_mem (h.words hus)⟩
  | jal t d =>
    cases hw
    cases hr
    rw [apply, get_jump, hput, ← hk]
    exact List.mem_singleton.mpr (BitVec.ofNat_toNat 64 s.pc).symm
  | ldp | ld | st =>
    rw [get_apply_source hw rfl]
    exact h.words hr
  | ret | beq | prime => cases hr

/-- What an operation is said to establish holds behind it. -/
theorem establishes_sound (h : K.Hold s) (hk : s.index = k)
    (he : o.establishes K k f = true) : f.Holds (o.apply s) := by
  cases f with
  | among l ws =>
    rw [establishes, Option.any_eq_true] at he
    obtain ⟨ws', hws', hsub⟩ := he
    rw [decide_eq_true_eq] at hsub
    split_ifs at hws' with hw
    · exact hsub (apply_mem_results h hk hw hws')
    · refine hsub ?_
      rw [get_apply hw]
      exact h.words hws'
  | nonzero l =>
    rw [establishes] at he
    split_ifs at he with hw
    · obtain ⟨ws, hws, hz⟩ := (Option.any_eq_true _ _).mp he
      rw [decide_eq_true_eq] at hz
      exact fun h0 => hz (h0 ▸ apply_mem_results h hk hw hws)
    · rw [Fact.Holds, get_apply hw]
      exact h.ne he
  | same l m =>
    rw [establishes, decide_eq_true_eq] at he
    rw [Fact.Holds]
    rcases he with ⟨hw, hs, hne⟩ | ⟨hl, hm, hmem⟩
    · rw [get_apply_source hw hs, get_apply (by rw [hw]; simpa using hne)]
    · rw [get_apply hl, get_apply hm]
      exact h _ hmem

/-- The label an operation names. -/
def named : Op → Option String
  | .jal l _ | .beq _ _ l => some l
  | _ => none

/-- Where control may go from the operation at index `k`, each with what the way there
tells, unless the operation returns through a link that is not known. -/
def exits (prog : VPUProgram) (K : Facts) (k : ℕ) : Op → Option (List (ℕ × Facts))
  | .jal l _ => some [((prog.target l).toNat, [])]
  | .ret x => (K.words (.reg x)).map (·.map fun w => (((w + 1).setWidth 32).toNat, []))
  | .beq x y l => some (((prog.target l).toNat, []) :: if x = y then [] else
      [(k + 1, if K.words (.reg y) = some [0] then [.nonzero (.reg x)] else [])])
  | _ => some [(k + 1, [])]

theorem exits_of_plain {prog : VPUProgram} (ho : o.plain = true) :
    o.exits prog K k = some [(k + 1, [])] := by
  cases o
  case jal | ret | beq => cases ho
  all_goals rfl

theorem jump_index (s : Processor) (l : String) : (s.jump l).index = (s.target l).toNat :=
  congrArg BitVec.toNat (s.labelAt_fst l)

/-- The way that an operation takes is one of its exits. -/
theorem exists_exit {prog : VPUProgram} {es : List (ℕ × Facts)} (h : K.Hold s)
    (hs : s.index < 2 ^ 31) (ht : ∀ l ∈ o.named, s.target l = prog.target l)
    (he : o.exits prog K s.index = some es) :
    ∃ e ∈ es, (o.apply s).index = e.1 ∧ e.2.Hold (o.apply s) := by
  cases o
  case jal l d =>
    cases he
    refine ⟨_, List.mem_cons_self, (jump_index _ l).trans ?_, Facts.hold_nil _⟩
    exact congrArg BitVec.toNat (ht l rfl)
  case ret x =>
    obtain ⟨ws, hws, rfl⟩ := Option.map_eq_some_iff.mp he
    exact ⟨_, List.mem_map_of_mem (h.words hws), rfl, Facts.hold_nil _⟩
  case beq x y l =>
    cases he
    by_cases hxy : s.regs x = s.regs y
    · rw [apply, if_pos hxy]
      refine ⟨_, List.mem_cons_self, (jump_index s l).trans ?_, Facts.hold_nil _⟩
      exact congrArg BitVec.toNat (ht l rfl)
    · have hne : x ≠ y := fun hx => hxy (by rw [hx])
      rw [apply, if_neg hxy, if_neg hne]
      refine ⟨_, List.mem_cons_of_mem _ List.mem_cons_self, next_index hs, ?_⟩
      split_ifs with hy
      · have hy0 : s.regs y = 0 := List.mem_singleton.mp (h.words hy)
        intro f hf
        rw [List.mem_singleton.mp hf]
        exact fun h0 => hxy (h0.trans hy0.symm)
      · exact Facts.hold_nil _
  all_goals
    rw [exits_of_plain rfl] at he
    cases he
    exact ⟨_, List.mem_singleton_self _, apply_index rfl hs, Facts.hold_nil _⟩

/-- The place an operation divides by. -/
def divides : Op → Option Loc
  | .bin .div _ y _ => some (.reg y)
  | .prime _ _ _ _ => some .p
  | _ => none

theorem divisor_eq (o : Op) (s : Processor) : o.divisor s = o.divides.map s.get := by
  cases o with
  | bin f => cases f <;> rfl
  | _ => rfl

theorem reference_of_decode {i : VPUInstruction} {t : String} (hd : i.decode = .ok o)
    (ht : t ∈ o.named) : t ∈ i.reference := by
  unfold VPUInstruction.decode at hd
  cases hop : i.op <;> simp only [hop, VPUInstruction.decodeBin, VPUInstruction.decodePrime,
    bind_eq_ok] at hd
  case jal =>
    obtain ⟨d, -, x, hx, h⟩ := hd
    cases h
    exact (reference_of_jal hop hx).trans ht
  case beq =>
    obtain ⟨x, -, y, -, z, hz, h⟩ := hd
    cases h
    exact (reference_of_beq hop hz).trans ht
  all_goals grind [named]

end Op

/-- Every instruction is in order, and decodes to an operation that passes the check. -/
def VPUProgram.everyOp (prog : VPUProgram) (check : ℕ → Op → Bool) : Bool :=
  prog.instr.zipIdx.all fun x =>
    match x.1.decode with
    | .ok o => check x.2 o
    | .error _ => false

theorem VPUProgram.everyOp_at {prog : VPUProgram} {check : ℕ → Op → Bool} {k : ℕ}
    (h : prog.everyOp check = true) (hk : k < prog.instrSize) :
    ∃ o, OpAt prog k o ∧ check k o = true := by
  have hi : prog.instr[k]? = some (prog.instr[k]) := List.getElem?_eq_getElem hk
  have hx := List.all_eq_true.mp h _ (List.mk_mem_zipIdx_iff_getElem?.mpr hi)
  cases hd : (prog.instr[k]).decode with
  | ok o => exact ⟨o, ⟨_, hi, hd⟩, by simpa only [hd] using hx⟩
  | error => simp only [hd] at hx; cases hx

/-- The facts before each instruction. -/
abbrev FactTable := List Facts

namespace FactTable
variable (T : FactTable)

def row (k : ℕ) : Facts := T[k]?.getD []

/-- What the rows say is established on every way to them. -/
def Keeps (prog : VPUProgram) (k : ℕ) (o : Op) : Bool :=
  (o.exits prog (T.row k) k).any fun es => es.all fun e => (T.row e.1).all fun f =>
    decide (f ∈ e.2) || o.establishes (T.row k) k f

/-- Nothing is known at the start, and what is known later is established. -/
def Checks (prog : VPUProgram) : Bool := decide (T.row 0 = []) && prog.everyOp (T.Keeps prog)

end FactTable

section Run
variable {prog : VPUProgram} {T : FactTable} {s u v : Processor} {o : Op}

theorem OpAt.of_step (h : OpAt prog u.index o) (hv : step prog u = .ok v) :
    o.fault u = none ∧ v = o.apply u := by
  obtain ⟨i, hi, hd⟩ := h
  exact no_fault_of_step hi hd hv

/-- An operation of a program keeps the places that no instruction of it writes. -/
theorem OpAt.keeps {k : ℕ} {l : Loc} (h : OpAt prog k o) (hl : Untouched prog l) (u : Processor) :
    (o.apply u).get l = u.get l := by
  obtain ⟨i, hi, hd⟩ := h
  refine Op.get_apply ?_ u
  rw [← Op.writes_of_decode hd]
  exact hl i (List.mem_of_getElem? hi)

theorem OpAt.target_eq (h : OpAt prog u.index o) (hr : Resolved prog)
    (ht : u.target = (start prog s).target) : ∀ l ∈ o.named, u.target l = prog.target l := by
  obtain ⟨i, hi, hd⟩ := h
  exact fun l hl => hr.target_eq (List.mem_of_getElem? hi) ht l (Op.reference_of_decode hd hl)

/-- What is known of a state that a run gets to. -/
structure FactTable.At (T : FactTable) (prog : VPUProgram) (s u : Processor) : Prop where
  target : u.target = (start prog s).target
  facts : (T.row u.index).Hold u

/-- An instruction of a table that checks: its operation, and the exit that a run takes. -/
theorem FactTable.At.exists_exit (h : T.At prog s u) (hr : Resolved prog)
    (hT : T.Checks prog = true) (hu : u.index < prog.instrSize) :
    ∃ o es, OpAt prog u.index o ∧ o.exits prog (T.row u.index) u.index = some es ∧
      T.Keeps prog u.index o = true ∧
      ∃ e ∈ es, (o.apply u).index = e.1 ∧ e.2.Hold (o.apply u) := by
  rw [FactTable.Checks, Bool.and_eq_true] at hT
  obtain ⟨o, ho, hkeep⟩ := VPUProgram.everyOp_at hT.2 hu
  obtain ⟨es, hes, -⟩ := (Option.any_eq_true _ _).mp hkeep
  exact ⟨o, es, ho, hes, hkeep, Op.exists_exit h.facts (hu.trans prog.instrSize_lt)
    (ho.target_eq hr h.target) hes⟩

theorem FactTable.At.of_step (h : T.At prog s u) (hr : Resolved prog) (hT : T.Checks prog = true)
    (hu : u.index < prog.instrSize) (hv : step prog u = .ok v) : T.At prog s v := by
  obtain ⟨o, es, ho, hes, hkeep, e, he, hidx, hway⟩ := h.exists_exit hr hT hu
  refine ⟨(step_target hv).trans h.target, ?_⟩
  rw [(ho.of_step hv).2, hidx]
  rw [FactTable.Keeps, hes, Option.any_some, List.all_eq_true] at hkeep
  intro f hf
  have hfact := List.all_eq_true.mp (hkeep e he) f hf
  rw [Bool.or_eq_true, decide_eq_true_eq] at hfact
  rcases hfact with hmem | hest
  · exact hway f hmem
  · exact Op.establishes_sound h.facts rfl hest

theorem FactTable.at_start (hT : T.Checks prog = true) (s : Processor) :
    T.At prog s (start prog s) := by
  rw [FactTable.Checks, Bool.and_eq_true, decide_eq_true_eq] at hT
  refine ⟨rfl, ?_⟩
  rw [show (start prog s).index = 0 from rfl, hT.1]
  exact Facts.hold_nil _

/-- Wherever a run gets, the facts of the row for that instruction hold. -/
theorem FactTable.at_run (hr : Resolved prog) (hT : T.Checks prog = true) {n : ℕ}
    (h : runProgram prog n s = .ok u) : T.At prog s u :=
  Lib.Machine.iter_invariant (I := T.At prog s)
    (fun _ _ hu hrun hv => hu.of_step hr hT (machine_running.mp hrun) hv) (T.at_start hT s) h

end Run

namespace FactTable
variable (T : FactTable)

/-- Whatever divides divides by a place that holds neither zero nor minus one, or by the
word of the cell `a`, which no instruction writes. -/
def Guards (prog : VPUProgram) (a : Addr) : Bool :=
  decide (Untouched prog (.cell a)) && prog.everyOp fun k o => o.divides.all fun l =>
    (T.row k).excludes l 0 && (T.row k).excludes l (-1) || decide (.same l (.cell a) ∈ T.row k)

end FactTable

section Faults
variable {prog : VPUProgram} {T : FactTable} {a : Addr} {s u : Processor} {o : Op} {w : Word}
  {e : Fault} {n : ℕ}

theorem decodes_of_everyOp {check : ℕ → Op → Bool} (h : prog.everyOp check = true) :
    Decodes prog := by
  intro i hi
  obtain ⟨k, hk⟩ := List.mem_iff_getElem?.mp hi
  obtain ⟨o, ⟨i', hi', hd⟩, -⟩ := VPUProgram.everyOp_at h (List.getElem?_eq_some_iff.mp hk).1
  cases hk.symm.trans hi'
  exact ⟨o, hd⟩

theorem FactTable.untouched_of_guards (hG : T.Guards prog a = true) :
    Untouched prog (.cell a) := by
  rw [FactTable.Guards, Bool.and_eq_true, decide_eq_true_eq] at hG
  exact hG.1

theorem FactTable.decodes_of_guards (hG : T.Guards prog a = true) : Decodes prog := by
  rw [FactTable.Guards, Bool.and_eq_true] at hG
  exact decodes_of_everyOp hG.2

/-- Where a guarded program divides, the divisor is neither zero nor minus one, or it is
the word that the cell `a` has at the start. -/
theorem FactTable.At.divisor_of_guards (h : T.At prog s u) (hG : T.Guards prog a = true)
    (hcell : u.get (.cell a) = s.get (.cell a)) (ho : OpAt prog u.index o)
    (hw : o.divisor u = some w) : w ≠ 0 ∧ w ≠ -1 ∨ w = s.sram a := by
  rw [FactTable.Guards, Bool.and_eq_true] at hG
  obtain ⟨o', ho', hguard⟩ := VPUProgram.everyOp_at hG.2 ho.lt
  cases ho.det ho'
  rw [Op.divisor_eq] at hw
  obtain ⟨l, hl, rfl⟩ := Option.map_eq_some_iff.mp hw
  rw [hl, Option.all_some, Bool.or_eq_true, Bool.and_eq_true, decide_eq_true_eq] at hguard
  rcases hguard with ⟨h0, h1⟩ | hsame
  · exact Or.inl ⟨h.facts.ne h0, h.facts.ne h1⟩
  · exact Or.inr ((h.facts _ hsame).trans hcell)

/-- With guarded divisions, and a cell `a` that is not minus one, a run fails only if the cell
is zero. -/
theorem FactTable.error_of_guards (hr : Resolved prog) (hT : T.Checks prog = true)
    (hG : T.Guards prog a = true) (ha : s.sram a ≠ -1) (h : runProgram prog n s = .error e) :
    e = .divisionByZero ∧ s.sram a = 0 := by
  obtain ⟨k, -, u, hu, hlt, hfail⟩ := (runProgram_error_iff (T.decodes_of_guards hG)).mp h
  have hcell := run_frame (T.untouched_of_guards hG) hu
  have hat := T.at_run hr hT hu
  rcases hfail with ⟨rfl, o, ho, hz⟩ | ⟨-, o, ho, -, hq⟩
  · refine ⟨rfl, ?_⟩
    rcases hat.divisor_of_guards hG hcell ho hz with ⟨h0, -⟩ | h0
    · exact absurd rfl h0
    · exact h0.symm
  · rcases hat.divisor_of_guards hG hcell ho hq with ⟨-, h1⟩ | h1
    · exact absurd rfl h1
    · exact absurd h1.symm ha

/-- The instruction about to execute divides, if at all, by neither zero nor minus one, so
that `/` and `%` are defined for every dividend. -/
def DivisionDefined (prog : VPUProgram) (u : Processor) : Prop :=
  ∀ o, OpAt prog u.index o → ∀ w ∈ o.divisor u, SafeDivisor w

/-- Every division that a guarded program executes is defined, unless the cell `a` is minus
one. -/
theorem FactTable.divisions_defined (hr : Resolved prog) (hT : T.Checks prog = true)
    (hG : T.Guards prog a = true) (ha : s.sram a ≠ -1) {tr : List ℕ}
    (h : (machine prog).Seg Processor.index (fun _ => True) (start prog s) tr u) :
    (machine prog).Seg Processor.index (DivisionDefined prog) (start prog s) tr u := by
  have hkept := T.untouched_of_guards hG
  refine h.of_invariant (I := fun u => T.At prog s u ∧ u.get (.cell a) = s.get (.cell a)) ?_
    ⟨T.at_start hT s, rfl⟩
  rintro v v' ⟨hv, hcell⟩ hrun hstep
  have hlt := machine_running.mp hrun
  refine ⟨⟨hv.of_step hr hT hlt hstep, ?_⟩, fun o ho w hw => ?_⟩
  · obtain ⟨o, ho⟩ := (T.decodes_of_guards hG).opAt hlt
    rw [(ho.of_step hstep).2]
    exact (ho.keeps hkept v).trans hcell
  · rcases hv.divisor_of_guards hG hcell ho hw with hdef | hwa
    · exact hdef
    -- the step has succeeded, so the divisor is not zero
    have hz := Op.not_dividesByZero_of_fault (ho.of_step hstep).1
    exact ⟨fun h0 => hz ((Option.mem_def.mp hw).trans (by rw [h0])), hwa ▸ ha⟩

end Faults

end Fabric

import Fabric.Block
import Fabric.Control

/-! Runs of one program from states that differ in their label table. A run sees the
table only through the indices its jumps look up, and no jump changes these. -/
namespace Fabric

namespace Processor

/-- The index that a lookup of `l` yields. -/
def target (s : Processor) (l : String) : BitVec 32 := (s.labels l).getD 0

def withLabels (s : Processor) (m : Labels) : Processor := { s with labels := m }

/-- A processor with an empty `labels_`. -/
def clearLabels (s : Processor) : Processor := s.withLabels fun _ => none

/-- The states agree on everything but `labels_`. -/
structure Same (s s' : Processor) : Prop where
  sram : s.sram = s'.sram
  regs : s.regs = s'.regs
  p : s.p = s'.p
  pc : s.pc = s'.pc

theorem Same.eq_withLabels {s s' : Processor} (h : s.Same s') : s' = s.withLabels s'.labels := by
  obtain ⟨hsram, hregs, hp, hpc⟩ := h
  cases s
  cases s'
  simp only at hsram hregs hp hpc
  rw [hsram, hregs, hp, hpc]
  rfl

theorem same_withLabels (s : Processor) (m : Labels) : s.Same (s.withLabels m) :=
  ⟨rfl, rfl, rfl, rfl⟩

theorem labelAt_fst (s : Processor) (l : String) : (s.labelAt l).1 = s.target l := by
  unfold labelAt target
  cases s.labels l <;> rfl

theorem labelAt_same (s : Processor) (l : String) : s.Same (s.labelAt l).2 := by
  unfold labelAt
  cases s.labels l
  · exact ⟨rfl, rfl, rfl, rfl⟩
  · exact ⟨rfl, rfl, rfl, rfl⟩

/-- The index stored for an unknown label is the one its lookup has invented. -/
theorem labelAt_target (s : Processor) (l : String) : (s.labelAt l).2.target = s.target := by
  unfold labelAt
  cases hl : s.labels l with
  | some j => rfl
  | none =>
    funext l'
    simp only [target, Function.update_apply]
    split_ifs with h
    · rw [h, hl]; rfl
    · rfl

end Processor

section Plain
variable {o : Op} {ops : List Op} {s s' : Processor}

/-- Plain operations do not look at the labels. -/
theorem apply_same (ho : o.plain = true) (h : s.Same s') : (o.apply s).Same (o.apply s') := by
  rw [h.eq_withLabels]
  cases o
  case jal | ret | beq => cases ho
  all_goals exact ⟨rfl, rfl, rfl, rfl⟩

theorem runOps_same (ho : ∀ o ∈ ops, o.plain = true) (h : s.Same s') :
    (runOps ops s).Same (runOps ops s') := by
  induction ops generalizing s s' with
  | nil => exact h
  | cons o ops ih =>
    exact ih (fun o' ho' => ho o' (List.mem_cons_of_mem o ho'))
      (apply_same (ho o List.mem_cons_self) h)

end Plain

namespace VPUInstruction
variable (i : VPUInstruction) (s : Processor)

/-- The label that `JAL` looks up. -/
def lookupJAL : Option String :=
  match i.outReg 0, i.inputAt 0 with
  | .ok _, .ok x => some x.label
  | _, _ => none

/-- The label that `BEQ` looks up, if it branches. -/
def lookupBEQ : Option String :=
  match i.inReg 0, i.inReg 1, i.outputAt 0 with
  | .ok x, .ok y, .ok z => if s.regs x = s.regs y then some z.label else none
  | _, _, _ => none

def lookup : Option String :=
  match i.op with
  | .jal => i.lookupJAL
  | .beq => i.lookupBEQ s
  | _ => none

end VPUInstruction

/-- The label that the next step looks up. -/
def lookup (prog : VPUProgram) (s : Processor) : Option String :=
  prog.instr[s.index]?.bind fun i => i.lookup s

section Commute
variable {e : Execute} {f : NextPc} {i : VPUInstruction} {s : Processor} {m : Labels}

/-- An executor that does not look at `labels_`. -/
def LabelFree (e : Execute) : Prop :=
  ∀ i s m, e i (s.withLabels m) = (e i s).map fun t => t.withLabels m

theorem ControlFree.labelFree {e : Execute} (he : ControlFree e) : LabelFree e := by
  intro i s m
  change e i (s.withControl s.pc m) = _
  rw [he i s s.pc m]
  cases ht : e i s with
  | error => rfl
  | ok t => exact congrArg Except.ok (by rw [← (he.keeps ht).1]; rfl)

end Commute

/-- Both steps fault alike or leave states that agree up to `labels_`. -/
def SameResult : Except Fault Processor → Except Fault Processor → Prop
  | .ok t, .ok t' => t.Same t'
  | .error e, .error e' => e = e'
  | _, _ => False

def SameNext : Except Fault (BitVec 32 × Processor) → Except Fault (BitVec 32 × Processor) → Prop
  | .ok r, .ok r' => r.1 = r'.1 ∧ r.2.Same r'.2
  | .error e, .error e' => e = e'
  | _, _ => False

/-- What `labels_` means for an executor that looks up `look i s`. -/
structure LabelSpec (f : NextPc) (look : VPUInstruction → Processor → Option String) : Prop where
  same : ∀ i s m, (∀ l ∈ look i s, s.target l = (s.withLabels m).target l) →
    SameNext (f i s) (f i (s.withLabels m))
  target : ∀ i s r, f i s = .ok r → r.2.target = s.target
  look : ∀ i s, ∀ l ∈ look i s, ∃ t, f i s = .ok (s.target l, t)

theorem LabelFree.spec {e : Execute} (h : LabelFree e) : LabelSpec e.nextPc fun _ _ => none where
  same i s m _ := by
    unfold Execute.nextPc
    rw [h i s m]
    cases e i s with
    | error => rfl
    | ok t => exact ⟨rfl, t.same_withLabels m⟩
  target i s r hr := by
    have hs := h i s s.labels
    rw [show s.withLabels s.labels = s from rfl] at hs
    unfold Execute.nextPc at hr
    cases he : e i s with
    | error => rw [he] at hr; cases hr
    | ok t =>
      rw [he] at hr hs
      cases hr
      have ht : t = t.withLabels s.labels := Except.ok.inj hs
      change t.target = s.target
      rw [ht]
      rfl
  look _ _ _ hl := by cases hl

theorem same_labelAt {s : Processor} {m : Labels} {l : String}
    (h : s.target l = (s.withLabels m).target l) :
    SameNext (.ok (s.labelAt l)) (.ok ((s.withLabels m).labelAt l)) := by
  obtain ⟨h1, h2, h3, h4⟩ := s.labelAt_same l
  obtain ⟨h1', h2', h3', h4'⟩ := (s.withLabels m).labelAt_same l
  refine ⟨?_, h1.symm.trans h1', h2.symm.trans h2', h3.symm.trans h3', h4.symm.trans h4'⟩
  rw [Processor.labelAt_fst, Processor.labelAt_fst, h]

theorem lookupJAL_eq_some {i : VPUInstruction} {l : String} (h : i.lookupJAL = some l) :
    ∃ d x, i.outReg 0 = .ok d ∧ i.inputAt 0 = .ok x ∧ x.label = l := by
  unfold VPUInstruction.lookupJAL at h
  split at h
  case h_1 d x hd hx => exact ⟨d, x, hd, hx, Option.some.inj h⟩
  case h_2 => cases h

theorem labelSpec_jal : LabelSpec nextPcJAL fun i _ => i.lookupJAL where
  same i s m h := by
    unfold nextPcJAL
    unfold VPUInstruction.lookupJAL at h
    cases hd : i.outReg 0 with
    | error => rfl
    | ok d =>
      cases hx : i.inputAt 0 with
      | error => rfl
      | ok x =>
        rw [hd, hx] at h
        exact same_labelAt (s := s.setReg d (s.pc.setWidth 64)) (h x.label rfl)
  target i s r hr := by
    obtain ⟨d, -, hr⟩ := bind_eq_ok.mp hr
    obtain ⟨x, -, hr⟩ := bind_eq_ok.mp hr
    cases hr
    exact Processor.labelAt_target _ _
  look i s l hl := by
    obtain ⟨d, x, hd, hx, rfl⟩ := lookupJAL_eq_some hl
    have hstep : nextPcJAL i s = .ok ((s.setReg d (s.pc.setWidth 64)).labelAt x.label) := by
      rw [nextPcJAL, hd, hx]
      rfl
    exact ⟨_, hstep.trans (congrArg Except.ok (Prod.ext (Processor.labelAt_fst _ _) rfl))⟩

theorem labelSpec_ret : LabelSpec nextPcRET fun _ _ => none where
  same i s m _ := by
    unfold nextPcRET
    cases i.inReg 0 with
    | error => rfl
    | ok x => exact ⟨rfl, s.same_withLabels m⟩
  target i s r hr := by
    obtain ⟨x, -, hr⟩ := bind_eq_ok.mp hr
    cases hr
    rfl
  look _ _ _ hl := by cases hl

theorem lookupBEQ_eq_some {i : VPUInstruction} {s : Processor} {l : String}
    (h : i.lookupBEQ s = some l) : ∃ x y z, i.inReg 0 = .ok x ∧ i.inReg 1 = .ok y ∧
      i.outputAt 0 = .ok z ∧ s.regs x = s.regs y ∧ z.label = l := by
  unfold VPUInstruction.lookupBEQ at h
  split at h
  case h_1 x y z hx hy hz =>
    obtain ⟨hxy, hl⟩ := Option.ite_none_right_eq_some.mp h
    exact ⟨x, y, z, hx, hy, hz, hxy, Option.some.inj hl⟩
  case h_2 => cases h

theorem labelSpec_beq : LabelSpec nextPcBEQ VPUInstruction.lookupBEQ where
  same i s m h := by
    unfold nextPcBEQ
    unfold VPUInstruction.lookupBEQ at h
    cases hx : i.inReg 0 with
    | error => rfl
    | ok x =>
      cases hy : i.inReg 1 with
      | error => rfl
      | ok y =>
        by_cases hxy : s.regs x = s.regs y
        · have hxy' : (s.withLabels m).regs x = (s.withLabels m).regs y := hxy
          simp only [bind, Except.bind, if_pos hxy, if_pos hxy']
          cases hz : i.outputAt 0 with
          | error => rfl
          | ok z =>
            simp only [hx, hy, hz, if_pos hxy] at h
            exact same_labelAt (h z.label rfl)
        · have hxy' : ¬ (s.withLabels m).regs x = (s.withLabels m).regs y := hxy
          simp only [bind, Except.bind, if_neg hxy, if_neg hxy']
          exact ⟨rfl, s.same_withLabels m⟩
  target i s r hr := by
    obtain ⟨x, -, hr⟩ := bind_eq_ok.mp hr
    obtain ⟨y, -, hr⟩ := bind_eq_ok.mp hr
    by_cases hxy : s.regs x = s.regs y
    · rw [if_pos hxy] at hr
      obtain ⟨z, -, hr⟩ := bind_eq_ok.mp hr
      cases hr
      exact Processor.labelAt_target _ _
    · rw [if_neg hxy] at hr
      cases hr
      rfl
  look i s l hl := by
    obtain ⟨x, y, z, hx, hy, hz, hxy, rfl⟩ := lookupBEQ_eq_some hl
    have hstep : nextPcBEQ i s = .ok (s.labelAt z.label) := by
      simp only [nextPcBEQ, hx, hy, hz, bind, Except.bind, if_pos hxy]
    exact ⟨_, hstep.trans (congrArg Except.ok (Prod.ext (Processor.labelAt_fst _ _) rfl))⟩

theorem labelSpec_exec {op : VPUOp} {f : NextPc} (hf : exec op = some f) :
    LabelSpec f fun i s => ({ i with op := op } : VPUInstruction).lookup s := by
  cases hplain : plainExecute op with
  | some e =>
    have hlook : (fun (i : VPUInstruction) s => ({ i with op := op } : VPUInstruction).lookup s) =
        fun _ _ => none := by
      cases op <;> cases hplain <;> rfl
    rw [exec_of_plainExecute hplain] at hf
    cases hf
    rw [hlook]
    exact (controlFree_plainExecute hplain).labelFree.spec
  | none =>
    cases op <;> cases hplain <;> cases hf
    · exact labelSpec_jal
    · exact labelSpec_ret
    · exact labelSpec_beq

section Step
variable {prog : VPUProgram} {s s' u : Processor}

theorem lookup_withLabels (prog : VPUProgram) (s : Processor) (m : Labels) :
    lookup prog (s.withLabels m) = lookup prog s := rfl

/-- One step sees `labels_` through the label it looks up. -/
theorem step_same (h : s.Same s') (hl : ∀ l ∈ lookup prog s, s.target l = s'.target l) :
    SameResult (step prog s) (step prog s') := by
  have hs' := h.eq_withLabels
  rw [hs'] at hl ⊢
  have hidx : (s.withLabels s'.labels).index = s.index := rfl
  unfold lookup at hl
  cases hi : prog.instr[s.index]? with
  | none =>
    rw [step_of_none hi, step_of_none (by rw [hidx]; exact hi)]
    rfl
  | some i =>
    cases hf : exec i.op with
    | none =>
      rw [step_of_no_exec hi hf, step_of_no_exec (by rw [hidx]; exact hi) hf]
      rfl
    | some f =>
      rw [hi] at hl
      have hs := (labelSpec_exec hf).same i s s'.labels hl
      rw [step_of_exec hi hf, step_of_exec (by rw [hidx]; exact hi) hf]
      cases hr : f i s <;> cases hr' : f i (s.withLabels s'.labels) <;> rw [hr, hr'] at hs
      case error.error => exact hs
      case error.ok | ok.error => exact hs.elim
      case ok.ok r r' =>
        obtain ⟨hpc, h1, h2, h3, -⟩ := hs
        exact ⟨h1, h2, h3, hpc⟩

/-- No step changes what lookups yield. -/
theorem step_target (h : step prog s = .ok u) : u.target = s.target := by
  cases hi : prog.instr[s.index]? with
  | none => rw [step_of_none hi] at h; cases h
  | some i =>
    cases hf : exec i.op with
    | none => rw [step_of_no_exec hi hf] at h; cases h
    | some f =>
      rw [step_of_exec hi hf] at h
      cases hr : f i s with
      | error => rw [hr] at h; cases h
      | ok r =>
        rw [hr] at h
        cases h
        exact (labelSpec_exec hf).target i s r hr

theorem lookup_unspecified {i : VPUInstruction} (hf : exec i.op = none) : i.lookup s = none := by
  unfold VPUInstruction.lookup
  cases hop : i.op <;> rw [hop] at hf <;> cases hf

/-- A step that looks a label up goes where the table says. -/
theorem step_lookup {l : String} (hl : l ∈ lookup prog s) :
    ∃ u, step prog s = .ok u ∧ u.pc = s.target l := by
  unfold lookup at hl
  cases hi : prog.instr[s.index]? with
  | none => rw [hi] at hl; cases hl
  | some i =>
    rw [hi] at hl
    change l ∈ i.lookup s at hl
    cases hf : exec i.op with
    | none => rw [lookup_unspecified hf] at hl; cases hl
    | some f =>
      obtain ⟨t, ht⟩ := (labelSpec_exec hf).look i s l hl
      exact ⟨{ t with pc := s.target l }, by rw [step_of_exec hi hf, ht]; rfl, rfl⟩

end Step

/-- The runs of `prog` from `s` and `s'` agree after every number of steps. -/
def Lockstep (prog : VPUProgram) (s s' : Processor) : Prop :=
  ∀ n, SameResult (runProgram prog n s) (runProgram prog n s')

section Run
variable {prog : VPUProgram} {s s' u : Processor}

theorem iter_target {n : ℕ} (h : (machine prog).iter n s = .ok u) : u.target = s.target :=
  Lib.Machine.iter_invariant (I := fun u => u.target = s.target)
    (fun _ _ hu _ hstep => (step_target hstep).trans hu) rfl h

theorem running_same (h : s.Same s') : (machine prog).running s' = (machine prog).running s := by
  change decide (s'.pc.toNat < _) = decide (s.pc.toNat < _)
  rw [h.pc]

theorem sameResult_iff {x y : Except Fault Processor} :
    SameResult x y ↔ Lib.Machine.Alike Processor.Same x y := by
  cases x <;> cases y <;> rfl

/-- Runs agree while the labels they look up have the same index in both tables. -/
theorem iter_same (h : s.Same s') (n : ℕ)
    (hl : ∀ k u, (machine prog).iter k s = .ok u → (machine prog).running u = true →
      ∀ l ∈ lookup prog u, s.target l = s'.target l) :
    SameResult ((machine prog).iter n s) ((machine prog).iter n s') := by
  refine sameResult_iff.mpr (Lib.Machine.alike_iter (fun u u' hu => (running_same hu).symm)
    (fun k u u' hk hk' hu hr => sameResult_iff.mp (step_same hu fun l hlu => ?_)) h n)
  rw [iter_target hk, iter_target hk']
  exact hl k u hk hr l hlu

/-- The condition is exact: where the tables differ, the program counters do. -/
theorem target_eq_of_iter_same
    (hs : ∀ n, SameResult ((machine prog).iter n s) ((machine prog).iter n s')) {n : ℕ}
    (hn : (machine prog).iter n s = .ok u) (hr : (machine prog).running u = true) {l : String}
    (hl : l ∈ lookup prog u) : s.target l = s'.target l := by
  obtain ⟨u', hn', hsame, hnext⟩ := Lib.Machine.alike_step
    (fun u u' hR => (running_same hR).symm) (fun n => sameResult_iff.mp (hs n)) hn hr
  have hl' : l ∈ lookup prog u' := by
    rw [hsame.eq_withLabels, lookup_withLabels]
    exact hl
  obtain ⟨v, hv, hpc⟩ := step_lookup hl
  obtain ⟨v', hv', hpc'⟩ := step_lookup hl'
  rw [show (machine prog).step u = .ok v from hv,
    show (machine prog).step u' = .ok v' from hv'] at hnext
  rw [← iter_target hn, ← iter_target hn', ← hpc, ← hpc']
  exact hnext.pc

end Run

/-- Some instruction of the program defines the label. -/
def Defines (is : List VPUInstruction) (l : String) : Prop :=
  ∃ i ∈ is, i.label = l ∧ i.label.length > 0

theorem loadLabels_of_not_defines {is : List VPUInstruction} {l : String} (h : ¬ Defines is l)
    (j : ℕ) (m : Labels) : loadLabels is j m l = m l := by
  induction is generalizing j m with
  | nil => rfl
  | cons i is ih =>
    have htail : ¬ Defines is l := by
      rintro ⟨i', hi', hl⟩
      exact h ⟨i', List.mem_cons_of_mem _ hi', hl⟩
    rw [loadLabels, ih htail]
    by_cases hlen : i.label.length > 0
    · rw [if_pos hlen, Function.update_of_ne]
      rintro rfl
      exact h ⟨i, List.mem_cons_self, rfl, hlen⟩
    · rw [if_neg hlen]

/-- What a program defines does not depend on the table it starts from. -/
theorem loadLabels_of_defines {is : List VPUInstruction} {l : String} (h : Defines is l) (j : ℕ)
    (m m' : Labels) : loadLabels is j m l = loadLabels is j m' l := by
  induction is generalizing j m m' with
  | nil => obtain ⟨i, hi, -⟩ := h; cases hi
  | cons i is ih =>
    rw [loadLabels, loadLabels]
    by_cases hd : Defines is l
    · exact ih hd _ _ _
    · rw [loadLabels_of_not_defines hd, loadLabels_of_not_defines hd]
      obtain ⟨i', hi', rfl, hlen⟩ := h
      rcases List.mem_cons.mp hi' with rfl | hi'
      · rw [if_pos hlen, if_pos hlen, Function.update_self, Function.update_self]
      · exact absurd ⟨i', hi', rfl, hlen⟩ hd

section Isolation
variable {Q R : VPUProgram} {s₀ s : Processor}

/-- A run leaves every lookup as it found it, stale entries included. -/
theorem Returns.target (h : Returns Q s₀ s) : s.target = (start Q s₀).target := by
  obtain ⟨n, hn, -⟩ := h
  exact iter_target hn

theorem target_start_clear (s : Processor) (l : String) :
    (start R s.clearLabels).target l = (start R s).target l ↔
      Defines R.instr l ∨ s.target l = 0 := by
  change (loadLabels R.instr 0 (fun _ => none) l).getD 0 =
    (loadLabels R.instr 0 s.labels l).getD 0 ↔ _ ∨ (s.labels l).getD 0 = 0
  by_cases hd : Defines R.instr l
  · exact iff_of_true (by rw [loadLabels_of_defines hd]) (Or.inl hd)
  · rw [loadLabels_of_not_defines hd, loadLabels_of_not_defines hd, or_iff_right hd]
    exact eq_comm

/-- A run of `R` after `Q` is the run on an empty table exactly if no jump of the
latter looks up a label that `R` lacks and `Q` left with an index other than zero. -/
theorem lockstep_clearLabels_iff (h : Returns Q s₀ s) :
    Lockstep R s.clearLabels s ↔
      ∀ n u, runProgram R n s.clearLabels = .ok u → u.index < R.instrSize →
        ∀ l ∈ lookup R u, Defines R.instr l ∨
          (loadLabels Q.instr 0 s₀.labels l).getD 0 = 0 := by
  have hstart : (start R s.clearLabels).Same (start R s) := ⟨rfl, rfl, rfl, rfl⟩
  have hleft : ∀ l, s.target l = (loadLabels Q.instr 0 s₀.labels l).getD 0 :=
    fun l => congrFun h.target l
  constructor
  · intro hs n u hn hu l hl
    rw [← hleft, ← target_start_clear]
    exact target_eq_of_iter_same hs hn (machine_running.mpr hu) hl
  · intro hcond n
    refine iter_same hstart n fun k u hk hu l hl => ?_
    rw [target_start_clear, hleft]
    exact hcond k u hk (machine_running.mp hu) l hl

/-- Two instructions, the second one labelled. -/
def labelled : VPUProgram :=
  ⟨[ { op := .set, inputs := [.kValue 0], outputs := [.kReg 0] },
     { op := .set, inputs := [.kValue 0], outputs := [.kReg 0], label := "out" } ], by decide⟩

/-- A branch to a label that the program does not define. -/
def dangling : VPUProgram :=
  ⟨[ { op := .beq, inputs := [.kReg 0, .kReg 0], outputs := [.kLabel "out"] } ], by decide⟩

theorem labelled_returns (s₀ : Processor) : ∃ s, Returns labelled s₀ s ∧
    s.labels = loadLabels labelled.instr 0 s₀.labels := ⟨_, ⟨2, rfl, rfl⟩, rfl⟩

theorem lockstep_labelled_iff : ∃ s, Returns labelled (.ofCells []) s ∧
    (Lockstep dangling s.clearLabels s ↔
      ∀ n u, runProgram dangling n s.clearLabels = .ok u → u.index < dangling.instrSize →
        ∀ l ∈ lookup dangling u, Defines dangling.instr l ∨
          (loadLabels labelled.instr 0 (fun _ => none) l).getD 0 = 0) := by
  obtain ⟨s, hs, -⟩ := labelled_returns (.ofCells [])
  exact ⟨s, hs, lockstep_clearLabels_iff hs⟩

/-- The label left by the first program sends the second one off its end, where a
fresh processor loops. -/
theorem stale_label_taken : ∃ s, Returns labelled (.ofCells []) s ∧
    ¬ Lockstep dangling s.clearLabels s := by
  obtain ⟨s, hs, hl⟩ := labelled_returns (.ofCells [])
  refine ⟨s, hs, fun h => ?_⟩
  have hlook : "out" ∈ lookup dangling (start dangling s.clearLabels) := by
    change (if s.regs 0 = s.regs 0 then some "out" else none) = some "out"
    exact if_pos rfl
  have ht := target_eq_of_iter_same h (n := 0) rfl rfl hlook
  rw [target_start_clear] at ht
  rcases ht with ⟨i, hi, hlabel, -⟩ | ht
  · rw [List.mem_singleton.mp hi] at hlabel
    exact absurd hlabel (by decide)
  · rw [Processor.target, hl] at ht
    exact absurd ht (by decide)

/-- Runs in lockstep come to rest alike. -/
theorem Lockstep.returns {prog : VPUProgram} {s s' t : Processor} (h : Lockstep prog s s')
    (ht : Returns prog s t) : ∃ t', Returns prog s' t' ∧ t.Same t' :=
  Lib.Machine.alike_halts (fun _ _ hu => (running_same hu).symm)
    (fun n => sameResult_iff.mp (h n)) ht

end Isolation

end Fabric

import Fabric.Calls
import Fabric.Renaming
import Fabric.Subroutine

/-! A program appended to another one, as `generate` appends its instructions. The run
goes through the first program and on into the second, at other indices. -/
namespace Fabric
open Lib
open Lib.Machine (Alike)

/-- The second state is `d` indices further on, and so are its links. -/
structure Shifted (K : Set Loc) (D : ℕ → Set Loc) (d : ℕ) (s s' : Processor) : Prop where
  pc : s'.pc = s.pc + BitVec.ofNat 32 d
  places : ∀ l, l ∉ K → s'.get l = s.get l
  links : ∀ l ∈ D s.index, s'.get l = s.get l + BitVec.ofNat 64 d

section Step
variable {R prog : VPUProgram} {K : Set Loc} {D : ℕ → Set Loc} {d : ℕ} {i : VPUInstruction}
  {s s' t t' : Processor}

theorem Shifted.index (h : Shifted K D d s s') (hd : s.index + d < 2 ^ 32) :
    s'.index = s.index + d := by
  unfold Processor.index at hd ⊢
  rw [h.pc, BitVec.toNat_add, BitVec.toNat_ofNat]
  omega

/-- A plain instruction neither sees a link nor leaves one. -/
theorem Shifted.plain (hR : Relocatable R K D) (h : Shifted K D d s s')
    (hi : R.instr[s.index]? = some i) (hp : (plainExecute i.op).isSome = true)
    (hl : ∀ t, plainStep s i = .ok t → Leads R s.index i t.index) :
    Alike (Shifted K D d) (plainStep s i) (plainStep s' i) := by
  have hops : i.op ≠ .jal ∧ i.op ≠ .ret := by
    refine ⟨?_, ?_⟩ <;>
    · intro hop
      rw [hop] at hp
      cases hp
  have hout : ∀ l, l ∈ i.reads ∨ l ∈ i.controls ∨ i.writes = some l → l ∉ K := by
    rintro l hl hK
    obtain ⟨hr, hc, hw⟩ := hR.plain i (List.mem_of_getElem? hi) hops.1 hops.2 l hK
    rcases hl with hl | hl | hl
    · exact hr hl
    · exact hc hl
    · exact hw hl
  have hcontrols : ∀ l ∈ i.controls, s.get l = s'.get l := fun l hl =>
    (h.places l (hout l (Or.inr (Or.inl hl)))).symm
  refine (plainStep_flow hcontrols).imp_ok ?_
  intro t t' ht _ hflow
  have hlead := hl t ht
  obtain ⟨l, v, v', hw, rfl, rfl, hv⟩ := hflow
  have hlK : l ∉ K := hout l (Or.inr (Or.inr hw))
  have hvv : v = v' := hv fun m hm => (h.places m (hout m (Or.inl hm))).symm
  refine ⟨?_, fun m hm => ?_, fun m hm => ?_⟩
  · change (s'.put l v').pc + 1 = (s.put l v).pc + 1 + BitVec.ofNat 32 d
    rw [Processor.put_pc, Processor.put_pc, h.pc]
    rw [BitVec.add_assoc, BitVec.add_comm (BitVec.ofNat 32 d), BitVec.add_assoc]
  · rw [get_next, get_next, Processor.get_put, Processor.get_put, hvv, h.places m hm]
  · have hml : m ≠ l := fun hml => hlK (hml ▸ hR.sub _ m hm)
    rcases hR.flow _ i _ hi hlead m hm with hwm | hmD
    · exact absurd (Option.some.inj (hwm.symm.trans hw)) hml
    · rw [get_next_put hml, get_next_put hml]
      exact h.links m hmD

/-- A lookup in tables whose targets are `d` apart. -/
theorem shifted_labelAt {w w' : Processor} {l : String}
    (ht : w'.target l = w.target l + BitVec.ofNat 32 d) (hp : ∀ m, m ∉ K → w'.get m = w.get m)
    (hl : ∀ m ∈ D (w.target l).toNat, w'.get m = w.get m + BitVec.ofNat 64 d) :
    Shifted K D d { (w.labelAt l).2 with pc := (w.labelAt l).1 }
      { (w'.labelAt l).2 with pc := (w'.labelAt l).1 } where
  pc := by
    change (w'.labelAt l).1 = (w.labelAt l).1 + _
    rw [Processor.labelAt_fst, Processor.labelAt_fst, ht]
  places m hm := by
    change (w'.labelAt l).2.get m = (w.labelAt l).2.get m
    rw [get_labelAt, get_labelAt, hp m hm]
  links m hm := by
    change m ∈ D (w.labelAt l).1.toNat at hm
    rw [Processor.labelAt_fst] at hm
    change (w'.labelAt l).2.get m = (w.labelAt l).2.get m + _
    rw [get_labelAt, get_labelAt, hl m hm]

/-- The link of a shifted jump is the shifted link. -/
theorem Shifted.setWidth_pc (h : Shifted K D d s s') (hd : s.index + d < 2 ^ 32) :
    s'.pc.setWidth 64 = s.pc.setWidth 64 + BitVec.ofNat 64 d := by
  have hidx := h.index hd
  unfold Processor.index at hidx hd
  refine BitVec.eq_of_toNat_eq ?_
  rw [BitVec.toNat_setWidth, BitVec.toNat_add, BitVec.toNat_setWidth, BitVec.toNat_ofNat, hidx]
  omega

theorem Shifted.jal (hR : Relocatable R K D) (h : Shifted K D d s s')
    (hi : R.instr[s.index]? = some i) (hop : i.op = .jal) (hd : s.index + d < 2 ^ 32)
    (hs : ∀ l ∈ i.reference, s.target l = R.target l)
    (ht : ∀ l ∈ i.reference, s'.target l = s.target l + BitVec.ofNat 32 d) :
    Alike (Shifted K D d) ((nextPcJAL i s).map fun r => { r.2 with pc := r.1 })
      ((nextPcJAL i s').map fun r => { r.2 with pc := r.1 }) := by
  unfold nextPcJAL
  cases hr : i.outReg 0 with
  | error => rfl
  | ok r =>
    cases hx : i.inputAt 0 with
    | error => rfl
    | ok x =>
      have hw : i.writes = some (.reg r) := by rw [VPUInstruction.writes, hop, hr]; rfl
      have hrK : Loc.reg r ∈ K := hR.jal i (List.mem_of_getElem? hi) hop _ hw
      have href := reference_of_jal hop hx
      have hlead : Leads R s.index i (s.target x.label).toNat :=
        Or.inr (Or.inr ⟨_, href, by rw [hs _ href]⟩)
      have hplaces : ∀ m, m ∉ K → (s'.put (.reg r) (s'.pc.setWidth 64)).get m =
          (s.put (.reg r) (s.pc.setWidth 64)).get m := by
        intro m hm
        have hmr : m ≠ .reg r := fun hmr => hm (hmr ▸ hrK)
        rw [Processor.get_put, Processor.get_put, if_neg hmr, if_neg hmr, h.places m hm]
      have hlinks : ∀ m ∈ D (s.target x.label).toNat,
          (s'.put (.reg r) (s'.pc.setWidth 64)).get m =
            (s.put (.reg r) (s.pc.setWidth 64)).get m + BitVec.ofNat 64 d := by
        intro m hm
        rw [Processor.get_put, Processor.get_put]
        split_ifs with hmr
        · exact h.setWidth_pc hd
        · rcases hR.flow _ i _ hi hlead m hm with hwm | hmD
          · exact absurd (Option.some.inj (hwm.symm.trans hw)) hmr
          · exact h.links m hmD
      exact shifted_labelAt (ht _ href) hplaces hlinks

theorem Shifted.ret (hR : Relocatable R K D) (h : Shifted K D d s s')
    (hi : R.instr[s.index]? = some i) (hop : i.op = .ret) :
    Alike (Shifted K D d) ((nextPcRET i s).map fun r => { r.2 with pc := r.1 })
      ((nextPcRET i s').map fun r => { r.2 with pc := r.1 }) := by
  unfold nextPcRET
  cases hx : i.inReg 0 with
  | error => rfl
  | ok x =>
    have hxD : Loc.reg x ∈ D s.index := by
      refine hR.ret _ i hi hop _ ?_
      rw [VPUInstruction.controls, hop, hx]
      exact List.mem_singleton_self _
    have hlink : s'.regs x = s.regs x + BitVec.ofNat 64 d := h.links _ hxD
    refine ⟨?_, fun m hm => ?_, fun m hm => ?_⟩
    · change (s'.regs x + 1).setWidth 32 = (s.regs x + 1).setWidth 32 + BitVec.ofNat 32 d
      rw [hlink]
      refine BitVec.eq_of_toNat_eq ?_
      simp only [BitVec.toNat_setWidth, BitVec.toNat_add, BitVec.toNat_ofNat]
      omega
    · have hkeep := h.places m hm
      cases m <;> exact hkeep
    · have hmD : m ∈ D s.index := by
        rcases hR.flow _ i _ hi (Or.inr (Or.inl hop)) m hm with hw | hmD
        · rw [VPUInstruction.writes, hop] at hw
          cases hw
        · exact hmD
      have hkeep := h.links m hmD
      cases m <;> exact hkeep

theorem Shifted.beq (hR : Relocatable R K D) (h : Shifted K D d s s')
    (hi : R.instr[s.index]? = some i) (hop : i.op = .beq) (hd : s.index < 2 ^ 31)
    (hs : ∀ l ∈ i.reference, s.target l = R.target l)
    (ht : ∀ l ∈ i.reference, s'.target l = s.target l + BitVec.ofNat 32 d) :
    Alike (Shifted K D d) ((nextPcBEQ i s).map fun r => { r.2 with pc := r.1 })
      ((nextPcBEQ i s').map fun r => { r.2 with pc := r.1 }) := by
  have hkeep : ∀ j, Leads R s.index i j → ∀ m ∈ D j, s'.get m = s.get m + BitVec.ofNat 64 d := by
    intro j hj m hm
    rcases hR.flow _ i _ hi hj m hm with hw | hmD
    · rw [VPUInstruction.writes, hop] at hw
      cases hw
    · exact h.links m hmD
  unfold nextPcBEQ
  cases hx : i.inReg 0 with
  | error => rfl
  | ok x =>
    cases hy : i.inReg 1 with
    | error => rfl
    | ok y =>
      have hreg : ∀ r, Loc.reg r ∈ i.controls → s'.regs r = s.regs r := by
        intro r hr
        refine h.places (.reg r) fun hK => ?_
        exact (hR.plain i (List.mem_of_getElem? hi) (by rw [hop]; decide) (by rw [hop]; decide)
          _ hK).2.1 hr
      have hc : i.controls = [.reg x, .reg y] := by
        rw [VPUInstruction.controls, hop, hx, hy]
        rfl
      have hxs := hreg x (by rw [hc]; simp)
      have hys := hreg y (by rw [hc]; simp)
      simp only [bind, Except.bind, hxs, hys]
      split_ifs with hxy
      · cases hz : i.outputAt 0 with
        | error => rfl
        | ok z =>
          have href := reference_of_beq hop hz
          exact shifted_labelAt (ht _ href) h.places
            (hkeep _ (Or.inr (Or.inr ⟨_, href, by rw [hs _ href]⟩)))
      · refine ⟨?_, fun m hm => ?_, fun m hm => ?_⟩
        · change s'.pc + 1 = s.pc + 1 + BitVec.ofNat 32 d
          rw [h.pc, BitVec.add_assoc, BitVec.add_comm (BitVec.ofNat 32 d), BitVec.add_assoc]
        · have hkeep := h.places m hm
          cases m <;> exact hkeep
        · have hnext := hkeep (s.index + 1) (Or.inl ⟨by rw [hop]; decide, rfl⟩) m
            (by rw [← next_index hd]; exact hm)
          cases m <;> exact hnext

/-- An instruction of `R` there and `d` indices further on. -/
theorem Shifted.step (hR : Relocatable R K D) (h : Shifted K D d s s')
    (hi : R.instr[s.index]? = some i) (hi' : prog.instr[s'.index]? = some i)
    (hd : s.index + d < 2 ^ 32) (hs : ∀ l ∈ i.reference, s.target l = R.target l)
    (ht : ∀ l ∈ i.reference, s'.target l = s.target l + BitVec.ofNat 32 d) :
    Alike (Shifted K D d) (step R s) (step prog s') := by
  have hlt : s.index < 2 ^ 31 := (List.getElem?_eq_some_iff.mp hi).1.trans R.instrSize_lt
  cases hf : exec i.op with
  | none =>
    rw [step_of_no_exec hi hf, step_of_no_exec hi' hf]
    rfl
  | some f =>
    cases hplain : plainExecute i.op with
    | some e =>
      have hp : (plainExecute i.op).isSome = true := by rw [hplain]; rfl
      rw [step_eq_plainStep hi hp, step_eq_plainStep hi' hp]
      refine h.plain hR hi hp fun t ht => Or.inl ⟨fun hop => ?_, plainStep_index ht hlt⟩
      rw [hop] at hplain
      cases hplain
    | none =>
      rw [step_of_exec hi hf, step_of_exec hi' hf]
      rcases plainExecute_eq_none hplain with hop | hop | hop | hop <;> rw [hop] at hf <;> cases hf
      · exact h.jal hR hi hop hd hs ht
      · exact h.ret hR hi hop
      · exact h.beq hR hi hop hlt hs ht

end Step

/-- `prog` is `R` behind `Q`. The labels that `Q` names are not those of `R`, and `R` names
only its own. -/
structure Appends (Q R prog : VPUProgram) : Prop where
  instr : prog.instr = Q.instr ++ R.instr
  apart : ∀ i ∈ Q.instr, ∀ l ∈ i.reference, ¬ Defines R.instr l
  resolved : Resolved R

/-- The same state of a run of `Q` and of a run of `prog`. -/
structure Along (Q prog : VPUProgram) (s u u' : Processor) : Prop where
  same : u.Same u'
  target : u.target = (start Q s).target
  target' : u'.target = (start prog s).target

section Append
variable {Q R prog : VPUProgram} {K : Set Loc} {D : ℕ → Set Loc} {is : List VPUInstruction}
  {i : VPUInstruction} {l : String} {s t u u' : Processor} {tr : List ℕ}

/-- The targets of instructions that stand `d` indices further on. -/
theorem loadLabels_shift (h : Defines is l) (j d : ℕ) (m m' : Labels) :
    (loadLabels is (j + d) m l).getD 0 = (loadLabels is j m' l).getD 0 + BitVec.ofNat 32 d := by
  induction is generalizing j m m' with
  | nil => obtain ⟨i, hi, -⟩ := h; cases hi
  | cons i is ih =>
    rw [loadLabels, loadLabels]
    by_cases hd : Defines is l
    · rw [Nat.add_right_comm]
      exact ih hd (j + 1) _ _
    · rw [loadLabels_of_not_defines hd, loadLabels_of_not_defines hd]
      obtain ⟨i', hi', rfl, hlen⟩ := h
      rcases List.mem_cons.mp hi' with rfl | hi'
      · rw [if_pos hlen, if_pos hlen, Function.update_self, Function.update_self]
        exact BitVec.ofNat_add j d
      · exact absurd ⟨i', hi', rfl, hlen⟩ hd

namespace Appends

theorem loadLabels_eq (h : Appends Q R prog) (m : Labels) :
    loadLabels prog.instr 0 m = loadLabels R.instr Q.instrSize (loadLabels Q.instr 0 m) := by
  rw [h.instr, loadLabels_append, Nat.zero_add]
  rfl

theorem instrSize_eq (h : Appends Q R prog) : prog.instrSize = Q.instrSize + R.instrSize := by
  simp only [VPUProgram.instrSize, h.instr, List.length_append]

theorem target_left (h : Appends Q R prog) (hi : i ∈ Q.instr) (hl : l ∈ i.reference)
    (s : Processor) : (start prog s).target l = (start Q s).target l := by
  change (loadLabels prog.instr 0 s.labels l).getD 0 = _
  rw [h.loadLabels_eq, loadLabels_of_not_defines (h.apart i hi l hl)]
  rfl

theorem target_right (h : Appends Q R prog) (hl : Defines R.instr l) (s : Processor) :
    (start prog s).target l = R.target l + BitVec.ofNat 32 Q.instrSize := by
  change (loadLabels prog.instr 0 s.labels l).getD 0 = _
  have hshift := loadLabels_shift hl 0 Q.instrSize (loadLabels Q.instr 0 s.labels) fun _ => none
  rw [Nat.zero_add] at hshift
  rw [h.loadLabels_eq, hshift]
  rfl

/-- While `Q` runs, so does `prog`, and they do the same. -/
theorem along (h : Appends Q R prog) (hu : Along Q prog s u u')
    (hr : (machine Q).running u = true) :
    (machine prog).running u' = true ∧
      Alike (Along Q prog s) ((machine Q).step u) ((machine prog).step u') := by
  have hlt := machine_running.mp hr
  have hidx : u'.index = u.index := congrArg BitVec.toNat hu.same.pc.symm
  obtain ⟨i, hmem, hi⟩ := exists_instr hlt
  have hinstr : prog.instr[u'.pc.toNat]? = Q.instr[u'.pc.toNat]? := by
    rw [h.instr]
    refine List.getElem?_append_left ?_
    change u'.index < Q.instrSize
    omega
  have hstep : Fabric.step prog u' = Fabric.step Q u' := by rw [Fabric.step, Fabric.step, hinstr]
  refine ⟨machine_running.mpr (by rw [h.instrSize_eq]; omega), ?_⟩
  have hlookup : ∀ l ∈ lookup Q u, u.target l = u'.target l := by
    intro l hl
    rw [lookup, hi] at hl
    rw [hu.target, hu.target', h.target_left hmem (reference_of_lookup hl)]
  have hsame := step_same hu.same hlookup
  change Alike _ (Fabric.step Q u) (Fabric.step prog u')
  rw [hstep]
  exact (sameResult_iff.mp hsame).imp_ok fun v v' hv hv' hvv' =>
    ⟨hvv', (step_target hv).trans hu.target, (step_target hv').trans hu.target'⟩

/-- The run of `Q` as one of `prog`. -/
theorem run_left (h : Appends Q R prog) (hq : Executes Q s tr t) :
    ∃ t', runProgram prog tr.length s = .ok t' ∧ t.Same t' ∧
      t'.target = (start prog s).target := by
  have hstart : Along Q prog s (start Q s) (start prog s) := ⟨⟨rfl, rfl, rfl, rfl⟩, rfl, rfl⟩
  obtain ⟨t', ht', ha⟩ := hq.1.follow (N := machine prog) (fun u u' => h.along) hstart
  exact ⟨t', ht', ha.same, ha.target'⟩

/-- Behind `Q` the run is one of `R`, at shifted indices. -/
theorem run_right (h : Appends Q R prog) (hK : Relocatable R K D)
    (hu : Shifted K D Q.instrSize (start R t) u') (ht : u'.target = (start prog s).target) (n : ℕ) :
    Alike (Shifted K D Q.instrSize) (runProgram R n t) ((machine prog).iter n u') := by
  have hsize := prog.instrSize_lt
  rw [h.instrSize_eq] at hsize
  have halike := Machine.alike_iter (M := machine R) (N := machine prog)
    (R := fun v v' => Shifted K D Q.instrSize v v' ∧ v.index ≤ R.instrSize) (s := start R t)
    ?_ ?_ ⟨hu, Nat.zero_le _⟩ n
  · exact halike.imp fun v v' hv => hv.1
  · rintro v v' ⟨hv, hle⟩
    have hidx := hv.index (by omega)
    change decide (v.index < _) = decide (v'.index < _)
    exact decide_eq_decide.mpr (by rw [h.instrSize_eq]; omega)
  · rintro k v v' hk hk' ⟨hv, hle⟩ hr
    have hlt := machine_running.mp hr
    obtain ⟨i, hmem, hi⟩ := exists_instr hlt
    have hi' : prog.instr[v'.index]? = some i := by
      have hidx : v'.index = Q.instr.length + v.index :=
        (hv.index (by omega)).trans (Nat.add_comm _ _)
      rw [hidx, h.instr, List.getElem?_append_right (Nat.le_add_right _ _),
        Nat.add_sub_cancel_left]
      exact hi
    have hstep := hv.step hK hi hi' (by omega)
      (h.resolved.target_eq hmem (iter_target hk))
      fun l hl => by
        have hd := h.resolved i hmem l hl
        rw [iter_target hk, iter_target hk', ht, h.target_right hd, target_start_of_defines hd]
    refine hstep.imp_ok fun w w' hw _ hww' => ⟨hww', ?_⟩
    have hnext : runProgram R (k + 1) t = .ok w := (Machine.iter_succ_of_iter hk hr).trans hw
    exact hK.index_le h.resolved hnext

/-- The combined program fails where `Q` fails. -/
theorem run_error (h : Appends Q R prog) {n : ℕ} {e : Fault} (he : runProgram Q n s = .error e) :
    runProgram prog n s = .error e := by
  have hstart : Along Q prog s (start Q s) (start prog s) := ⟨⟨rfl, rfl, rfl, rfl⟩, rfl, rfl⟩
  exact Machine.iter_error_follow (N := machine prog) (fun u u' => h.along) he hstart

/-- If `Q` returns at its end, the run goes on as that of `R` from there. -/
theorem run_on (h : Appends Q R prog) (hK : Relocatable R K D) (hq : Executes Q s tr t)
    (ht : t.index = Q.instrSize) (n : ℕ) :
    Alike (Shifted K D Q.instrSize) (runProgram R n t) (runProgram prog (tr.length + n) s) := by
  obtain ⟨t', ht', hsame, htarget⟩ := h.run_left hq
  rw [runProgram] at ht'
  rw [runProgram, runProgram, Machine.iter_add, ht']
  refine h.run_right hK ⟨?_, fun l _ => ?_, fun l hl => absurd hl (hK.entry l)⟩ htarget n
  · rw [← hsame.pc, ← pc_of_index_eq ht]
    exact (BitVec.zero_add _).symm
  · cases l
    · exact (congrFun hsame.regs _).symm
    · exact (congrFun hsame.sram _).symm
    · exact hsame.p.symm

end Appends

/-- The combined program fails where `Q` fails. If `Q` returns at its end, the run goes on as
that of `R` from there, with the links shifted: both come to rest, fail and go on for ever
alike. -/
theorem append_run (h : Appends Q R prog) (hK : Relocatable R K D) :
    (∀ n e, runProgram Q n s = .error e → runProgram prog n s = .error e) ∧
      ∀ tr t, Executes Q s tr t → t.index = Q.instrSize →
        ∀ n, Alike (Shifted K D Q.instrSize) (runProgram R n t)
          (runProgram prog (tr.length + n) s) :=
  ⟨fun _ _ => h.run_error, fun _ _ => h.run_on hK⟩

end Append

section Call

def loadOne : VPUProgram :=
  ⟨[ { op := .set, inputs := [.kValue 1], outputs := [.kReg 0] } ], by decide⟩

/-- A call, a jump over the subroutine, which does nothing, and a store. -/
def callThenStore : VPUProgram :=
  ⟨[ { op := .jal, inputs := [.kLabel "sub"], outputs := [.kReg 1] },
     { op := .beq, inputs := [.kReg 0, .kReg 0], outputs := [.kLabel "end"] },
     { op := .ret, inputs := [.kReg 1], label := "sub" },
     { op := .st, inputs := [.kReg 0], outputs := [.kAddr 0], label := "end" } ], by decide⟩

def callLinks : PlaceTable := ⟨[[], [.reg 1], [.reg 1]], []⟩

def loadCallStore : VPUProgram := ⟨loadOne.instr ++ callThenStore.instr, by decide⟩

theorem loadCallStore_appends : Appends loadOne callThenStore loadCallStore where
  instr := rfl
  apart := by
    unfold Defines
    decide
  resolved := by
    have h : ∀ i ∈ callThenStore.instr, ∀ l ∈ i.reference, Defines callThenStore.instr l := by
      unfold Defines
      decide
    exact h

/-- A call that is one instruction further on. -/
theorem append_run_call :
    (∀ n e, runProgram loadOne n (.ofCells []) = .error e →
        runProgram loadCallStore n (.ofCells []) = .error e) ∧
      ∀ tr t, Executes loadOne (.ofCells []) tr t → t.index = loadOne.instrSize →
        ∀ n, Alike (Shifted {l | l ∈ [Loc.reg 1]} (fun k => {l | l ∈ callLinks.row k}) 1)
          (runProgram callThenStore n t) (runProgram loadCallStore (tr.length + n) (.ofCells [])) :=
  append_run loadCallStore_appends
    (PlaceTable.Relocates.relocatable (T := callLinks) (by decide +kernel))

end Call

section Rename
variable {prog : VPUProgram} {f : Renaming} {K : Set Loc} {D : ℕ → Set Loc}

theorem defines_rename {is : List VPUInstruction} {l : String} (h : Defines is l) :
    Defines (is.map (VPUInstruction.rename f)) (f.name l) := by
  obtain ⟨i, hi, rfl, hlen⟩ := h
  exact ⟨i.rename f, List.mem_map_of_mem hi, rfl, (f.length_pos _).mpr hlen⟩

theorem Resolved.rename (h : Resolved prog) : Resolved (prog.rename f) := by
  intro i hi l hl
  obtain ⟨j, hj, rfl⟩ := List.mem_map.mp hi
  rw [VPUInstruction.reference_rename] at hl
  obtain ⟨l', hl', rfl⟩ := Option.map_eq_some_iff.mp hl
  exact defines_rename (h j hj l' hl')

theorem leads_rename {k j : ℕ} {i : VPUInstruction} (h : Leads (prog.rename f) k (i.rename f) j) :
    Leads prog k i j := by
  rcases h with h | h | ⟨l, hl, hj⟩
  · exact Or.inl h
  · exact Or.inr (Or.inl h)
  · rw [VPUInstruction.reference_rename] at hl
    obtain ⟨l', hl', rfl⟩ := Option.map_eq_some_iff.mp hl
    rw [target_rename] at hj
    exact Or.inr (Or.inr ⟨l', hl', hj⟩)

/-- Links do not depend on the names of labels. -/
theorem Relocatable.rename (h : Relocatable prog K D) : Relocatable (prog.rename f) K D := by
  have hmem : ∀ i ∈ (prog.rename f).instr, ∃ j ∈ prog.instr, VPUInstruction.rename f j = i :=
    fun i hi => List.mem_map.mp hi
  have hget : ∀ (k : ℕ) i, (prog.rename f).instr[k]? = some i →
      ∃ j, prog.instr[k]? = some j ∧ VPUInstruction.rename f j = i := by
    intro k i hi
    exact Option.map_eq_some_iff.mp (List.getElem?_map.symm.trans hi)
  refine ⟨h.entry, h.sub, ?_, ?_, ?_, ?_⟩
  · intro i hi
    obtain ⟨j, hj, rfl⟩ := hmem i hi
    rw [j.reads_rename, j.controls_rename, j.writes_rename]
    exact h.plain j hj
  · intro i hi
    obtain ⟨j, hj, rfl⟩ := hmem i hi
    rw [j.writes_rename]
    exact h.jal j hj
  · intro k i hi
    obtain ⟨j, hj, rfl⟩ := hget k i hi
    rw [j.controls_rename]
    exact h.ret k j hj
  · intro k i m hi hl
    obtain ⟨j, hj, rfl⟩ := hget k i hi
    rw [j.writes_rename]
    exact h.flow k j m hj (leads_rename hl)

end Rename
end Fabric

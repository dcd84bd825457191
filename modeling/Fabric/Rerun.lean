import Fabric.Calls

/-! Programs that look at a word only if they have formed it themselves or never change
it. Run again on the processor that they leave, they leave it as it is. -/
namespace Fabric
open Lib
open Lib.Machine (Alike)

/-- No instruction of the program writes the place. -/
def Untouched (prog : VPUProgram) (l : Loc) : Prop := ∀ i ∈ prog.instr, i.writes ≠ some l

instance (prog : VPUProgram) (l : Loc) : Decidable (Untouched prog l) :=
  inferInstanceAs (Decidable (∀ _ ∈ _, _))

/-- The instructions `tr` have written the place, or none of the program does. -/
def Settled (prog : VPUProgram) (tr : List ℕ) (l : Loc) : Prop :=
  (∃ k ∈ tr, ∃ i, prog.instr[k]? = some i ∧ i.writes = some l) ∨ Untouched prog l

/-- The places of `B k` are settled on every way to index `k`, and instructions look at no
others. What is settled before a call still is behind the return from it. -/
structure SelfContained (prog : VPUProgram) (B : ℕ → Set Loc) : Prop where
  entry : ∀ l ∈ B 0, Untouched prog l
  reads : ∀ k i, prog.instr[k]? = some i → ∀ l ∈ i.reads, l ∈ B k
  controls : ∀ k i, prog.instr[k]? = some i → ∀ l ∈ i.controls, l ∈ B k
  flow : ∀ k i j, prog.instr[k]? = some i → i.op ≠ .ret → Leads prog k i j →
    ∀ l ∈ B j, i.writes = some l ∨ l ∈ B k
  ret : ∀ k i c j, prog.instr[k]? = some i → i.op = .ret → prog.instr[c]? = some j →
    j.op = .jal → ∀ l ∈ B (c + 1), j.writes = some l ∨ l ∈ B c ∨ l ∈ B k

/-- The places of the table are settled where the run is, and were where it has been. -/
structure KeepsTo (prog : VPUProgram) (B : ℕ → Set Loc) (tr : List ℕ) (u : Processor) : Prop where
  now : ∀ l ∈ B u.index, Settled prog tr l
  past : ∀ pre k post, tr = pre ++ k :: post → ∀ l ∈ B k, Settled prog pre l

section Settle
variable {prog : VPUProgram} {K : Set Loc} {B D : ℕ → Set Loc} {tr : List ℕ} {k : ℕ}
  {i : VPUInstruction} {l : Loc} {s u v : Processor}

theorem Settled.append (h : Settled prog tr l) (post : List ℕ) : Settled prog (tr ++ post) l := by
  rcases h with ⟨k, hk, hi⟩ | h
  · exact Or.inl ⟨k, List.mem_append_left post hk, hi⟩
  · exact Or.inr h

theorem settled_of_writes (hi : prog.instr[k]? = some i) (hw : i.writes = some l) (hk : k ∈ tr) :
    Settled prog tr l := Or.inl ⟨k, hk, i, hi, hw⟩

/-- One more instruction settles the place that it writes, and no other. -/
theorem Settled.of_append_singleton (h : Settled prog (tr ++ [k]) l)
    (hi : prog.instr[k]? = some i) (hw : i.writes ≠ some l) : Settled prog tr l := by
  rcases h with ⟨k', hk', i', hi', hw'⟩ | h
  · rcases List.mem_append.mp hk' with hk' | hk'
    · exact Or.inl ⟨k', hk', i', hi', hw'⟩
    · rw [List.mem_singleton.mp hk', hi] at hi'
      cases hi'
      exact absurd hw' hw
  · exact Or.inr h

theorem KeepsTo.start (h : SelfContained prog B) (s : Processor) :
    KeepsTo prog B [] (start prog s) where
  now l hl := Or.inr (h.entry l hl)
  past pre k post heq := by simp at heq

/-- The places settled behind a step. -/
theorem KeepsTo.settled_step (h : SelfContained prog B) (hK : Relocatable prog K D)
    (hr : Resolved prog) (hrun : u.index < prog.instrSize) (hu : KeepsTo prog B tr u)
    (hl : LinksHold prog D s tr u) (hv : step prog u = .ok v) :
    ∀ l ∈ B v.index, Settled prog (tr ++ [u.index]) l := by
  obtain ⟨i, -, hi⟩ := exists_instr hrun
  intro l hlB
  by_cases hop : i.op = .ret
  · obtain ⟨x, hx, -⟩ := step_ret hi hop hv
    obtain ⟨c, hc, v', hv', hidx⟩ := hK.ret_step hi hop hx hl
    cases hv'.symm.trans hv
    obtain ⟨j, hj, hjop, -⟩ := hc.call
    obtain ⟨pre, mid, rfl, -⟩ := hc.last
    rw [hidx] at hlB
    -- either the call itself has written the place, or it was settled before, or here
    rcases h.ret _ i c j hi hop hj hjop l hlB with hw | hB | hB
    · exact settled_of_writes hj hw (by simp)
    · have hpast := hu.past pre c mid rfl l hB
      rw [List.append_assoc]
      exact hpast.append _
    · exact (hu.now l hB).append _
  · rcases h.flow _ i _ hi hop (step_leads hr hl.target hrun hi hv) l hlB with hw | hB
    · exact settled_of_writes hi hw (by simp)
    · exact (hu.now l hB).append _

theorem KeepsTo.step (h : SelfContained prog B) (hK : Relocatable prog K D) (hr : Resolved prog)
    (hrun : u.index < prog.instrSize) (hu : KeepsTo prog B tr u) (hl : LinksHold prog D s tr u)
    (hv : step prog u = .ok v) : KeepsTo prog B (tr ++ [u.index]) v := by
  refine ⟨hu.settled_step h hK hr hrun hl hv, fun pre k post heq => ?_⟩
  rcases List.eq_nil_or_concat post with rfl | ⟨post, k', rfl⟩
  · obtain ⟨rfl, hk⟩ := List.append_inj' heq rfl
    cases hk
    exact hu.now
  · rw [List.concat_eq_append, ← List.cons_append, ← List.append_assoc] at heq
    exact hu.past pre k post (List.append_inj' heq rfl).1

theorem SelfContained.keepsTo (h : SelfContained prog B) (hK : Relocatable prog K D)
    (hr : Resolved prog)
    (hseg : (machine prog).Seg Processor.index (fun _ => True) (start prog s) tr u) :
    KeepsTo prog B tr u := by
  have hboth : LinksHold prog D s tr u ∧ KeepsTo prog B tr u := by
    refine hseg.invariant (I := fun tr u => LinksHold prog D s tr u ∧ KeepsTo prog B tr u)
      ⟨hK.linksHold_start s, .start h s⟩ ?_
    rintro tr u v ⟨hl, hu⟩ hrun hv
    have hlt := machine_running.mp hrun
    exact ⟨hK.linksHold_step hr hlt hl hv, hu.step h hK hr hlt hl hv⟩
  exact hboth.2

end Settle

/-- Runs from `s` and `s'` that have executed the same instructions agree on what these
have settled, and on every other place are where they started. -/
structure Retraces (prog : VPUProgram) (s s' : Processor) (tr : List ℕ) (u u' : Processor) :
    Prop where
  seg : (machine prog).Seg Processor.index (fun _ => True) (start prog s) tr u
  pc : u.pc = u'.pc
  settled : ∀ l, Settled prog tr l → u.get l = u'.get l
  others : ∀ l, u.get l = u'.get l ∨ u.get l = s.get l ∧ u'.get l = s'.get l

section Retrace
variable {prog : VPUProgram} {K : Set Loc} {B D : ℕ → Set Loc} {tr : List ℕ}
  {s s' t u u' : Processor}

theorem Retraces.start (hs : ∀ l, Untouched prog l → s.get l = s'.get l) :
    Retraces prog s s' [] (start prog s) (start prog s') where
  seg := .nil _
  pc := rfl
  settled l hl := by
    rcases hl with ⟨k, hk, -⟩ | hl
    · cases hk
    · rw [get_start, get_start]
      exact hs l hl
  others l := Or.inr ⟨get_start prog s l, get_start prog s' l⟩

/-- A step of both runs through one instruction. -/
theorem Retraces.step (h : SelfContained prog B) (hK : Relocatable prog K D) (hr : Resolved prog)
    (hu : Retraces prog s s' tr u u') (hrun : u.index < prog.instrSize)
    (ht : u.target = (Fabric.start prog s).target)
    (ht' : u'.target = (Fabric.start prog s').target) :
    Alike (fun v v' => ∃ tr, Retraces prog s s' tr v v') (Fabric.step prog u)
      (Fabric.step prog u') := by
  obtain ⟨i, hmem, hi⟩ := exists_instr hrun
  have hB := (h.keepsTo hK hr hu.seg).now
  have htarget : ∀ l ∈ i.reference, u.target l = u'.target l := fun l hl =>
    (hr.target_eq hmem ht l hl).trans (hr.target_eq hmem ht' l hl).symm
  have hcontrols : ∀ l ∈ i.controls, u.get l = u'.get l := fun l hl =>
    hu.settled l (hB l (h.controls _ i hi l hl))
  have hreads : ∀ l ∈ i.reads, u.get l = u'.get l := fun l hl =>
    hu.settled l (hB l (h.reads _ i hi l hl))
  refine (step_flow hi hu.pc htarget hcontrols).imp_ok fun v v' hv _ hflow => ?_
  refine ⟨tr ++ [u.index], hu.seg.append (.single (machine_running.mpr hrun) trivial hv),
    hflow.pc, fun l hl => ?_, fun l => ?_⟩
  · by_cases hw : i.writes = some l
    · exact hflow.writes l hw hreads
    · obtain ⟨hkeep, hkeep'⟩ := hflow.keeps l hw
      rw [hkeep, hkeep']
      exact hu.settled l (hl.of_append_singleton hi hw)
  · by_cases hw : i.writes = some l
    · exact Or.inl (hflow.writes l hw hreads)
    · obtain ⟨hkeep, hkeep'⟩ := hflow.keeps l hw
      rw [hkeep, hkeep']
      exact hu.others l

/-- Runs from states that agree on what the program never writes. -/
theorem SelfContained.retraces (h : SelfContained prog B) (hK : Relocatable prog K D)
    (hr : Resolved prog) (hs : ∀ l, Untouched prog l → s.get l = s'.get l) (n : ℕ) :
    Alike (fun u u' => ∃ tr, Retraces prog s s' tr u u') (runProgram prog n s)
      (runProgram prog n s') := by
  refine Machine.alike_iter ?_ ?_ ⟨[], .start hs⟩ n
  · rintro u u' ⟨tr, hu⟩
    exact running_of_pc hu.pc
  · rintro k u u' hk hk' ⟨tr, hu⟩ hrun
    exact hu.step h hK hr (machine_running.mp hrun) (iter_target hk) (iter_target hk')

/-- The targets that a program enters are there already after a run of it. -/
theorem target_start_of_returns (ht : Returns prog s t) : (start prog t).target = t.target := by
  funext l
  by_cases hd : Defines prog.instr l
  · rw [ht.target, target_start_of_defines hd, target_start_of_defines hd]
  · exact congrArg (·.getD 0) (loadLabels_of_not_defines hd 0 t.labels)

/-- A self-contained program that is run again returns again, in the state that it started
from: every word, the index and all that lookups yield. -/
theorem rerun_returns (h : SelfContained prog B) (hK : Relocatable prog K D) (hr : Resolved prog)
    (ht : Returns prog s t) : ∃ t', Returns prog t t' ∧ t.Same t' ∧ t'.target = t.target := by
  have huntouched : ∀ l, Untouched prog l → s.get l = t.get l := by
    intro l hl
    obtain ⟨n, hn, -⟩ := ht
    exact (run_frame hl hn).symm
  obtain ⟨t', ht', tr, hu⟩ := Machine.alike_halts (fun u u' ⟨tr, hu⟩ => running_of_pc hu.pc)
    (h.retraces hK hr huntouched) ht
  have hget : ∀ l, t.get l = t'.get l := by
    intro l
    rcases hu.others l with heq | ⟨-, heq⟩
    · exact heq
    · exact heq.symm
  refine ⟨t', ht', ⟨?_, ?_, hget .p, hu.pc⟩, ?_⟩
  · exact funext fun a => hget (.cell a)
  · exact funext fun r => hget (.reg r)
  · exact (Returns.target ht').trans (target_start_of_returns ht)

end Retrace

namespace PlaceTable
variable (T : PlaceTable)

/-- The instruction `i` at index `k` looks at places of its row only, and those of the rows
behind it are there already. -/
def Contains (prog : VPUProgram) (i : VPUInstruction) (k : ℕ) : Prop :=
  (∀ l ∈ i.reads ++ i.controls, l ∈ T.row k) ∧
    (i.op ≠ .ret → ∀ j ∈ T.successors prog k i, ∀ l ∈ T.row j, i.writes = some l ∨ l ∈ T.row k) ∧
    (i.op = .ret → ∀ x ∈ prog.instr.zipIdx, x.1.op = .jal →
      ∀ l ∈ T.row (x.2 + 1), x.1.writes = some l ∨ l ∈ T.row x.2 ∨ l ∈ T.row k)

instance (prog : VPUProgram) (i : VPUInstruction) (k : ℕ) : Decidable (T.Contains prog i k) :=
  inferInstanceAs (Decidable (_ ∧ _ ∧ _))

def SelfContains (prog : VPUProgram) : Prop :=
  (∀ l ∈ T.row 0, Untouched prog l) ∧ ∀ x ∈ prog.instr.zipIdx, T.Contains prog x.1 x.2

instance (prog : VPUProgram) : Decidable (T.SelfContains prog) :=
  inferInstanceAs (Decidable (_ ∧ _))

variable {T}

theorem SelfContains.selfContained {prog : VPUProgram} (h : T.SelfContains prog) :
    SelfContained prog fun k => {l | l ∈ T.row k} := by
  obtain ⟨hentry, hinstr⟩ := h
  have hindex : ∀ {k : ℕ} {i}, prog.instr[k]? = some i → (i, k) ∈ prog.instr.zipIdx := fun hi =>
    List.mk_mem_zipIdx_iff_getElem?.mpr hi
  have hcontains : ∀ k i, prog.instr[k]? = some i → T.Contains prog i k := fun k i hi =>
    hinstr (i, k) (hindex hi)
  refine ⟨hentry, fun k i hi l hl => ?_, fun k i hi l hl => ?_, ?_, ?_⟩
  · exact (hcontains k i hi).1 l (List.mem_append_left _ hl)
  · exact (hcontains k i hi).1 l (List.mem_append_right _ hl)
  · intro k i j hi hop hl l hlj
    obtain ⟨j', hj', hrow⟩ := exists_successor (T := T) hl
    exact (hcontains k i hi).2.1 hop j' hj' l (by rw [hrow]; exact hlj)
  · intro k i c j hi hop hc hjop l hl
    exact (hcontains k i hi).2.2 hop (j, c) (hindex hc) hjop l hl

end PlaceTable

theorem MultInverse.selfContains : live.SelfContains program := by decide +kernel

namespace PAdd

/-- The registers that are loaded at the start, and the modulus. -/
def loaded : List Loc := .p :: [6, 5, 12, 0, 1, 2, 3, 4].map .reg

/-- What is settled at each index: behind the loads, only registers that the kernel still
looks at. The link and the argument of the inverse stay settled behind its return. -/
def working : PlaceTable where
  rows :=
    (List.range 9).map (fun k => [0, 1, 3, 4, 5, 6, 7].map Loc.cell ++ loaded.take k) ++
      ([ [], [13], [13, 8], [13, 8, 9],
          [8, 9], [8, 9, 13], [8, 9, 13], [8, 9, 13],
          [],
          -- chord
          [], [13], [14], [14, 15], [14, 20], [10, 20, 14, 8], [10, 20, 7],
          -- call_multinv
          [10, 20], [10, 20, 8], [10, 20, 8, 22], [10, 20, 8, 22], [10, 20, 8, 22, 23],
          [10, 20, 8, 22, 23, 21], [10, 20, 8, 22, 23, 21], [10, 20, 8, 22, 23, 21, 13],
          [10, 20, 8, 22, 23, 21], [10, 20, 8, 22, 23, 21], [10, 20, 8, 22, 23, 21],
          [10, 20, 8, 22, 23, 21], [10, 20, 8, 22, 23, 21], [10, 8],
          -- xsame
          [], [], [8], [8, 9],
          -- ysame
          [], [13], [13, 14], [15], [16], [16, 14], [16, 20], [16, 8],
          -- intersect
          [7], [7, 13], [7, 13, 17], [7, 14], [7, 14, 15], [7, 14, 15, 16], [7, 14, 15, 16, 17],
          [7, 14, 15, 18], [7, 14, 8], [14, 8, 13], [14, 8, 15], [8, 15, 16],
          -- done
          [8, 9], [9] ] : List (List Reg)).map fun rs => loaded ++ rs.map .reg
  out := []

theorem selfContains : working.SelfContains program := by decide +kernel

end PAdd

/-- The kernels look at nothing that an earlier run of them has left, here of an inverse
modulo 37 and of a chord modulo five. -/
theorem rerun_kernels :
    (∃ t t', Returns MultInverse.program (.ofCells [37, 5]) t ∧
        Returns MultInverse.program t t' ∧ t.Same t' ∧ t'.target = t.target) ∧
      ∃ t t', Returns PAdd.program (.ofCells [5, 1, 0, -1, 0, 1, 2, 1]) t ∧
        Returns PAdd.program t t' ∧ t.Same t' ∧ t'.target = t.target := by
  constructor
  · obtain ⟨t, ht, -⟩ := MultInverse.executes (.ofCells [37, 5]) (by decide)
    obtain ⟨t', ht', hsame⟩ := rerun_returns MultInverse.selfContains.selfContained
      MultInverse.links_relocates.relocatable MultInverse.resolved ht.returns
    exact ⟨t, t', ht.returns, ht', hsame⟩
  · obtain ⟨t, ht, -⟩ := PAdd.executes (.ofCells [5, 1, 0, -1, 0, 1, 2, 1]) (by decide)
    obtain ⟨t', ht', hsame⟩ := rerun_returns PAdd.selfContains.selfContained
      PAdd.links_relocates.relocatable PAdd.resolved ht.returns
    exact ⟨t, t', ht.returns, ht', hsame⟩

end Fabric

import Fabric.Footprint
import Fabric.Lib.Reorder

/-! Instructions that do not touch each other's places, and programs in which they
stand in another order. -/
namespace Fabric
open Lib
open Lib.Machine (Alike SameOutcome)

/-- Neither instruction writes a place that the other one looks at or writes. -/
structure Independent (i j : VPUInstruction) : Prop where
  left : ∀ l ∈ i.writes, l ∉ j.reads ∧ l ∉ j.controls
  right : ∀ l ∈ j.writes, l ∉ i.reads ∧ l ∉ i.controls
  writes : ∀ l ∈ i.writes, l ∉ j.writes

section Commute
variable {i j : VPUInstruction} {s s' t : Processor} {l m : Loc} {v v' : Word}

theorem put_next_inj (h : (s.put l v).next = (s.put l v').next) : v = v' := by
  have hget := congrArg (Processor.get · l) h
  simpa [Processor.get_put] using hget

theorem put_put_comm (h : l ≠ m) :
    ((s.put l v).next.put m v').next = ((s.put m v').next.put l v).next := by
  cases l <;> cases m
  case reg.reg r r' =>
    have hne : r ≠ r' := fun hr => h (congrArg Loc.reg hr)
    simp only [Processor.put, Processor.next, Processor.setReg, Processor.mk.injEq]
    exact ⟨trivial, Function.update_comm hne v v' s.regs, trivial, trivial, trivial⟩
  case cell.cell a a' =>
    have hne : a ≠ a' := fun ha => h (congrArg Loc.cell ha)
    simp only [Processor.put, Processor.next, Processor.setSram, Processor.mk.injEq]
    exact ⟨Function.update_comm hne v v' s.sram, trivial, trivial, trivial, trivial⟩
  case p.p => exact absurd rfl h
  all_goals rfl

/-- What one instruction writes does not show in an instruction that looks elsewhere. -/
theorem plainStep_unseen (h : ∀ m ∈ i.writes, m ∉ j.reads ∧ m ∉ j.controls)
    (hl : i.writes = some l) :
    Alike (fun t t' => ∃ m w, j.writes = some m ∧ t = (s.put m w).next ∧
        t' = ((s.put l v).next.put m w).next)
      (plainStep s j) (plainStep (s.put l v).next j) := by
  obtain ⟨hr, hc⟩ := h l hl
  refine (plainStep_flow fun m hm => ?_).imp ?_
  · exact (get_next_put fun hml => hc (by rw [← hml]; exact hm)).symm
  · rintro t t' ⟨m, w, w', hm, rfl, rfl, hw⟩
    have hwords : w = w' := hw fun x hx =>
      (get_next_put fun hxl => hr (by rw [← hxl]; exact hx)).symm
    exact ⟨m, w, hm, rfl, by rw [hwords]⟩

/-- Where an instruction fails, a failure stays one behind an independent instruction. -/
theorem bind_plainStep_error {e : Fault} (h : Independent i j) (hi : plainStep s i = .error e) :
    ∃ e', (plainStep s j >>= (plainStep · i)) = .error e' := by
  cases hj : plainStep s j with
  | error e' => exact ⟨e', rfl⟩
  | ok t =>
    obtain ⟨m, w, hm, rfl⟩ := plainStep_writes hj
    have halike := plainStep_unseen (s := s) (v := w) h.right hm
    rw [hi] at halike
    change ∃ e', plainStep (s.put m w).next i = .error e'
    cases ht : plainStep (s.put m w).next i with
    | error e' => exact ⟨e', rfl⟩
    | ok _ => rw [ht] at halike; exact halike.elim

theorem Independent.symm (h : Independent i j) : Independent j i where
  left := h.right
  right := h.left
  writes l hl hl' := h.writes l hl' hl

/-- Independent instructions leave the same state in either order, or fail in both. -/
theorem plainStep_comm (h : Independent i j) (s : Processor) :
    SameOutcome (plainStep s i >>= (plainStep · j)) (plainStep s j >>= (plainStep · i)) := by
  cases hi : plainStep s i with
  | error e =>
    obtain ⟨e', he⟩ := bind_plainStep_error h hi
    rw [he]
    exact .error e e'
  | ok t =>
    rw [← hi]
    cases hj : plainStep s j with
    | error e =>
      obtain ⟨e', he⟩ := bind_plainStep_error h.symm hj
      rw [he]
      exact .error e' e
    | ok t' =>
      rw [hi]
      obtain ⟨l, v, hl, rfl⟩ := plainStep_writes hi
      obtain ⟨m, w, hm, rfl⟩ := plainStep_writes hj
      have hne : l ≠ m := fun hlm => h.writes l hl (by rw [hm, hlm]; rfl)
      obtain ⟨u, hu, m', w', hm', hput, rfl⟩ := (plainStep_unseen (v := v) h.left hl).ok hj
      obtain ⟨u', hu', l', v', hl', hput', rfl⟩ := (plainStep_unseen (v := w) h.right hm).ok hi
      change SameOutcome (plainStep (s.put l v).next j) (plainStep (s.put m w).next i)
      rw [hu, hu']
      cases hm.symm.trans hm'
      cases hl.symm.trans hl'
      rw [← put_next_inj hput, ← put_next_inj hput', put_put_comm hne]
      exact .refl _

end Commute

/-- A plain instruction that no label leads to. -/
def VPUInstruction.Movable (i : VPUInstruction) : Prop :=
  (plainExecute i.op).isSome = true ∧ i.label.length = 0

instance (i : VPUInstruction) : Decidable i.Movable := inferInstanceAs (Decidable (_ ∧ _))

section Block
variable {pre blk blk' post : List VPUInstruction} {prog prog' : VPUProgram}
  {i : VPUInstruction} {s u v t : Processor} {l : String}

/-- A block of plain instructions executes one after the other. -/
theorem iter_block (hp : prog.instr = pre ++ blk ++ post)
    (hb : ∀ i ∈ blk, (plainExecute i.op).isSome = true) (hs : s.index = pre.length) :
    (machine prog).iter blk.length s = blk.foldlM plainStep s ∧
      ∀ t, blk.foldlM plainStep s = .ok t → t.index = pre.length + blk.length := by
  induction blk generalizing pre s with
  | nil =>
    refine ⟨rfl, fun t ht => ?_⟩
    cases ht
    exact hs
  | cons i blk ih =>
    have hi : prog.instr[s.index]? = some i := by
      rw [hp, hs, List.append_assoc, List.getElem?_append_right le_rfl, Nat.sub_self]
      rfl
    have hr : s.index < prog.instrSize := (List.getElem?_eq_some_iff.mp hi).1
    have hstep := step_eq_plainStep hi (hb i List.mem_cons_self)
    rw [List.foldlM_cons, List.length_cons, Machine.iter, if_pos (machine_running.mpr hr)]
    change (step prog s >>= _) = _ ∧ _
    rw [hstep]
    cases ht : plainStep s i with
    | error e =>
      refine ⟨rfl, fun t ht => ?_⟩
      cases ht
    | ok u =>
      have hu := plainStep_index ht (hr.trans prog.instrSize_lt)
      have hp' : prog.instr = (pre ++ [i]) ++ blk ++ post := by rw [hp]; simp
      have hs' : u.index = (pre ++ [i]).length := by rw [hu, hs]; simp
      have hnext := ih hp' (fun j hj => hb j (List.mem_cons_of_mem _ hj)) hs'
      refine ⟨hnext.1, fun t htt => ?_⟩
      rw [hnext.2 t htt, List.length_append]
      simp only [List.length_cons, List.length_nil]
      omega

theorem loadLabels_of_unlabelled (h : ∀ i ∈ blk, i.label.length = 0) (j : ℕ) (m : Labels) :
    loadLabels blk j m = m := by
  induction blk generalizing j m with
  | nil => rfl
  | cons i blk ih =>
    rw [loadLabels, if_neg (by rw [h i List.mem_cons_self]; decide)]
    exact ih (fun i' hi' => h i' (List.mem_cons_of_mem _ hi')) (j + 1) m

/-- The programs differ in the order of independent instructions of one block. -/
structure Reschedules (pre blk blk' post : List VPUInstruction) (prog prog' : VPUProgram) :
    Prop where
  instr : prog.instr = pre ++ blk ++ post
  instr' : prog'.instr = pre ++ blk' ++ post
  reordered : Reordered Independent blk blk'
  movable : ∀ i ∈ blk, i.Movable

/-- The index is in the block and not the one it starts at. -/
def Inside (pre blk : List VPUInstruction) (k : ℕ) : Prop :=
  pre.length < k ∧ k < pre.length + blk.length

namespace Reschedules

theorem length_eq (h : Reschedules pre blk blk' post prog prog') : blk'.length = blk.length :=
  h.reordered.perm.length_eq.symm

theorem movable' (h : Reschedules pre blk blk' post prog prog') : ∀ i ∈ blk', i.Movable :=
  fun i hi => h.movable i (h.reordered.perm.mem_iff.mpr hi)

theorem instrSize_eq (h : Reschedules pre blk blk' post prog prog') :
    prog'.instrSize = prog.instrSize := by
  simp only [VPUProgram.instrSize, h.instr, h.instr', List.length_append, h.length_eq]

theorem start_eq (h : Reschedules pre blk blk' post prog prog') (s : Processor) :
    start prog' s = start prog s := by
  have hload : ∀ b : List VPUInstruction, b.length = blk.length → (∀ i ∈ b, i.Movable) →
      ∀ m, loadLabels (pre ++ b ++ post) 0 m =
        loadLabels post (pre.length + blk.length) (loadLabels pre 0 m) := by
    intro b hlen hb m
    rw [loadLabels_append, loadLabels_append, loadLabels_of_unlabelled fun i hi => (hb i hi).2,
      List.length_append, hlen, Nat.zero_add]
  simp only [start, h.instr, h.instr', hload blk' h.length_eq h.movable',
    hload blk rfl h.movable]

/-- Outside of the block the programs have the same instructions. -/
theorem step_eq (h : Reschedules pre blk blk' post prog prog')
    (hu : u.index < pre.length ∨ pre.length + blk.length ≤ u.index) :
    step prog' u = step prog u := by
  have hi : prog'.instr[u.index]? = prog.instr[u.index]? := by
    rw [h.instr, h.instr', List.append_assoc, List.append_assoc]
    rcases hu with hu | hu
    · rw [List.getElem?_append_left hu, List.getElem?_append_left hu]
    · have hlen := h.length_eq
      iterate 4 rw [List.getElem?_append_right (by omega)]
      rw [hlen]
  unfold Processor.index at hi
  rw [step, step, hi]

/-- A label does not lead into the block. -/
theorem not_inside_target (h : Reschedules pre blk blk' post prog prog')
    (hd : Defines prog.instr l) (hu : u.target = (start prog s).target) :
    ¬ Inside pre blk (u.target l).toNat := by
  rintro ⟨hlo, hhi⟩
  obtain ⟨k, i, hi, hlen, hload⟩ := exists_labelled hd 0 s.labels
  have hk : k < 2 ^ 31 := (List.getElem?_eq_some_iff.mp hi).1.trans prog.instrSize_lt
  have htarget : (u.target l).toNat = k := by
    rw [hu]
    change ((loadLabels prog.instr 0 s.labels l).getD 0).toNat = k
    rw [hload, Nat.zero_add]
    exact toNat_ofNat_of_lt hk
  rw [htarget] at hlo hhi
  rw [h.instr, List.append_assoc, List.getElem?_append_right hlo.le,
    List.getElem?_append_left (by omega)] at hi
  rw [(h.movable i (List.mem_of_getElem? hi)).2] at hlen
  exact absurd hlen (by decide)

/-- A step outside of the block does not lead into it, unless it returns there. -/
theorem not_inside_step (h : Reschedules pre blk blk' post prog prog') (hres : Resolved prog)
    (hret : ∀ w ∈ returned prog u, ¬ Inside pre blk ((w + 1).setWidth 32).toNat)
    (ht : u.target = (start prog s).target) (hr : u.index < prog.instrSize)
    (hu : u.index < pre.length ∨ pre.length + blk.length ≤ u.index)
    (hv : step prog u = .ok v) : ¬ Inside pre blk v.index := by
  obtain ⟨i, hmem, hi⟩ := exists_instr hr
  rcases step_pc hi hv with ⟨-, hpc⟩ | hop | ⟨l, hl, hpc⟩
  · have hnext : v.index = u.index + 1 := by
      rw [← next_index (hr.trans prog.instrSize_lt)]
      exact congrArg BitVec.toNat hpc
    unfold Inside
    omega
  · obtain ⟨x, hx, rfl⟩ := step_ret hi hop hv
    refine hret (u.regs x) ?_
    rw [returned, hi]
    simp only [if_pos hop, hx]
    rfl
  · rw [show v.index = (u.target l).toNat from congrArg BitVec.toNat hpc]
    exact h.not_inside_target (hres i hmem l hl) ht

/-- Outside of the block both programs take the same step, at its start both go through it. -/
theorem checkpoints (h : Reschedules pre blk blk' post prog prog') (hres : Resolved prog)
    (hret : ∀ n u, runProgram prog n s = .ok u → ∀ w ∈ returned prog u,
      ¬ Inside pre blk ((w + 1).setWidth 32).toNat)
    {n : ℕ} (hn : runProgram prog n s = .ok u) (hin : ¬ Inside pre blk u.index)
    (hr : u.index < prog.instrSize) :
    ∃ a b, Machine.Checkpoints (machine prog) (machine prog')
      (fun v => (∃ n, runProgram prog n s = .ok v) ∧ ¬ Inside pre blk v.index) u a b := by
  have hreached : ∀ a v, (machine prog).iter a u = .ok v → ∃ n, runProgram prog n s = .ok v := by
    intro a v hv
    refine ⟨n + a, ?_⟩
    rw [runProgram, Machine.iter_add, show (machine prog).iter n (start prog s) = .ok u from hn]
    exact hv
  by_cases htop : u.index = pre.length ∧ 0 < blk.length
  · obtain ⟨hu, hpos⟩ := htop
    obtain ⟨hiter, hidx⟩ := iter_block h.instr (fun i hi => (h.movable i hi).1) hu
    obtain ⟨hiter', -⟩ := iter_block h.instr' (fun i hi => (h.movable' i hi).1) hu
    rw [h.length_eq] at hiter'
    refine ⟨blk.length, blk.length, hpos, hpos, ?_, fun v hv => ⟨hreached _ v hv, ?_⟩⟩
    · have hcomm : ∀ i j s, Independent i j → SameOutcome (plainStep s i >>= (plainStep · j))
          (plainStep s j >>= (plainStep · i)) := fun i j s hij => plainStep_comm hij s
      rw [hiter, hiter']
      exact h.reordered.foldlM hcomm u
    · rw [hidx v (hiter ▸ hv)]
      exact fun hv => absurd hv.2 (lt_irrefl _)
  · have hu : u.index < pre.length ∨ pre.length + blk.length ≤ u.index := by
      unfold Inside at hin
      omega
    have hone : ∀ {Q : VPUProgram}, u.index < Q.instrSize → (machine Q).iter 1 u = step Q u := by
      intro Q hQ
      rw [← Nat.zero_add 1, Machine.iter_succ_of_iter rfl (machine_running.mpr hQ)]
      rfl
    refine ⟨1, 1, Nat.one_pos, Nat.one_pos, ?_, fun v hv => ⟨hreached 1 v hv, ?_⟩⟩
    · rw [hone hr, hone (by rwa [h.instrSize_eq]), h.step_eq hu]
      exact .refl _
    · rw [hone hr] at hv
      exact h.not_inside_step hres (hret n u hn) (iter_target hn) hr hu hv

end Reschedules

/-- Independent neighbours of a block may stand in any order: the program returns the same
states and fails on the same inputs, though perhaps with another fault. The block has no
labels, and returns do not lead into it. -/
theorem reschedule (h : Reschedules pre blk blk' post prog prog') (hres : Resolved prog)
    (hret : ∀ n u, runProgram prog n s = .ok u → ∀ w ∈ returned prog u,
      ¬ Inside pre blk ((w + 1).setWidth 32).toNat) :
    (∀ t, Returns prog s t ↔ Returns prog' s t) ∧
      ((∃ n e, runProgram prog n s = .error e) ↔ ∃ n e, runProgram prog' n s = .error e) := by
  have hrun : ∀ u : Processor, (machine prog).running u = (machine prog').running u := by
    intro u
    change decide (_ < _) = decide (_ < _)
    rw [h.instrSize_eq]
  have hends : ∀ o, (machine prog).Ends (start prog s) o ↔
      (machine prog').Ends (start prog' s) o := by
    intro o
    rw [h.start_eq]
    refine Machine.ends_iff_of_checkpoints (fun u _ => hrun u) (fun u hu hr => ?_)
      (I := fun v => (∃ n, runProgram prog n s = .ok v) ∧ ¬ Inside pre blk v.index) ?_
    · obtain ⟨⟨n, hn⟩, hin⟩ := hu
      exact h.checkpoints hres hret hn hin (machine_running.mp hr)
    · exact ⟨⟨0, rfl⟩, fun hin => absurd hin.1 (Nat.not_lt_zero _)⟩
  exact ⟨fun t => hends (some t), hends none⟩

end Block

instance (i j : VPUInstruction) : Decidable (Independent i j) :=
  decidable_of_iff ((∀ l ∈ i.writes, l ∉ j.reads ∧ l ∉ j.controls) ∧
      (∀ l ∈ j.writes, l ∉ i.reads ∧ l ∉ i.controls) ∧ ∀ l ∈ i.writes, l ∉ j.writes)
    ⟨fun ⟨hl, hr, hw⟩ => ⟨hl, hr, hw⟩, fun ⟨hl, hr, hw⟩ => ⟨hl, hr, hw⟩⟩

/-- Programs without returns return nowhere. -/
theorem returned_of_no_ret {prog : VPUProgram} (h : ∀ i ∈ prog.instr, i.op ≠ .ret)
    (u : Processor) : returned prog u = none := by
  unfold returned
  cases hi : prog.instr[u.index]? with
  | none => rfl
  | some i => exact if_neg (h i (List.mem_of_getElem? hi))

namespace MultInverse

/-- The instructions that form the exponent, before its first test. -/
def exponent : List VPUInstruction :=
  [ { op := .ld, inputs := [.kAddr P_ADDR], outputs := [.kReg 21] },
    { op := .set, inputs := [.kValue 2], outputs := [.kReg 23] },
    { op := .sub, inputs := [.kReg 21, .kReg 23], outputs := [.kReg 21] },
    { op := .set, inputs := [.kValue 0], outputs := [.kReg 0] } ]

/-- The same with the constants first. -/
def constantsFirst : List VPUInstruction :=
  [ { op := .set, inputs := [.kValue 2], outputs := [.kReg 23] },
    { op := .set, inputs := [.kValue 0], outputs := [.kReg 0] },
    { op := .ld, inputs := [.kAddr P_ADDR], outputs := [.kReg 21] },
    { op := .sub, inputs := [.kReg 21, .kReg 23], outputs := [.kReg 21] } ]

theorem reordered_exponent : Reordered Independent exponent constantsFirst :=
  .trans (.swap [] _ (by decide)) (.trans (.swap [_, _] [] (by decide))
    (.swap [_] [_] (by decide)))

def rescheduled : VPUProgram := ⟨code.take 5 ++ constantsFirst ++ code.drop 9, by decide⟩

theorem reschedules :
    Reschedules (code.take 5) exponent constantsFirst (code.drop 9) program rescheduled where
  instr := rfl
  instr' := rfl
  reordered := reordered_exponent
  movable := by decide

theorem rescheduled_kernel :
    (∀ t, Returns program (.ofCells [37, 5]) t ↔ Returns rescheduled (.ofCells [37, 5]) t) ∧
      ((∃ n e, runProgram program n (.ofCells [37, 5]) = .error e) ↔
        ∃ n e, runProgram rescheduled n (.ofCells [37, 5]) = .error e) := by
  refine reschedule reschedules resolved fun n u _ w hw => ?_
  rw [returned_of_no_ret (by decide)] at hw
  cases hw

end MultInverse
end Fabric

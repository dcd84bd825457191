import Fabric.Halting
import Fabric.Reference

/-! What can stop a run: the faults of programs whose operands are in order, and the
end of programs that only jump forward. -/
namespace Fabric
open Lib

/-- Every instruction has an executor, and the operands it needs are there and in range. -/
def Decodes (prog : VPUProgram) : Prop := ∀ i ∈ prog.instr, ∃ o, i.decode = .ok o

/-- The instruction about to execute divides by zero. -/
def AtZeroDivisor (prog : VPUProgram) (s : Processor) : Prop :=
  ∃ o, OpAt prog s.index o ∧ o.DividesByZero s

/-- The instruction about to execute divides the least word by minus one. -/
def AtQuotientOverflow (prog : VPUProgram) (s : Processor) : Prop :=
  ∃ o, OpAt prog s.index o ∧ o.QuotientOverflows s

/-- The instruction about to execute has no quotient, for the reason `e`. -/
def FailsAs (prog : VPUProgram) (e : Fault) (s : Processor) : Prop :=
  e = .divisionByZero ∧ AtZeroDivisor prog s ∨ e = .quotientOverflow ∧ AtQuotientOverflow prog s

section Faults
variable {prog : VPUProgram} {s u : Processor} {e : Fault}

theorem decodes_of_ops {ops : List Op} (h : prog.instr.map VPUInstruction.decode = ops.map .ok) :
    Decodes prog := by
  intro i hi
  have hmem := List.mem_map_of_mem (f := VPUInstruction.decode) hi
  rw [h] at hmem
  obtain ⟨o, -, ho⟩ := List.mem_map.mp hmem
  exact ⟨o, ho.symm⟩

theorem Decodes.opAt (hd : Decodes prog) (hu : u.index < prog.instrSize) :
    ∃ o, OpAt prog u.index o := by
  obtain ⟨i, hmem, hi⟩ := exists_instr hu
  obtain ⟨o, ho⟩ := hd i hmem
  exact ⟨o, i, hi, ho⟩

theorem OpAt.step_eq {o : Op} (h : OpAt prog u.index o) :
    step prog u = (o.fault u).elim (.ok (o.apply u)) .error := by
  obtain ⟨i, hi, hd⟩ := h
  exact step_eq_apply hi hd

theorem OpAt.step_error_iff {o : Op} (h : OpAt prog u.index o) :
    step prog u = .error e ↔ o.fault u = some e := by
  rw [h.step_eq]
  cases o.fault u <;> simp

/-- Operands that are in order leave the two ways to fail at a division. -/
theorem Decodes.step_error_iff (hd : Decodes prog) (hu : u.index < prog.instrSize) :
    step prog u = .error e ↔ FailsAs prog e u := by
  obtain ⟨o, ho⟩ := hd.opAt hu
  rw [ho.step_error_iff, Op.fault_eq_some_iff]
  constructor
  · rintro (⟨he, hz⟩ | ⟨he, hq⟩)
    · exact Or.inl ⟨he, o, ho, hz⟩
    · exact Or.inr ⟨he, o, ho, hq⟩
  · rintro (⟨he, o', ho', hz⟩ | ⟨he, o', ho', hq⟩)
    · cases ho.det ho'
      exact Or.inl ⟨he, hz⟩
    · cases ho.det ho'
      exact Or.inr ⟨he, hq⟩

/-- A run fails exactly if it gets to a division that has no quotient, by zero or of the
least word by minus one, before its steps are used up. -/
theorem runProgram_error_iff (hd : Decodes prog) {n : ℕ} :
    runProgram prog n s = .error e ↔
      ∃ k < n, ∃ u, runProgram prog k s = .ok u ∧ u.index < prog.instrSize ∧
        FailsAs prog e u := by
  rw [runProgram, Machine.iter_eq_error_iff]
  constructor
  · rintro ⟨k, hk, u, hu, hr, he⟩
    have hlt := machine_running.mp hr
    exact ⟨k, hk, u, hu, hlt, (hd.step_error_iff hlt).mp he⟩
  · rintro ⟨k, hk, u, hu, hlt, hf⟩
    exact ⟨k, hk, u, hu, machine_running.mpr hlt, (hd.step_error_iff hlt).mpr hf⟩

/-- A kernel with the modulus minus one, whose argument is the least word. -/
theorem multInverse_error_iff :
    runProgram MultInverse.program 15 (.ofCells [-1, BitVec.intMin 64]) =
        .error .quotientOverflow ↔
      ∃ k < 15, ∃ u,
        runProgram MultInverse.program k (.ofCells [-1, BitVec.intMin 64]) = .ok u ∧
          u.index < MultInverse.program.instrSize ∧
          FailsAs MultInverse.program .quotientOverflow u :=
  runProgram_error_iff (decodes_of_ops MultInverse.decode_code)

end Faults

/-- The index of the last instruction that defines `l`, or zero. -/
def VPUProgram.target (prog : VPUProgram) (l : String) : BitVec 32 :=
  (loadLabels prog.instr 0 (fun _ => none) l).getD 0

/-- No returns, and every label is defined behind the instructions that name it. -/
def Forward (prog : VPUProgram) : Prop :=
  ∀ k i, prog.instr[k]? = some i → i.op ≠ .ret ∧ ∀ l ∈ i.reference, k < (prog.target l).toNat

section Forward
variable {prog : VPUProgram} {s u v : Processor} {i : VPUInstruction} {l : String}

/-- A label that leads anywhere but to the start is defined by the program. -/
theorem target_start_of_pos (h : 0 < (prog.target l).toNat) (s : Processor) :
    (start prog s).target l = prog.target l := by
  by_cases hd : Defines prog.instr l
  · exact congrArg (fun j : Option (BitVec 32) => j.getD 0) (loadLabels_of_defines hd 0 _ _)
  · rw [VPUProgram.target, loadLabels_of_not_defines hd] at h
    exact absurd h (by decide)

/-- A label that is looked up is named by the instruction. -/
theorem reference_of_lookup (h : i.lookup s = some l) : i.reference = some l := by
  unfold VPUInstruction.lookup at h
  split at h
  case h_1 hop =>
    obtain ⟨d, x, -, hx, rfl⟩ := lookupJAL_eq_some h
    exact reference_of_jal hop hx
  case h_2 hop =>
    obtain ⟨x, y, z, -, -, hz, -, rfl⟩ := lookupBEQ_eq_some h
    exact reference_of_beq hop hz
  case h_3 => cases h

theorem lookupJAL_of_ok {r : BitVec 32 × Processor} (h : nextPcJAL i u = .ok r) :
    ∃ l, i.lookupJAL = some l := by
  obtain ⟨d, hd, h⟩ := bind_eq_ok.mp h
  obtain ⟨x, hx, -⟩ := bind_eq_ok.mp h
  exact ⟨x.label, by rw [VPUInstruction.lookupJAL, hd, hx]⟩

/-- A branch looks its label up or falls through. -/
theorem lookupBEQ_of_ok {r : BitVec 32 × Processor} (h : nextPcBEQ i u = .ok r) :
    r.1 = u.pc + 1 ∨ ∃ l, i.lookupBEQ u = some l := by
  obtain ⟨x, hx, h⟩ := bind_eq_ok.mp h
  obtain ⟨y, hy, h⟩ := bind_eq_ok.mp h
  by_cases hxy : u.regs x = u.regs y
  · rw [if_pos hxy] at h
    obtain ⟨z, hz, -⟩ := bind_eq_ok.mp h
    exact Or.inr ⟨z.label, by simp only [VPUInstruction.lookupBEQ, hx, hy, hz, if_pos hxy]⟩
  · rw [if_neg hxy] at h
    cases h
    exact Or.inl rfl

/-- A plain executor goes on with the next instruction. -/
theorem ControlFree.nextPc_ok {e : Execute} (he : ControlFree e) {r : BitVec 32 × Processor}
    (h : e.nextPc i u = .ok r) : r.1 = u.pc + 1 := by
  obtain ⟨t, ht, h⟩ := bind_eq_ok.mp h
  cases h
  rw [(he.keeps ht).1]

/-- Where a step that succeeds leads. -/
theorem step_pc (hi : prog.instr[u.index]? = some i) (h : step prog u = .ok v) :
    i.op ≠ .jal ∧ v.pc = u.pc + 1 ∨ i.op = .ret ∨ ∃ l ∈ i.reference, v.pc = u.target l := by
  have hlook : ∀ l, i.lookup u = some l → ∃ l ∈ i.reference, v.pc = u.target l := by
    intro l hl
    have hlookup : l ∈ lookup prog u := by rw [lookup, hi]; exact hl
    obtain ⟨v', hv', hpc⟩ := step_lookup hlookup
    rw [h] at hv'
    cases hv'
    exact ⟨l, reference_of_lookup hl, hpc⟩
  cases hf : exec i.op with
  | none => rw [step_of_no_exec hi hf] at h; cases h
  | some f =>
    rw [step_of_exec hi hf] at h
    cases hr : f i u with
    | error => rw [hr] at h; cases h
    | ok r =>
      rw [hr] at h
      cases h
      cases hplain : plainExecute i.op with
      | some e =>
        rw [exec_of_plainExecute hplain] at hf
        cases hf
        refine Or.inl ⟨fun hop => ?_, (controlFree_plainExecute hplain).nextPc_ok hr⟩
        rw [hop] at hplain
        cases hplain
      | none =>
        unfold VPUInstruction.lookup at hlook
        rcases plainExecute_eq_none hplain with hop | hop | hop | hop
        · rw [hop] at hf; cases hf
        · rw [hop] at hf hlook
          cases hf
          obtain ⟨l, hl⟩ := lookupJAL_of_ok hr
          exact Or.inr (Or.inr (hlook l hl))
        · exact Or.inr (Or.inl hop)
        · rw [hop] at hf hlook
          cases hf
          rcases lookupBEQ_of_ok hr with hpc | ⟨l, hl⟩
          · exact Or.inl ⟨by rw [hop]; decide, hpc⟩
          · exact Or.inr (Or.inr (hlook l hl))

/-- In a forward program each step leads to a later instruction. -/
theorem Forward.index_lt (hf : Forward prog) (ht : u.target = (start prog s).target)
    (hu : u.index < prog.instrSize) (h : step prog u = .ok v) : u.index < v.index := by
  obtain ⟨i, -, hi⟩ := exists_instr hu
  obtain ⟨hret, href⟩ := hf u.index i hi
  rcases step_pc hi h with ⟨-, hpc⟩ | hop | ⟨l, hl, hpc⟩
  · have hnext := next_index (hu.trans prog.instrSize_lt)
    have hidx : v.index = u.next.index := congrArg BitVec.toNat hpc
    omega
  · exact absurd hop hret
  · have hlt := href l hl
    have hidx : v.index = (u.target l).toNat := congrArg BitVec.toNat hpc
    rw [ht, target_start_of_pos (by omega)] at hidx
    omega

/-- A segment of a forward program goes through increasing indices. -/
theorem Forward.pairwise_lt (hf : Forward prog) {tr : List ℕ}
    (h : (machine prog).Seg Processor.index (fun _ => True) u tr v)
    (ht : u.target = (start prog s).target) :
    tr.Pairwise (· < ·) ∧ u.index ≤ v.index ∧ ∀ k ∈ tr, u.index ≤ k ∧ k < v.index := by
  induction h with
  | nil => exact ⟨.nil, le_rfl, by simp⟩
  | cons hr _ hs _ ih =>
    have hnext := hf.index_lt ht (machine_running.mp hr) hs
    obtain ⟨hpair, hle, hmem⟩ := ih ((step_target hs).trans ht)
    refine ⟨hpair.cons fun k hk => hnext.trans_le (hmem k hk).1, hnext.le.trans hle, ?_⟩
    intro k hk
    rcases List.mem_cons.mp hk with rfl | hk
    · exact ⟨le_rfl, hnext.trans_le hle⟩
    · exact ⟨hnext.le.trans (hmem k hk).1, (hmem k hk).2⟩

/-- Increasing indices below a bound are no more than the bound. -/
theorem length_le_of_pairwise_lt {tr : List ℕ} {n : ℕ} (h : tr.Pairwise (· < ·))
    (hn : ∀ k ∈ tr, k < n) : tr.length ≤ n := by
  have hsub : tr ⊆ List.range n := fun k hk => List.mem_range.mpr (hn k hk)
  have hle := (List.Nodup.subperm (h.imp fun hlt => hlt.ne) hsub).length_le
  rwa [List.length_range] at hle

/-- The run executes the instructions at the indices `tr` and fails at the one behind them. -/
def Breaks (prog : VPUProgram) (s : Processor) (tr : List ℕ) (e : Fault) : Prop :=
  ∃ pre u, tr = pre ++ [u.index] ∧
    (machine prog).Seg Processor.index (fun _ => True) (start prog s) pre u ∧
    u.index < prog.instrSize ∧ step prog u = .error e

/-- A forward program executes each instruction at most once, in increasing order: it comes
to rest or fails within as many steps as it has instructions. -/
theorem forward_stops (hf : Forward prog) (s : Processor) :
    (∃ tr t, Executes prog s tr t ∧ tr.Pairwise (· < ·) ∧ tr.length ≤ prog.instrSize) ∨
      ∃ e, runProgram prog prog.instrSize s = .error e ∧
        ∃ tr, Breaks prog s tr e ∧ tr.Pairwise (· < ·) := by
  cases hrun : runProgram prog prog.instrSize s with
  | error e =>
    obtain ⟨k, -, u, hu, hr, he⟩ := Machine.iter_eq_error_iff.mp hrun
    obtain ⟨pre, hseg, -⟩ := Machine.exists_seg_of_iter Processor.index hu
    obtain ⟨hpair, -, hmem⟩ := hf.pairwise_lt hseg rfl
    refine Or.inr ⟨e, rfl, pre ++ [u.index], ⟨pre, u, rfl, hseg, machine_running.mp hr, he⟩, ?_⟩
    rw [List.pairwise_append]
    refine ⟨hpair, List.pairwise_singleton _ _, fun j hj j' hj' => ?_⟩
    rw [List.mem_singleton.mp hj']
    exact (hmem j hj).2
  | ok t =>
    left
    obtain ⟨tr, hseg, hlen⟩ := Machine.exists_seg_of_iter Processor.index hrun
    obtain ⟨hpair, -, hmem⟩ := hf.pairwise_lt hseg rfl
    have hrest : (machine prog).running t = false := by
      by_contra hr
      rw [Bool.not_eq_false] at hr
      have hle := length_le_of_pairwise_lt hpair fun k hk => (hmem k hk).2
      have hlt := machine_running.mp hr
      rw [hlen hr] at hle
      omega
    have hin := hseg.forall_obs (R := fun k => k < prog.instrSize) fun u => machine_running.mp
    exact ⟨tr, t, ⟨hseg, hrest⟩, hpair, length_le_of_pairwise_lt hpair hin⟩

/-- A branch over one instruction. -/
def skipOne : VPUProgram :=
  ⟨[ { op := .beq, inputs := [.kReg 0, .kReg 0], outputs := [.kLabel "end"] },
     { op := .set, inputs := [.kValue 1], outputs := [.kReg 0] },
     { op := .div, inputs := [.kReg 0, .kReg 1], outputs := [.kReg 2], label := "end" } ],
    by decide⟩

theorem skipOne_forward : Forward skipOne := by
  intro k i hi
  obtain ⟨hk, -⟩ := List.getElem?_eq_some_iff.mp hi
  change k < 3 at hk
  obtain rfl | rfl | rfl : k = 0 ∨ k = 1 ∨ k = 2 := by omega
  all_goals
    cases hi
    decide

theorem skipOne_stops :
    (∃ tr t, Executes skipOne (.ofCells []) tr t ∧ tr.Pairwise (· < ·) ∧
        tr.length ≤ skipOne.instrSize) ∨
      ∃ e, runProgram skipOne skipOne.instrSize (.ofCells []) = .error e ∧
        ∃ tr, Breaks skipOne (.ofCells []) tr e ∧ tr.Pairwise (· < ·) :=
  forward_stops skipOne_forward (.ofCells [])

end Forward

/-- All that a processor holds but `labels_`. -/
def Processor.words (s : Processor) : (Addr → Word) × (Reg → Word) × Word × BitVec 32 :=
  (s.sram, s.regs, s.p, s.pc)

section Loops
variable {prog : VPUProgram} {s u v : Processor}

instance finite_bitVec {w : ℕ} : Finite (BitVec w) :=
  Finite.of_injective BitVec.toFin fun _ _ => BitVec.eq_of_toFin_eq

theorem Processor.same_of_words (h : u.words = v.words) : u.Same v := by
  obtain ⟨hsram, hregs, hp, hpc⟩ : u.sram = v.sram ∧ u.regs = v.regs ∧ u.p = v.p ∧ u.pc = v.pc := by
    simpa [Processor.words] using h
  exact ⟨hsram, hregs, hp, hpc⟩

theorem Processor.Same.words_eq (h : u.Same v) : u.words = v.words := by
  rw [Processor.words, Processor.words, h.sram, h.regs, h.p, h.pc]

/-- States with the same words and targets take the same step. -/
theorem step_words {m : String → BitVec 32} (hu : u.target = m) (hv : v.target = m)
    (h : u.words = v.words) :
    Machine.Alike (fun u' v' => u'.target = m ∧ v'.target = m ∧ u'.words = v'.words)
      (step prog u) (step prog v) := by
  have hlookup : ∀ l ∈ lookup prog u, u.target l = v.target l := fun l _ => by rw [hu, hv]
  have hsame := step_same (Processor.same_of_words h) hlookup
  exact (sameResult_iff.mp hsame).imp_ok fun u' v' hu' hv' huv =>
    ⟨(step_target hu').trans hu, (step_target hv').trans hv, huv.words_eq⟩

/-- A run goes on for ever exactly if it comes back to a state that it has been in, up to
`labels_`: there is no other way not to return and not to fail. -/
theorem runs_forever_iff (prog : VPUProgram) (s : Processor) :
    (machine prog).RunsForever (start prog s) ↔
      ∃ m n u v, m < n ∧ runProgram prog m s = .ok u ∧ runProgram prog n s = .ok v ∧
        u.index < prog.instrSize ∧ u.Same v := by
  constructor
  · intro h
    obtain ⟨m, n, u, v, hmn, hu, hv, hr, hwords⟩ := h.recurs Processor.words
    exact ⟨m, n, u, v, hmn, hu, hv, machine_running.mp hr, Processor.same_of_words hwords⟩
  · rintro ⟨m, n, u, v, hmn, hu, hv, hr, hsame⟩
    have hkey : ∀ u' v' : Processor, u'.target = (start prog s).target →
        v'.target = (start prog s).target → u'.words = v'.words →
        (machine prog).running u' = (machine prog).running v' ∧
          Machine.Alike (fun w w' => w.target = (start prog s).target ∧
            w'.target = (start prog s).target ∧ w.words = w'.words)
            ((machine prog).step u') ((machine prog).step v') := fun u' v' hu' hv' hwords =>
      ⟨(running_same (Processor.same_of_words hwords)).symm, step_words hu' hv' hwords⟩
    exact Machine.runsForever_of_recurs hkey hmn hu hv (machine_running.mpr hr) (iter_target hu)
      (iter_target hv) hsame.words_eq

end Loops
end Fabric

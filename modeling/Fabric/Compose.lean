import Fabric.Addition

/-! Kernels appended to one program. All labels of the program resolve to the last
copy that defines them, so the first kernel runs into the last one. -/
namespace Fabric
open Lib

/-- The two `generate` functions. -/
inductive Kernel
  | multInverse
  | padd
  deriving DecidableEq, Repr

namespace Kernel

def generate : Kernel → VPUProgram → Option VPUProgram
  | multInverse => MultInverse.generate
  | padd => PAdd.generate

def code : Kernel → List VPUInstruction
  | multInverse => MultInverse.code
  | padd => PAdd.code

/-- The kernel alone in its program. -/
def program : Kernel → VPUProgram
  | multInverse => MultInverse.program
  | padd => PAdd.program

/-- The word that the kernel leaves in cell 10. -/
def result : Kernel → Processor → Word
  | multInverse, s => inverse (s.sram 0) (s.sram 1)
  | padd, s => (PAdd.inputs s).sum.1

theorem generate_eq (k : Kernel) (prog : VPUProgram) :
    k.generate prog = prog.addInstrs k.code := by
  cases k <;> rfl

theorem generate_empty (k : Kernel) : k.generate .empty = some k.program := by
  cases k <;> rfl

end Kernel

/-- The calls of `generate` on one program, in order. -/
def generateAll : List Kernel → VPUProgram → Option VPUProgram
  | [], prog => some prog
  | k :: ks, prog => k.generate prog >>= generateAll ks

/-- The separately generated programs run one after the other. -/
inductive RunsInTurn : List Kernel → Processor → Processor → Prop
  | nil (s : Processor) : RunsInTurn [] s s
  | snoc {ks : List Kernel} {k : Kernel} {prog : VPUProgram} {s u t : Processor} :
      RunsInTurn ks s u → k.generate .empty = some prog → Returns prog u t →
      RunsInTurn (ks ++ [k]) s t

/-- The combined program halts with the SRAM of the separate runs. -/
def Composes (ks : List Kernel) (prog : VPUProgram) : Prop :=
  ∀ s : Processor, 1 ≤ (s.sram 0).toInt →
    ∃ t t', Returns prog s t ∧ RunsInTurn ks s t' ∧ t.sram = t'.sram

theorem generateAll_instr {ks : List Kernel} {prog prog' : VPUProgram}
    (h : generateAll ks prog = some prog') :
    prog'.instr = prog.instr ++ (ks.map Kernel.code).flatten := by
  induction ks generalizing prog with
  | nil => cases h; simp
  | cons k ks ih =>
    obtain ⟨u, hu, hrest⟩ := Option.bind_eq_some_iff.mp h
    rw [Kernel.generate_eq] at hu
    rw [ih hrest, VPUProgram.addInstrs_instr hu, List.map_cons, List.flatten_cons,
      List.append_assoc]

section Turns
variable {ks : List Kernel} {k : Kernel} {s : Processor}

/-- The SRAM that runs of the separate programs leave. -/
def turnsSram (ks : List Kernel) (s : Processor) : Addr → Word :=
  Function.update (Function.update s.sram 10 ((ks.getLast?.map fun k => k.result s).getD (s.sram 10)))
    11 (if .padd ∈ ks then (PAdd.inputs s).sum.2 else s.sram 11)

theorem turnsSram_of_ne {a : Addr} (h10 : a ≠ 10) (h11 : a ≠ 11) :
    turnsSram ks s a = s.sram a := by
  rw [turnsSram, Function.update_of_ne h11, Function.update_of_ne h10]

/-- One more kernel, whose inputs the earlier ones have not touched. -/
theorem kernel_returns (k : Kernel) {u : Processor} (hs : 1 ≤ (s.sram 0).toInt)
    (hu : u.sram = turnsSram ks s) :
    ∃ t, Returns k.program u t ∧ t.sram = turnsSram (ks ++ [k]) s := by
  have hsame {a : Addr} (h10 : a ≠ 10) (h11 : a ≠ 11) : u.sram a = s.sram a := by
    rw [hu, turnsSram_of_ne h10 h11]
  have h0 := hsame (a := 0) (by decide) (by decide)
  cases k with
  | multInverse =>
    obtain ⟨t, ht, hsram⟩ := MultInverse.executes u (by rw [h0]; exact hs)
    refine ⟨t, ht.returns, ?_⟩
    rw [hsram, h0, hsame (a := 1) (by decide) (by decide), hu]
    funext a
    simp only [turnsSram, Function.update_apply, List.getLast?_concat, List.mem_append,
      List.mem_singleton, reduceCtorEq, or_false, Option.map_some, Option.getD_some, Kernel.result]
    split_ifs <;> simp_all
  | padd =>
    obtain ⟨t, ht, hsram⟩ := PAdd.executes u (by rw [h0]; exact hs)
    refine ⟨t, ht.returns, ?_⟩
    have hin : PAdd.inputs u = PAdd.inputs s := by
      simp only [PAdd.inputs, Inputs.mk.injEq]
      exact ⟨h0, hsame (by decide) (by decide), hsame (by decide) (by decide),
        hsame (by decide) (by decide), hsame (by decide) (by decide),
        hsame (by decide) (by decide), hsame (by decide) (by decide)⟩
    rw [hsram, hin, hu]
    funext a
    simp only [turnsSram, Function.update_apply, List.getLast?_concat, List.mem_append,
      List.mem_singleton, or_true, if_true, Option.map_some, Option.getD_some, Kernel.result]
    split_ifs <;> rfl

theorem runsInTurn_exists (ks : List Kernel) (hs : 1 ≤ (s.sram 0).toInt) :
    ∃ t, RunsInTurn ks s t ∧ t.sram = turnsSram ks s := by
  induction ks using List.reverseRecOn with
  | nil =>
    refine ⟨s, .nil s, ?_⟩
    simp [turnsSram]
  | append_singleton ks k ih =>
    obtain ⟨u, hu, hsram⟩ := ih
    obtain ⟨t, ht, htsram⟩ := kernel_returns k hs hsram
    exact ⟨t, .snoc hu k.generate_empty ht, htsram⟩

theorem RunsInTurn.det {t t' : Processor} (h : RunsInTurn ks s t) (h' : RunsInTurn ks s t') :
    t = t' := by
  induction h generalizing t' with
  | nil s =>
    generalize hks : ([] : List Kernel) = ks at h'
    cases h' with
    | nil => rfl
    | snoc => simp at hks
  | snoc _ hg hr ih =>
    rename_i ks k prog s u t _
    generalize hks : ks ++ [k] = ks' at h'
    cases h' with
    | nil => simp at hks
    | snoc hu' hg' hr' =>
      obtain ⟨rfl, hk⟩ := List.append_inj' hks rfl
      cases hk
      rw [hg] at hg'
      cases hg'
      cases ih hu'
      exact hr.det hr'

end Turns

section Combined
variable {ks : List Kernel} {k l : Kernel} {prog : VPUProgram} {s : Processor}

/-- The combined program begins with the first kernel and ends with the last. -/
theorem layout (h : generateAll ks .empty = some prog) (hk : ks.head? = some k)
    (hl : ks.getLast? = some l) :
    (∃ post, prog.instr = k.code ++ post) ∧ ∃ pre, prog.instr = pre ++ l.code := by
  have hinstr : prog.instr = (ks.map Kernel.code).flatten := generateAll_instr h
  obtain ⟨tl, rfl⟩ : ∃ tl, ks = k :: tl := ⟨ks.tail, List.eq_cons_of_mem_head? hk⟩
  obtain ⟨init, hinit⟩ := List.getLast?_eq_some_iff.mp hl
  refine ⟨⟨_, hinstr⟩, (init.map Kernel.code).flatten, ?_⟩
  rw [hinstr, hinit]
  simp

theorem multInverse_codeAt_zero {post : List VPUInstruction}
    (hp : prog.instr = MultInverse.code ++ post) : CodeAt prog 0 MultInverse.ops :=
  codeAt_of_decode [] post hp MultInverse.decode_code

theorem padd_codeAt_zero {post : List VPUInstruction} (hp : prog.instr = PAdd.code ++ post) :
    CodeAt prog 0 PAdd.ops :=
  codeAt_of_decode [] post hp PAdd.decode_code

section Last
variable {pre : List VPUInstruction}

theorem multInverse_codeAt_last (hp : prog.instr = pre ++ MultInverse.code) :
    CodeAt prog pre.length MultInverse.ops :=
  codeAt_of_decode pre [] (by rw [hp, List.append_nil]) MultInverse.decode_code

theorem padd_codeAt_last (hp : prog.instr = pre ++ PAdd.code) : CodeAt prog pre.length PAdd.ops :=
  codeAt_of_decode pre [] (by rw [hp, List.append_nil]) PAdd.decode_code

theorem multInverse_labels (hp : prog.instr = pre ++ MultInverse.code) (s : Processor) :
    LoopLabels (start prog s).labels "done" (pre.length + 10) (pre.length + 17) := by
  change LoopLabels (loadLabels prog.instr 0 s.labels) _ _ _
  rw [hp]
  exact MultInverse.loopLabels_of_append pre s.labels

theorem padd_labels (hp : prog.instr = pre ++ PAdd.code) (s : Processor) :
    PAdd.Linked (start prog s).labels pre.length := by
  change PAdd.Linked (loadLabels prog.instr 0 s.labels) _
  rw [hp]
  exact PAdd.linked_of_append pre s.labels

/-- A state behind the last kernel has left the program. -/
theorem halted_of_index {t : Processor} {code : List VPUInstruction}
    (hp : prog.instr = pre ++ code) (ht : t.index = pre.length + code.length) :
    (machine prog).running t = false := by
  rw [machine_halted, ht, VPUProgram.instrSize, hp, List.length_append]

end Last

/-- `MultInverse` first and last: the run computes the inverse. -/
theorem returns_multInverse (h : generateAll ks .empty = some prog)
    (hk : ks.head? = some .multInverse) (hl : ks.getLast? = some .multInverse)
    (hs : 1 ≤ (s.sram 0).toInt) :
    ∃ t, Returns prog s t ∧
      t.sram = Function.update s.sram 10 (inverse (s.sram 0) (s.sram 1)) := by
  obtain ⟨⟨post, hpost⟩, pre, hpre⟩ := layout h hk hl
  obtain ⟨t, ht, hsram, hti⟩ := MultInverse.run (H := False) (s := start prog s)
    (multInverse_codeAt_zero hpost) (multInverse_codeAt_last hpre) (multInverse_labels hpre s) rfl
    hs nofun
  exact ⟨t, ht.halts (halted_of_index hpre hti), hsram⟩

/-- `PAdd` first and last: the run computes the sum. -/
theorem returns_padd (h : generateAll ks .empty = some prog) (hk : ks.head? = some .padd)
    (hl : ks.getLast? = some .padd) (hs : 1 ≤ (s.sram 0).toInt) :
    ∃ t, Returns prog s t ∧ t.sram = Function.update
      (Function.update s.sram 10 (PAdd.inputs s).sum.1) 11 (PAdd.inputs s).sum.2 := by
  obtain ⟨⟨post, hpost⟩, pre, hpre⟩ := layout h hk hl
  obtain ⟨t, ht, hsram, hti⟩ := PAdd.run (H := False) (s := start prog s)
    (padd_codeAt_zero hpost) (padd_codeAt_last hpre) (padd_labels hpre s) rfl hs nofun
  exact ⟨t, ht.halts (halted_of_index hpre hti), hsram⟩

/-- `MultInverse` first and `PAdd` last: the argument one leaves through the label
`done` of `PAdd`, which stores a register that nothing has written. -/
theorem returns_multInverse_padd (h : generateAll ks .empty = some prog)
    (hk : ks.head? = some .multInverse) (hl : ks.getLast? = some .padd) (hx : s.sram 1 = 1) :
    ∃ t, Returns prog s t ∧ t.sram 11 = s.regs 9 := by
  obtain ⟨⟨post, hpost⟩, pre, hpre⟩ := layout h hk hl
  have hzero := multInverse_codeAt_zero hpost
  have hlast := padd_codeAt_last hpre
  obtain ⟨u, hu, hui, -, hul, -, -, hu20, hu22, hu9⟩ := MultInverse.run_entry (H := False)
    (s := start prog s) hzero rfl
  obtain ⟨v, hv, hvi, hvf⟩ := run_branch (H := False) (hzero.at 4 rfl) hui
    (by rw [hu20, hu22]; exact hx) (by rw [hul]; exact (padd_labels hpre s).done)
    ((hlast.at 63 rfl).lt.trans prog.instrSize_lt)
  obtain ⟨t, ht, hti, hsram⟩ := PAdd.run_stores (H := False) hlast hvi rfl rfl
  refine ⟨t, ((hu.append hv).append ht).halts (halted_of_index hpre hti), ?_⟩
  rw [hsram, Function.update_self, hvf.regs 9 (by simp), hu9]
  rfl

/-- `PAdd` first and `MultInverse` last: a zero operand leaves through the label
`done` of `MultInverse`, which stores one word only. -/
theorem returns_padd_multInverse (h : generateAll ks .empty = some prog)
    (hk : ks.head? = some .padd) (hl : ks.getLast? = some .multInverse)
    (hz : (PAdd.inputs s).firstZero) : ∃ t, Returns prog s t ∧ t.sram 11 = s.sram 11 := by
  obtain ⟨⟨post, hpost⟩, pre, hpre⟩ := layout h hk hl
  have hzero := padd_codeAt_zero hpost
  have hlast := multInverse_codeAt_last hpre
  obtain ⟨u, hu, hui, husram, hul, hload, hu13, -, -⟩ := PAdd.run_load (H := False)
    (s := start prog s) hzero rfl
  obtain ⟨v, hv, hvi, hvf⟩ := run_branch (H := False) (hzero.at 12 rfl) hui
    (by rw [hu13, hload.r12]; exact hz) (by rw [hul]; exact (multInverse_labels hpre s).exit_eq)
    ((hlast.at 17 rfl).lt.trans prog.instrSize_lt)
  obtain ⟨t, ht, hsram, hti⟩ := MultInverse.run_store (H := False) hlast hvi rfl
  refine ⟨t, ((hu.append hv).append ht).halts (halted_of_index hpre hti), ?_⟩
  rw [hsram, Function.update_of_ne (by decide), hvf.sram, husram]
  rfl

/-- Argument one for the inverse, and a zero first operand for the sum. -/
def mixedInput : Processor := .ofCells [37, 1, 0, -1, -1, -1, 5, 3]

/-- Whatever its first and last kernel, the combined program leaves cell 11 alone
here unless it begins and ends with `PAdd`. -/
theorem mixed_returns (h : generateAll ks .empty = some prog) (hk : ks.head? = some k)
    (hl : ks.getLast? = some l) (hkl : ¬ (k = .padd ∧ l = .padd)) :
    ∃ t, Returns prog mixedInput t ∧ t.sram 11 = 0 := by
  cases k <;> cases l
  case multInverse.multInverse =>
    obtain ⟨t, ht, hsram⟩ := returns_multInverse (s := mixedInput) h hk hl (by decide)
    refine ⟨t, ht, ?_⟩
    rw [hsram, Function.update_of_ne (by decide)]
    rfl
  case multInverse.padd => exact returns_multInverse_padd (s := mixedInput) h hk hl rfl
  case padd.multInverse => exact returns_padd_multInverse (s := mixedInput) h hk hl (by decide)
  case padd.padd => exact absurd ⟨rfl, rfl⟩ hkl

theorem not_composes_of_mixed (h : generateAll ks .empty = some prog) (hk : ks.head? = some k)
    (hl : ks.getLast? = some l) (hkl : ¬ (k = .padd ∧ l = .padd)) (hmem : Kernel.padd ∈ ks) :
    ¬ Composes ks prog := by
  intro hc
  obtain ⟨t, t', ht, ht', hsram⟩ := hc mixedInput (by decide)
  obtain ⟨u, hu, h11⟩ := mixed_returns h hk hl hkl
  obtain ⟨v, hv, hvsram⟩ := runsInTurn_exists (s := mixedInput) ks (by decide)
  cases ht.det hu
  cases ht'.det hv
  rw [hsram, hvsram, turnsSram, Function.update_self, if_pos hmem] at h11
  exact absurd h11 (by decide)

theorem composes_of_turnsSram (hs : ∀ s : Processor, 1 ≤ (s.sram 0).toInt →
    ∃ t, Returns prog s t ∧ t.sram = turnsSram ks s) : Composes ks prog := by
  intro s hp
  obtain ⟨t, ht, hsram⟩ := hs s hp
  obtain ⟨t', ht', hsram'⟩ := runsInTurn_exists ks hp
  exact ⟨t, t', ht, ht', by rw [hsram, hsram']⟩

theorem composes_of_padd (h : generateAll ks .empty = some prog) (hk : ks.head? = some .padd)
    (hl : ks.getLast? = some .padd) : Composes ks prog := by
  refine composes_of_turnsSram fun s hp => ?_
  obtain ⟨t, ht, hsram⟩ := returns_padd h hk hl hp
  refine ⟨t, ht, ?_⟩
  rw [hsram, turnsSram, hl, if_pos (List.mem_of_mem_head? hk)]
  rfl

theorem composes_of_multInverse (h : generateAll ks .empty = some prog)
    (hk : ks.head? = some .multInverse) (hl : ks.getLast? = some .multInverse)
    (hmem : Kernel.padd ∉ ks) : Composes ks prog := by
  refine composes_of_turnsSram fun s hp => ?_
  obtain ⟨t, ht, hsram⟩ := returns_multInverse h hk hl hp
  refine ⟨t, ht, ?_⟩
  rw [hsram, turnsSram, hl, if_neg hmem]
  simp [Kernel.result]

theorem composes_nil : Composes [] .empty :=
  composes_of_turnsSram fun s _ => ⟨start .empty s, ⟨0, rfl, rfl⟩, by simp [turnsSram, start]⟩

/-- Kernels compose exactly if all are `MultInverse` or the first and the last are `PAdd`. -/
theorem composes_iff (h : generateAll ks .empty = some prog) :
    Composes ks prog ↔ (∀ k ∈ ks, k = .multInverse) ∨
      (ks.head? = some .padd ∧ ks.getLast? = some .padd) := by
  rcases List.eq_nil_or_concat ks with rfl | ⟨init, l, hks⟩
  · cases h
    exact iff_of_true composes_nil (Or.inl (by simp))
  have hl : ks.getLast? = some l := by simp [hks]
  obtain ⟨k, hk⟩ : ∃ k, ks.head? = some k := by
    cases ks with
    | nil => simp at hl
    | cons k _ => exact ⟨k, rfl⟩
  by_cases hpadd : k = .padd ∧ l = .padd
  · obtain ⟨rfl, rfl⟩ := hpadd
    exact iff_of_true (composes_of_padd h hk hl) (Or.inr ⟨hk, hl⟩)
  by_cases hmem : Kernel.padd ∈ ks
  · refine iff_of_false (not_composes_of_mixed h hk hl hpadd hmem) ?_
    rintro (hall | ⟨hk', hl'⟩)
    · cases hall _ hmem
    · rw [hk] at hk'
      rw [hl] at hl'
      exact hpadd ⟨Option.some.inj hk', Option.some.inj hl'⟩
  · have hall : ∀ k ∈ ks, k = .multInverse := by
      intro k hk
      cases k
      · rfl
      · exact absurd hk hmem
    cases hall k (List.mem_of_mem_head? hk)
    cases hall l (List.mem_of_mem_getLast? hl)
    exact iff_of_true (composes_of_multInverse h hk hl hmem) (Or.inl hall)

end Combined

theorem composes_two_multInverse_iff :
    ∃ prog, generateAll [.multInverse, .multInverse] .empty = some prog ∧
      (Composes [.multInverse, .multInverse] prog ↔
        (∀ k ∈ [Kernel.multInverse, .multInverse], k = .multInverse) ∨
          ([Kernel.multInverse, .multInverse].head? = some .padd ∧
            [Kernel.multInverse, .multInverse].getLast? = some .padd)) :=
  ⟨_, rfl, composes_iff rfl⟩

/-- An inverse followed by a sum does not compose. -/
theorem multInverse_padd_not_composes :
    ∃ prog, generateAll [.multInverse, .padd] .empty = some prog ∧
      ¬ Composes [.multInverse, .padd] prog :=
  ⟨_, rfl, not_composes_of_mixed rfl rfl rfl (by decide) (by decide)⟩

end Fabric

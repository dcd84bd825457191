import Fabric.Kernel.PAddRun
import Fabric.Kernel.MultInverse

/-! Both kernels halt: no step of theirs can fail, the subroutine returns to its call,
and the results are stored once. -/
namespace Fabric
open Lib

/-- The program holds an instruction with the opcode `op` at index `k`. -/
def IsOp (prog : VPUProgram) (op : VPUOp) (k : ℕ) : Prop :=
  prog.instr[k]?.map VPUInstruction.op = some op

instance decidableIsOp (prog : VPUProgram) (op : VPUOp) (k : ℕ) : Decidable (IsOp prog op k) :=
  inferInstanceAs (Decidable (_ = _))

/-- The instruction has an executor, and its registers and addresses are in range. -/
def VPUInstruction.WellFormed (i : VPUInstruction) : Prop :=
  (exec i.op).isSome ∧
    ∀ x ∈ i.inputs ++ i.outputs, x.reg.toNat < NUM_REGS ∧ x.addr.toNat < SRAM_SIZE

/-- The instruction about to execute is well formed and divides by nothing zero. -/
def Clean (prog : VPUProgram) (s : Processor) : Prop :=
  ∃ i o, prog.instr[s.index]? = some i ∧ i.WellFormed ∧ i.decode = .ok o ∧ ¬ o.DividesByZero s

/-- Before each return there is a call, the last one, whose successor comes next. -/
def ReturnsToCalls (prog : VPUProgram) (tr : List ℕ) : Prop :=
  ∀ pre k post, tr = pre ++ k :: post → IsOp prog .ret k →
    ∃ pre' c mid, pre = pre' ++ c :: mid ∧ IsOp prog .jal c ∧ (∀ k' ∈ mid, ¬ IsOp prog .jal k') ∧
      post.head? = some (c + 1)

/-- The run of `prog` from `s` executes `tr`, each instruction cleanly, and leaves `t`
at the end of the program. -/
structure HaltsCleanly (prog : VPUProgram) (s : Processor) (tr : List ℕ) (t : Processor) :
    Prop where
  seg : (machine prog).Seg Processor.index (Clean prog) (start prog s) tr t
  pc : t.pc.toNat = prog.instrSize
  returns : ReturnsToCalls prog tr
  stores : ∀ k, IsOp prog .st k → tr.count k = 1

/-- What a look at every instruction says of those with one opcode. -/
theorem IsOp.of_forall {prog : VPUProgram} {op : VPUOp} {Q : ℕ → Prop} {k : ℕ}
    (h : IsOp prog op k) (hall : ∀ j < prog.instrSize, IsOp prog op j → Q j) : Q k := by
  obtain ⟨i, hi, -⟩ := Option.map_eq_some_iff.mp h
  exact hall k (List.getElem?_eq_some_iff.mp hi).1 h

section Clean
variable {prog : VPUProgram} {s t : Processor}

/-- A step that succeeds has not divided by zero. -/
theorem clean_of_step {ops : List Op} (hw : ∀ i ∈ prog.instr, i.WellFormed)
    (hd : prog.instr.map VPUInstruction.decode = ops.map .ok) (h : step prog s = .ok t) :
    Clean prog s := by
  obtain ⟨i, o, hi, hdec, -, hz, -⟩ := exists_op_of_step hd h
  exact ⟨i, o, hi, hw i (List.mem_of_getElem? hi), hdec, Op.not_dividesByZero_of_fault hz⟩

end Clean

section Returns
variable {prog : VPUProgram} {tr pre mid rest : List ℕ} {c r : ℕ}

theorem returnsToCalls_of_notMem (hret : ∀ k, IsOp prog .ret k → k = r) (h : r ∉ tr) :
    ReturnsToCalls prog tr := by
  intro pre k post htr hk
  refine absurd ?_ h
  rw [htr, ← hret k hk]
  exact List.mem_append_right _ List.mem_cons_self

/-- A run that calls and returns once. -/
theorem returnsToCalls_of_call (hret : ∀ k, IsOp prog .ret k → k = r) (hc : IsOp prog .jal c)
    (hmid : ∀ k ∈ mid, ¬ IsOp prog .jal k) (hpre : r ∉ pre ++ c :: mid)
    (hrest : r ∉ (c + 1) :: rest) :
    ReturnsToCalls prog ((pre ++ c :: mid) ++ r :: (c + 1) :: rest) := by
  intro pre' k post htr hk
  obtain ⟨rfl, -, rfl⟩ := (List.append_cons_inj_of_notMem (hret k hk ▸ hpre)
    (hret k hk ▸ hrest)).mp htr
  exact ⟨pre, c, mid, rfl, hc, hmid, rfl⟩

end Returns

section Indices
variable {c n k : ℕ} {e : Word}

theorem mem_tailTrace (h : k ∈ tailTrace c e) : c ≤ k ∧ k < c + 7 := by
  unfold tailTrace at h
  split_ifs at h <;> simp at h <;> omega

theorem mem_turnTrace (h : k ∈ turnTrace c c e) : c ≤ k ∧ k < c + 7 := by
  unfold turnTrace at h
  rcases List.mem_append.mp h with h | h
  · simp at h
    omega
  · split_ifs at h
    · exact mem_tailTrace h
    · rcases List.mem_cons.mp h with rfl | h
      · omega
      · exact mem_tailTrace h

/-- The loop stays in its copy. -/
theorem mem_loopTrace (h : k ∈ loopTrace c c n e) : c ≤ k ∧ k < c + 7 := by
  induction n generalizing e with
  | zero => cases h
  | succ n ih =>
    rw [loopTrace] at h
    rcases List.mem_append.mp h with h | h
    · exact mem_turnTrace h
    · split_ifs at h
      · cases h
      · exact ih h

end Indices

namespace MultInverse

theorem wellFormed : ∀ i ∈ program.instr, i.WellFormed := by
  simp only [program, VPUInstruction.WellFormed]
  decide

theorem not_isOp_ret (k : ℕ) : ¬ IsOp program .ret k :=
  fun h => h.of_forall (Q := fun _ => False) (by decide)

theorem eq_of_isOp_st {k : ℕ} (h : IsOp program .st k) : k = 17 :=
  h.of_forall (Q := fun j => j = 17) (by decide)

/-- The store comes last, and only there. -/
theorem trace_eq (p x : Word) : ∃ body, trace 0 0 p x = body ++ [17] ∧ ∀ k ∈ body, k < 17 := by
  unfold trace
  split_ifs
  · exact ⟨List.range' 0 5, rfl, by decide⟩
  · exact ⟨List.range' 0 10, rfl, by decide⟩
  · refine ⟨List.range' 0 10 ++ loopTrace 10 10 63 (p - 2), ?_, ?_⟩
    · rw [List.append_assoc]
      rfl
    · intro k hk
      rcases List.mem_append.mp hk with hk | hk
      · have := (List.mem_range'_1.mp hk).2
        omega
      · exact (mem_loopTrace hk).2

theorem haltsCleanly (s : Processor) (hp : 1 ≤ (s.sram 0).toInt) :
    ∃ tr t, HaltsCleanly program s tr t := by
  obtain ⟨body, htrace, hbody⟩ := trace_eq (s.sram 0) (s.sram 1)
  obtain ⟨t, hr, -, hti⟩ := run (H := False) (s := start program s) codeAt_program codeAt_program
    (loopLabels_of_append [] s.labels) rfl hp False.elim
  refine ⟨_, t, (hr.of_step fun _ _ h => clean_of_step wellFormed decode_code h), hti, ?_, ?_⟩
  · exact fun _ k _ _ hk => absurd hk (not_isOp_ret k)
  · intro k hk
    have hnot : 17 ∉ body := fun h => absurd (hbody 17 h) (by decide)
    rw [eq_of_isOp_st hk]
    change (trace 0 0 (s.sram 0) (s.sram 1)).count 17 = 1
    rw [htrace, List.count_append, List.count_eq_zero_of_not_mem hnot]
    rfl

end MultInverse

namespace PAdd

theorem wellFormed : ∀ i ∈ program.instr, i.WellFormed := by
  simp only [program, VPUInstruction.WellFormed]
  decide

theorem eq_of_isOp_ret {k : ℕ} (h : IsOp program .ret k) : k = 38 :=
  h.of_forall (Q := fun j => j = 38) (by decide)

theorem eq_of_isOp_jal {k : ℕ} (h : IsOp program .jal k) : k = 22 ∨ k = 49 :=
  h.of_forall (Q := fun j => j = 22 ∨ j = 49) (by decide)

theorem eq_of_isOp_st {k : ℕ} (h : IsOp program .st k) : k = 63 ∨ k = 64 :=
  h.of_forall (Q := fun j => j = 63 ∨ j = 64) (by decide)

section Trace
variable {i : Inputs} {p x : Word} {k : ℕ}

/-- The subroutine stays between its entry and its return. -/
theorem mem_inverseBody (h : k ∈ inverseBody 0 p x) : 25 ≤ k ∧ k < 38 := by
  unfold inverseBody at h
  split_ifs at h
  · simp only [List.mem_append, List.mem_range'_1, List.not_mem_nil, or_false] at h
    omega
  · simp only [List.mem_append, List.mem_range'_1, List.not_mem_nil, or_false] at h
    omega
  · simp only [List.mem_append, List.mem_range'_1] at h
    rcases h with h | h | h
    · omega
    · omega
    · have hloop := mem_loopTrace h
      omega

theorem mem_inverseTrace (h : k ∈ inverseTrace 0 p x) : k < 63 := by
  rw [inverseTrace_eq, List.mem_append, List.mem_singleton] at h
  rcases h with h | rfl
  · have hbody := mem_inverseBody h
    omega
  · decide

/-- The stores come last, and only there. -/
theorem mem_bodyTrace (h : k ∈ bodyTrace 0 0 i) : k < 63 := by
  have htangent : k ∈ inverseTrace 0 i.p i.tangentDenom → k < 63 := mem_inverseTrace
  have hchord : k ∈ inverseTrace 0 i.p i.chordDenom → k < 63 := mem_inverseTrace
  unfold bodyTrace at h
  split_ifs at h
  all_goals
    simp only [List.mem_append, List.mem_range'_1, List.mem_cons, List.not_mem_nil, or_false] at h
    grind

/-- A path through the subroutine, called at `c` after `pre`. -/
theorem returnsToCalls_inverse {pre rest : List ℕ} {c : ℕ} (hc : IsOp program .jal c)
    (hpre : 38 ∉ pre) (hrest : 38 ∉ (c + 1) :: rest) :
    ReturnsToCalls program ((pre ++ c :: inverseBody 0 p x) ++ 38 :: (c + 1) :: rest) := by
  refine returnsToCalls_of_call (fun k => eq_of_isOp_ret) hc ?_ ?_ hrest
  · intro k hk hjal
    have hbody := mem_inverseBody hk
    rcases eq_of_isOp_jal hjal with rfl | rfl <;> omega
  · rw [List.mem_append, List.mem_cons, not_or, not_or]
    refine ⟨hpre, ?_, fun h => absurd (mem_inverseBody h).2 (by decide)⟩
    rcases eq_of_isOp_jal hc with rfl | rfl <;> decide

theorem returnsToCalls_trace (i : Inputs) : ReturnsToCalls program (trace 0 0 i) := by
  -- the two paths that call the subroutine, and three that do not
  by_cases h1 : i.firstZero
  · rw [trace, bodyTrace, if_pos h1]
    exact returnsToCalls_of_notMem (fun k => eq_of_isOp_ret) (by decide)
  by_cases h2 : i.secondZero
  · rw [trace, bodyTrace, if_neg h1, if_pos h2]
    exact returnsToCalls_of_notMem (fun k => eq_of_isOp_ret) (by decide)
  by_cases hx : i.x1 = i.x2
  · by_cases hy : i.y1 = i.y2
    · have htrace : trace 0 0 i = ((List.range' 0 18 ++ 39 :: List.range' 43 6) ++
          49 :: inverseBody 0 i.p i.tangentDenom) ++
          38 :: (49 + 1) :: (List.range' 51 12 ++ [63, 64]) := by
        rw [trace, bodyTrace, if_neg h1, if_neg h2, if_pos hx, if_pos hy, inverseTrace_eq]
        simp only [List.append_assoc]
        rfl
      rw [htrace]
      exact returnsToCalls_inverse rfl (by decide) (by decide)
    · rw [trace, bodyTrace, if_neg h1, if_neg h2, if_pos hx, if_neg hy]
      exact returnsToCalls_of_notMem (fun k => eq_of_isOp_ret) (by decide)
  · have htrace : trace 0 0 i = (List.range' 0 22 ++ 22 :: inverseBody 0 i.p i.chordDenom) ++
        38 :: (22 + 1) :: (24 :: (List.range' 51 12 ++ [63, 64])) := by
      rw [trace, bodyTrace, if_neg h1, if_neg h2, if_neg hx, inverseTrace_eq]
      simp only [List.append_assoc]
      rfl
    rw [htrace]
    exact returnsToCalls_inverse rfl (by decide) (by decide)

end Trace

theorem haltsCleanly (s : Processor) (hp : 1 ≤ (s.sram 0).toInt) :
    ∃ tr t, HaltsCleanly program s tr t := by
  obtain ⟨t, hr, -, hti⟩ := run (H := False) (s := start program s) codeAt_program codeAt_program
    (linked_of_append [] s.labels) rfl hp False.elim
  refine ⟨_, t, (hr.of_step fun _ _ h => clean_of_step wellFormed decode_code h), hti,
    returnsToCalls_trace _, ?_⟩
  intro k hk
  have hnot : k ∉ bodyTrace 0 0 (inputs s) := by
    intro h
    have hlt := mem_bodyTrace h
    rcases eq_of_isOp_st hk with rfl | rfl <;> omega
  change (bodyTrace 0 0 (inputs s) ++ [63, 64]).count k = 1
  rw [List.count_append, List.count_eq_zero_of_not_mem hnot]
  rcases eq_of_isOp_st hk with rfl | rfl <;> rfl

end PAdd

/-- From every state whose modulus is positive both kernels run to their end. -/
theorem kernels_halt_cleanly (s : Processor) (hp : 1 ≤ (s.sram 0).toInt) :
    (∃ prog, MultInverse.generate .empty = some prog ∧ ∃ tr t, HaltsCleanly prog s tr t) ∧
      ∃ prog, PAdd.generate .empty = some prog ∧ ∃ tr t, HaltsCleanly prog s tr t :=
  ⟨⟨_, MultInverse.generate_empty, MultInverse.haltsCleanly s hp⟩,
    ⟨_, PAdd.generate_empty, PAdd.haltsCleanly s hp⟩⟩

/-- Modulus one, where the exponent is negative, and a chord that calls the subroutine. -/
theorem kernels_halt_cleanly_one :
    (∃ prog, MultInverse.generate .empty = some prog ∧
        ∃ tr t, HaltsCleanly prog (.ofCells [1, -1, 5, -1, 3, 4, 2, 6]) tr t) ∧
      ∃ prog, PAdd.generate .empty = some prog ∧
        ∃ tr t, HaltsCleanly prog (.ofCells [1, -1, 5, -1, 3, 4, 2, 6]) tr t :=
  kernels_halt_cleanly (.ofCells [1, -1, 5, -1, 3, 4, 2, 6]) (by decide)

end Fabric

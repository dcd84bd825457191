import Fabric.Facts

/-! Ranks of instructions that bound loops, and how the runs of the kernels end for any
words at all in the processor. -/
namespace Fabric
open Lib

/-- A level for each instruction, and a place among those of its level. -/
abbrev RankTable := List (ℕ × ℕ)

/-- The operation divides the register `c`, which is not zero, by at least two. -/
def Op.shrinks (K : Facts) (c : Reg) : Op → Bool
  | .bin .div x y d => decide (x = c ∧ d = c) && K.excludes (.reg c) 0 &&
      (K.words (.reg y)).any (·.all fun w => decide (2 ≤ w.toInt))
  | _ => false

namespace RankTable
variable (R : RankTable)

def entry (k : ℕ) : ℕ × ℕ := R[k]?.getD (0, 0)

/-- The way from index `k` to `j` leads to a lower level, or to a lower place of the level
with `c` as it is, or anywhere in the level with a smaller word in `c`. -/
def Lowers (K : Facts) (c : Reg) (k j : ℕ) (o : Op) : Bool :=
  decide ((R.entry j).1 < (R.entry k).1) || decide ((R.entry j).1 = (R.entry k).1) &&
    (decide (o.writes ≠ some (.reg c) ∧ (R.entry j).2 < (R.entry k).2) || o.shrinks K c)

/-- Every way from an instruction to the next one lowers the rank. -/
def Checks (T : FactTable) (prog : VPUProgram) (c : Reg) : Bool :=
  prog.everyOp fun k o => (o.exits prog (T.row k) k).any fun es => es.all fun e =>
    R.Lowers (T.row k) c k e.1 o

/-- The rank of a state: the level, the size of the counter and the place. -/
def rank (c : Reg) (u : Processor) : ℕ ×ₗ ℕ ×ₗ ℕ :=
  toLex ((R.entry u.index).1, toLex ((u.regs c).toInt.natAbs, (R.entry u.index).2))

end RankTable

section Ranks
variable {prog : VPUProgram} {T : FactTable} {R : RankTable} {K : Facts} {a : Addr} {c : Reg}
  {o : Op} {s u v : Processor}

theorem natAbs_sdiv_lt {x y : Word} (hx : x ≠ 0) (hy : 2 ≤ y.toInt) :
    (x.sdiv y).toInt.natAbs < x.toInt.natAbs := by
  rw [toInt_sdiv_of_pos (by omega), Int.natAbs_tdiv]
  refine Nat.div_lt_self ?_ (by omega)
  exact Int.natAbs_pos.mpr fun h => hx (BitVec.eq_of_toInt_eq (h.trans rfl))

/-- Such a division makes the counter smaller. -/
theorem Op.natAbs_shrinks (h : K.Hold u) (ho : o.shrinks K c = true) :
    ((o.apply u).regs c).toInt.natAbs < (u.regs c).toInt.natAbs := by
  unfold Op.shrinks at ho
  split at ho
  case h_1 x y d =>
    rw [Bool.and_eq_true, Bool.and_eq_true, decide_eq_true_eq, Option.any_eq_true] at ho
    obtain ⟨⟨⟨rfl, rfl⟩, hz⟩, ws, hws, hle⟩ := ho
    have hy := List.all_eq_true.mp hle _ (h.words hws)
    rw [decide_eq_true_eq] at hy
    have hc : ((Op.bin .div d y d).apply u).regs d = (u.regs d).sdiv (u.regs y) :=
      Function.update_self d _ _
    rw [hc]
    exact natAbs_sdiv_lt (h.ne hz) hy
  case h_2 => cases ho

theorem RankTable.rank_lt {k j : ℕ} (h : K.Hold u) (hk : u.index = k)
    (hj : (o.apply u).index = j) (hl : R.Lowers K c k j o = true) :
    R.rank c (o.apply u) < R.rank c u := by
  rw [RankTable.rank, RankTable.rank, hk, hj, Prod.Lex.toLex_lt_toLex, Prod.Lex.toLex_lt_toLex]
  simp only [RankTable.Lowers, Bool.or_eq_true, Bool.and_eq_true, decide_eq_true_eq] at hl
  rcases hl with hlevel | ⟨hlevel, ⟨hw, hplace⟩ | hshrink⟩
  · exact Or.inl hlevel
  · have hc : (o.apply u).regs c = u.regs c := Op.get_apply hw u
    exact Or.inr ⟨hlevel, Or.inr ⟨by rw [hc], hplace⟩⟩
  · exact Or.inr ⟨hlevel, Or.inl (Op.natAbs_shrinks h hshrink)⟩

/-- Each step of a ranked program lowers the rank. -/
theorem FactTable.At.rank_lt (h : T.At prog s u) (hr : Resolved prog) (hT : T.Checks prog = true)
    (hR : R.Checks T prog c = true) (hu : u.index < prog.instrSize)
    (hv : step prog u = .ok v) : R.rank c v < R.rank c u := by
  obtain ⟨o, es, ho, hes, -, e, he, hidx, -⟩ := h.exists_exit hr hT hu
  obtain ⟨o', ho', hlow⟩ := VPUProgram.everyOp_at hR hu
  cases ho.det ho'
  rw [hes, Option.any_some] at hlow
  rw [(ho.of_step hv).2]
  exact RankTable.rank_lt h.facts rfl hidx (List.all_eq_true.mp hlow e he)

/-- A ranked program returns or fails, from every state. -/
theorem FactTable.stops (hr : Resolved prog) (hT : T.Checks prog = true)
    (hR : R.Checks T prog c = true) (s : Processor) :
    (∃ t, Returns prog s t) ∨ ∃ n e, runProgram prog n s = .error e := by
  have hstep : ∀ u v, T.At prog s u → (machine prog).running u = true →
      (machine prog).step u = .ok v → T.At prog s v ∧ R.rank c v < R.rank c u := by
    intro u v hu hrun hv
    have hlt := machine_running.mp hrun
    exact ⟨hu.of_step hr hT hlt hv, hu.rank_lt hr hT hR hlt hv⟩
  exact Machine.halts_or_fails_of_rank hstep (T.at_start hT s)

end Ranks

section Tables
variable {prog : VPUProgram} {T : FactTable} {R : RankTable} {a : Addr} {c : Reg} {s : Processor}

/-- The run comes to rest, and every division on the way is defined. -/
def ReturnsDefined (prog : VPUProgram) (s t : Processor) : Prop :=
  ∃ tr, (machine prog).Seg Processor.index (DivisionDefined prog) (start prog s) tr t ∧
    (machine prog).running t = false

theorem ReturnsDefined.returns {t : Processor} (h : ReturnsDefined prog s t) :
    Returns prog s t := by
  obtain ⟨tr, hseg, hrest⟩ := h
  exact hseg.halts hrest

theorem FactTable.returnsDefined (hr : Resolved prog) (hT : T.Checks prog = true)
    (hG : T.Guards prog a = true) (ha : s.sram a ≠ -1) {t : Processor} (h : Returns prog s t) :
    ReturnsDefined prog s t := by
  obtain ⟨n, hn, hrest⟩ := h
  obtain ⟨tr, hseg, -⟩ := Machine.exists_seg_of_iter Processor.index hn
  exact ⟨tr, T.divisions_defined hr hT hG ha hseg, hrest⟩

/-- A program with a table of facts, guarded divisions and ranks returns, or it fails for want of
a modulus. -/
theorem FactTable.outcome (hr : Resolved prog) (hT : T.Checks prog = true)
    (hG : T.Guards prog a = true) (hR : R.Checks T prog c = true) (ha : s.sram a ≠ -1) :
    (∃ t, Returns prog s t) ∨
      s.sram a = 0 ∧ ∃ n, runProgram prog n s = .error .divisionByZero := by
  rcases T.stops hr hT hR s with hret | ⟨n, e, hn⟩
  · exact Or.inl hret
  · obtain ⟨rfl, h0⟩ := T.error_of_guards hr hT hG ha hn
    exact Or.inr ⟨h0, n, hn⟩

/-- What the checks of the tables promise. Wherever a run gets, the facts of the row hold, and
from every state the run returns with all its divisions defined, or else the cell `a` is zero
and it fails at a division by it. -/
theorem tables_sound (hr : Resolved prog) (hT : T.Checks prog = true)
    (hG : T.Guards prog a = true) (hR : R.Checks T prog c = true) (ha : s.sram a ≠ -1) :
    (∀ n u, runProgram prog n s = .ok u → (T.row u.index).Hold u) ∧
      ((∃ t, ReturnsDefined prog s t) ∨
        s.sram a = 0 ∧ ∃ n, runProgram prog n s = .error .divisionByZero) := by
  refine ⟨fun n u hn => (T.at_run hr hT hn).facts, ?_⟩
  rcases T.outcome hr hT hG hR ha with ⟨t, ht⟩ | hfail
  · exact Or.inl ⟨t, T.returnsDefined hr hT hG ha ht⟩
  · exact Or.inr hfail

end Tables

/-- The modulus is loaded, and R0 and R23 hold their constants. -/
def loopFacts : Facts := [.same .p (.cell 0), .among (.reg 0) [0], .among (.reg 23) [2]]

/-- The rows of the loop `loopOps`: its exponent is not zero but behind the halving. -/
def loopRows (K : Facts) : FactTable :=
  List.replicate 4 (.nonzero (.reg 21) :: K) ++ List.replicate 2 K ++ [.nonzero (.reg 21) :: K]

/-- The places of the loop. The halving leads from the last one to the first. -/
def loopRanks (level : ℕ) : RankTable := [3, 2, 1, 0, 6, 5, 4].map fun place => (level, place)

/-- Levels of `n` instructions that follow each other, down to `level + 1`. -/
def lineRanks (level n : ℕ) : RankTable := (List.range n).map fun j => (level + n - j, 0)

namespace MultInverse

def facts : FactTable :=
  [] :: List.replicate 6 [.same .p (.cell 0)] ++
    List.replicate 2 [.same .p (.cell 0), .among (.reg 23) [2]] ++ [loopFacts] ++
    loopRows loopFacts

def ranks : RankTable := lineRanks 2 10 ++ loopRanks 2 ++ [(1, 0)]

theorem facts_checks : facts.Checks program = true := by decide +kernel

theorem facts_guards : facts.Guards program 0 = true := by decide +kernel

theorem ranks_checks : ranks.Checks facts program 21 = true := by decide +kernel

end MultInverse

namespace PAdd

/-- What is known outside of the subroutine. -/
def mainFacts : Facts := [.same .p (.cell 0), .among (.reg 0) [0]]

/-- The links of the two calls. -/
def linkFact : Fact := .among (.reg 10) [22, 49]

def facts : FactTable :=
  [] :: List.replicate 4 [.same .p (.cell 0)] ++ List.replicate 20 mainFacts ++
    List.replicate 4 (linkFact :: mainFacts) ++ List.replicate 2 (linkFact :: loopFacts) ++
    loopRows (linkFact :: loopFacts) ++ [linkFact :: mainFacts] ++ List.replicate 24 mainFacts

/-- Both points, the tangent, the subroutine, and what follows it. -/
def ranks : RankTable :=
  lineRanks 36 23 ++ lineRanks 14 2 ++ lineRanks 18 6 ++ loopRanks 18 ++ lineRanks 16 1 ++
    lineRanks 24 11 ++ lineRanks 14 1 ++ lineRanks 2 12 ++ lineRanks 0 2

theorem facts_checks : facts.Checks program = true := by decide +kernel

theorem facts_guards : facts.Guards program 0 = true := by decide +kernel

theorem ranks_checks : ranks.Checks facts program 21 = true := by decide +kernel

/-- A negative modulus. -/
theorem tables_sound_neg :
    (∀ n u, runProgram program n (.ofCells [-7, 0, 0, -1, 2, 3, 4, 5]) = .ok u →
      (facts.row u.index).Hold u) ∧
      ((∃ t, ReturnsDefined program (.ofCells [-7, 0, 0, -1, 2, 3, 4, 5]) t) ∨
        (Processor.ofCells [-7, 0, 0, -1, 2, 3, 4, 5]).sram 0 = 0 ∧
          ∃ n, runProgram program n (.ofCells [-7, 0, 0, -1, 2, 3, 4, 5]) =
            .error .divisionByZero) :=
  tables_sound resolved facts_checks facts_guards ranks_checks (by decide)

end PAdd

/-- The run gets to a division by zero. -/
def FailsByZero (prog : VPUProgram) (s : Processor) : Prop :=
  ∃ n, runProgram prog n s = .error .divisionByZero

/-- The run comes to rest with all its divisions defined, and leaves the SRAM as it is but for
the cells `outs`. -/
def ReturnsInto (prog : VPUProgram) (outs : List Addr) (s : Processor) : Prop :=
  ∃ t, ReturnsDefined prog s t ∧ ∀ a ∉ outs, t.sram a = s.sram a

/-- The instruction stores to no cell but those of `outs`. -/
def VPUInstruction.storesOnly (outs : List Addr) (i : VPUInstruction) : Bool :=
  match i.writes with
  | some (.cell a) => decide (a ∈ outs)
  | _ => true

section Ends
variable {prog : VPUProgram} {H : Prop} {T : FactTable} {R : RankTable} {outs : List Addr}
  {a : Addr} {c : Reg} {s t u : Processor} {o : Op} {tr : List ℕ}

theorem untouched_of_storesOnly (h : ∀ i ∈ prog.instr, i.storesOnly outs = true)
    (ha : a ∉ outs) : Untouched prog (.cell a) := by
  intro i hi hw
  have hstore := h i hi
  rw [VPUInstruction.storesOnly, hw] at hstore
  exact ha (decide_eq_true_eq.mp hstore)

theorem failsByZero_of_run (h : Run prog H (start prog s) tr u) (ho : OpAt prog u.index o)
    (hz : o.DividesByZero u) : FailsByZero prog s := by
  refine ⟨tr.length + 1, (Machine.iter_succ_of_iter h.iter_eq (machine_running.mpr ho.lt)).trans ?_⟩
  change step prog u = _
  rw [ho.step_error_iff]
  exact Op.fault_eq_some_iff.mpr (Or.inl ⟨rfl, hz⟩)

theorem FactTable.returnsInto (hr : Resolved prog) (hT : T.Checks prog = true)
    (hG : T.Guards prog a = true) (ha : s.sram a ≠ -1)
    (hout : ∀ i ∈ prog.instr, i.storesOnly outs = true) (h : Returns prog s t) :
    ReturnsInto prog outs s := by
  refine ⟨t, T.returnsDefined hr hT hG ha h, fun b hb => ?_⟩
  obtain ⟨n, hn, -⟩ := h
  exact run_frame (untouched_of_storesOnly hout hb) hn

/-- A program with tables that needs its modulus exactly under the condition `N`. -/
theorem FactTable.outcome_of_needs {N : Prop} [Decidable N] (hr : Resolved prog)
    (hT : T.Checks prog = true) (hG : T.Guards prog a = true) (hR : R.Checks T prog c = true)
    (ha : s.sram a ≠ -1) (hout : ∀ i ∈ prog.instr, i.storesOnly outs = true)
    (hfail : s.sram a = 0 → N → FailsByZero prog s)
    (hret : ¬ N → ∃ t, Returns prog s t) :
    if s.sram a = 0 ∧ N then FailsByZero prog s else ReturnsInto prog outs s := by
  split_ifs with hN
  · exact hfail hN.1 hN.2
  · rcases T.outcome hr hT hG hR ha with ⟨t, ht⟩ | ⟨h0, -⟩
    · exact T.returnsInto hr hT hG ha hout ht
    · obtain ⟨t, ht⟩ := hret fun h => hN ⟨h0, h⟩
      exact T.returnsInto hr hT hG ha hout ht

end Ends

namespace MultInverse
variable {s : Processor}

theorem stores : ∀ i ∈ program.instr, i.storesOnly [10] = true := by decide +kernel

theorem returns_of_one (hx : s.sram 1 = 1) : ∃ t, Returns program s t := by
  obtain ⟨t, ht, -, hti⟩ := run_one (H := False) (s := start program s) codeAt_program
    codeAt_program (loopLabels_of_append [] s.labels) rfl hx
  exact ⟨t, ht.halts (machine_halted.mpr (by rw [hti]; decide))⟩

/-- Without a modulus the squaring fails, however even the exponent is. -/
theorem failsByZero (h0 : s.sram 0 = 0) (hx : s.sram 1 ≠ 1) : FailsByZero program s := by
  obtain ⟨tr, u, hu, hui, hup, -⟩ := run_to_square s hx (by rw [h0]; decide)
    (by rw [h0]; exact fun h => absurd (by decide) h)
  refine failsByZero_of_run hu (o := .prime .mulp 20 20 20) ?_ ?_
  · rw [hui]
    exact codeAt_program.at 14 rfl
  · rw [Op.DividesByZero, Op.divisor, hup, h0]

theorem outcome (h : s.sram 0 ≠ -1) :
    if s.sram 0 = 0 ∧ s.sram 1 ≠ 1 then FailsByZero program s else ReturnsInto program [10] s :=
  facts.outcome_of_needs resolved facts_checks facts_guards ranks_checks h stores failsByZero
    fun hx => returns_of_one (not_not.mp hx)

end MultInverse

namespace PAdd
variable {s : Processor}

theorem stores : ∀ i ∈ program.instr, i.storesOnly [10, 11] = true := by decide +kernel

theorem returns_of_not_computes (hc : ¬ (inputs s).Computes) : ∃ t, Returns program s t := by
  obtain ⟨t, ht, -, hti⟩ := run_computes (H := False) (s := start program s) codeAt_program
    codeAt_program (linked_of_append [] s.labels) rfl (fun h => absurd h hc) nofun
  exact ⟨t, ht.halts (machine_halted.mpr (by rw [hti]; decide))⟩

/-- Without a modulus the first operation of the chord or the tangent fails. -/
theorem failsByZero (h0 : s.sram 0 = 0) (hc : (inputs s).Computes) : FailsByZero program s := by
  obtain ⟨h1, h2, hxy⟩ := hc
  by_cases hx : s.sram 4 = s.sram 6
  · obtain ⟨tr, u, hu, hui, hload⟩ := run_to_tangent (H := False) (s := start program s)
      codeAt_program codeAt_program (linked_of_append [] s.labels) rfl h1 h2 hx (hxy hx)
    refine failsByZero_of_run hu (o := .prime .mulp 1 1 13) ?_ ?_
    · rw [hui]
      exact codeAt_program.at 43 rfl
    · have hp : u.p = 0 := hload.p.trans h0
      rw [Op.DividesByZero, Op.divisor, hp]
  · obtain ⟨u, hu, hui, -, -, hload⟩ := run_to_compare (H := False) (s := start program s)
      codeAt_program rfl h1 h2
    obtain ⟨v, hv, hvi, hvf⟩ := run_fall (H := False) (codeAt_program.at 17 rfl) hui
      (by rw [hload.r1, hload.r3]; exact hx)
    refine failsByZero_of_run (hu.append hv) (o := .prime .subp 2 4 13) ?_ ?_
    · rw [hvi]
      exact codeAt_program.at 18 rfl
    · have hp : v.p = 0 := hvf.p.trans (hload.p.trans h0)
      rw [Op.DividesByZero, Op.divisor, hp]

theorem outcome (h : s.sram 0 ≠ -1) :
    if s.sram 0 = 0 ∧ (inputs s).Computes then FailsByZero program s
    else ReturnsInto program [10, 11] s :=
  facts.outcome_of_needs resolved facts_checks facts_guards ranks_checks h stores failsByZero
    returns_of_not_computes

end PAdd

/-- Whatever words a processor holds, the kernels return, store only their results and divide
only where that is defined, unless they have no modulus and need one: then they divide by zero.
Minus one is left out, because the least word has no remainder by it. -/
theorem kernels_outcome (s : Processor) (h : s.sram 0 ≠ -1) :
    (if s.sram 0 = 0 ∧ s.sram 1 ≠ 1 then FailsByZero MultInverse.program s
      else ReturnsInto MultInverse.program [10] s) ∧
    if s.sram 0 = 0 ∧ (PAdd.inputs s).Computes then FailsByZero PAdd.program s
      else ReturnsInto PAdd.program [10, 11] s :=
  ⟨MultInverse.outcome h, PAdd.outcome h⟩

/-- The only modulus whose loop takes 64 turns, from the exponent `-2 ^ 63`. -/
theorem kernels_outcome_least :
    (if (Processor.ofCells [-9223372036854775806, 3]).sram 0 = 0 ∧
        (Processor.ofCells [-9223372036854775806, 3]).sram 1 ≠ 1 then
        FailsByZero MultInverse.program (.ofCells [-9223372036854775806, 3])
      else ReturnsInto MultInverse.program [10] (.ofCells [-9223372036854775806, 3])) ∧
    if (Processor.ofCells [-9223372036854775806, 3]).sram 0 = 0 ∧
        (PAdd.inputs (.ofCells [-9223372036854775806, 3])).Computes then
        FailsByZero PAdd.program (.ofCells [-9223372036854775806, 3])
      else ReturnsInto PAdd.program [10, 11] (.ofCells [-9223372036854775806, 3]) :=
  kernels_outcome (.ofCells [-9223372036854775806, 3]) (by decide)

end Fabric

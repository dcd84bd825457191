import Fabric.Compose
import Fabric.Linking

/-! Kernels appended to one program whose labels have been told apart. Such a program
runs its kernels in turn, whichever they are. -/
namespace Fabric
open Lib

/-- A kernel and the names that its labels are given. -/
structure NamedKernel where
  kernel : Kernel
  names : Renaming

def NamedKernel.program (k : NamedKernel) : VPUProgram := k.kernel.program.rename k.names

/-- The kernels appended to one program, in order. -/
def assemble : List NamedKernel → VPUProgram → Option VPUProgram
  | [], prog => some prog
  | k :: ks, prog => prog.addInstrs k.program.instr >>= assemble ks

/-- No label of one kernel is a label of a later one. -/
def Apart (ks : List NamedKernel) : Prop :=
  ks.Pairwise fun k k' => ∀ l, Defines k.program.instr l → ¬ Defines k'.program.instr l

section Parts
variable {s u : Processor}

theorem NamedKernel.relocatable (k : NamedKernel) :
    ∃ D, Relocatable k.program {l | l ∈ [Loc.reg 10]} D := by
  obtain ⟨kernel, names⟩ := k
  cases kernel
  · exact ⟨_, MultInverse.links_relocates.relocatable.rename⟩
  · exact ⟨_, PAdd.links_relocates.relocatable.rename⟩

theorem NamedKernel.resolved (k : NamedKernel) : Resolved k.program := by
  obtain ⟨kernel, names⟩ := k
  cases kernel
  · exact MultInverse.resolved.rename
  · exact PAdd.resolved.rename

/-- A kernel under other names leaves what it leaves under its own. -/
theorem named_returns (k : NamedKernel) {ks : List Kernel} (hs : 1 ≤ (s.sram 0).toInt)
    (hu : u.sram = turnsSram ks s) :
    ∃ v, Returns k.program u v ∧ v.sram = turnsSram (ks ++ [k.kernel]) s := by
  -- the kernel starts with the labels that the renamed one sees
  have hnames : Renamed k.names (u.withLabels fun l => u.labels (k.names.name l)) u :=
    ⟨⟨rfl, rfl, rfl, rfl⟩, fun _ => rfl⟩
  obtain ⟨w, hw, hsram⟩ := kernel_returns k.kernel hs
    (u := u.withLabels fun l => u.labels (k.names.name l)) hu
  obtain ⟨v, hv, hsame⟩ := hnames.returns hw
  exact ⟨v, hv, hsame.same.sram.symm.trans hsram⟩

end Parts

section Assembly
variable {ks : List NamedKernel} {k : NamedKernel} {prog prog' : VPUProgram} {s : Processor}

theorem assemble_append (h : assemble (ks ++ [k]) prog = some prog') :
    ∃ Q, assemble ks prog = some Q ∧ Q.addInstrs k.program.instr = some prog' := by
  induction ks generalizing prog with
  | nil =>
    obtain ⟨Q, hQ, h⟩ := Option.bind_eq_some_iff.mp h
    cases h
    exact ⟨prog, rfl, hQ⟩
  | cons k' ks ih =>
    obtain ⟨Q, hQ, h⟩ := Option.bind_eq_some_iff.mp h
    obtain ⟨Q', hQ', h⟩ := ih h
    exact ⟨Q', Option.bind_eq_some_iff.mpr ⟨Q, hQ, hQ'⟩, h⟩

theorem mem_assemble (h : assemble ks prog = some prog') {i : VPUInstruction}
    (hi : i ∈ prog'.instr) : i ∈ prog.instr ∨ ∃ k ∈ ks, i ∈ k.program.instr := by
  induction ks generalizing prog with
  | nil => cases h; exact Or.inl hi
  | cons k ks ih =>
    obtain ⟨Q, hQ, h⟩ := Option.bind_eq_some_iff.mp h
    rcases ih h with hmem | ⟨k', hk', hmem⟩
    · rw [VPUProgram.addInstrs_instr hQ] at hmem
      rcases List.mem_append.mp hmem with hmem | hmem
      · exact Or.inl hmem
      · exact Or.inr ⟨k, List.mem_cons_self, hmem⟩
    · exact Or.inr ⟨k', List.mem_cons_of_mem k hk', hmem⟩

/-- The last of kernels that are apart is appended to the others. -/
theorem Apart.appends (ha : Apart (ks ++ [k])) {Q : VPUProgram} (hQ : assemble ks .empty = some Q)
    (h : Q.addInstrs k.program.instr = some prog) : Appends Q k.program prog where
  instr := VPUProgram.addInstrs_instr h
  apart i hi l hl := by
    rcases mem_assemble hQ hi with hi | ⟨k', hk', hi⟩
    · cases hi
    · exact (List.pairwise_append.mp ha).2.2 k' hk' k (List.mem_singleton_self k) l
        (k'.resolved i hi l hl)
  resolved := k.resolved

/-- The combined program halts at its end, with the SRAM of the separate runs. -/
theorem assemble_executes (h : assemble ks .empty = some prog) (ha : Apart ks)
    (hs : 1 ≤ (s.sram 0).toInt) :
    ∃ tr t, Executes prog s tr t ∧ t.index = prog.instrSize ∧
      t.sram = turnsSram (ks.map NamedKernel.kernel) s := by
  induction ks using List.reverseRecOn generalizing prog with
  | nil =>
    cases h
    refine ⟨[], start .empty s, ⟨.nil _, machine_halted.mpr (Nat.zero_le _)⟩, rfl, ?_⟩
    change s.sram = _
    simp [turnsSram]
  | append_singleton ks k ih =>
    obtain ⟨Q, hQ, hadd⟩ := assemble_append h
    obtain ⟨tr, t, ht, hti, htsram⟩ := ih hQ (List.pairwise_append.mp ha).1
    obtain ⟨v, hv, hvsram⟩ := named_returns k hs htsram
    have happ := ha.appends hQ hadd
    obtain ⟨D, hD⟩ := k.relocatable
    have hvi := hD.returns_index happ.resolved hv
    obtain ⟨n, hn, -⟩ := hv
    obtain ⟨w, hw, hshift⟩ := (happ.run_on hD ht hti n).ok hn
    have hwi : w.index = prog.instrSize := by
      have hsize := prog.instrSize_lt
      rw [happ.instrSize_eq] at hsize ⊢
      rw [hshift.index (by omega), hvi, Nat.add_comm]
    obtain ⟨tr', hseg, -⟩ := Machine.exists_seg_of_iter Processor.index hw
    refine ⟨tr', w, ⟨hseg, machine_halted.mpr hwi.ge⟩, hwi, ?_⟩
    rw [List.map_append, List.map_singleton, ← hvsram]
    exact funext fun a => hshift.places (.cell a) (by simp)

/-- Kernels whose labels are apart compose, whatever they are and however many. -/
theorem composes_of_apart (h : assemble ks .empty = some prog) (ha : Apart ks) :
    Composes (ks.map NamedKernel.kernel) prog := by
  refine composes_of_turnsSram fun s hs => ?_
  obtain ⟨tr, t, ht, -, hsram⟩ := assemble_executes h ha hs
  exact ⟨t, ht.returns, hsram⟩

/-- Both kernels, each with labels of its own. -/
def inverseThenSum : List NamedKernel :=
  [⟨.multInverse, .behind "inverse."⟩, ⟨.padd, .behind "sum."⟩]

theorem inverseThenSum_apart : Apart inverseThenSum := by
  have hlabels : ∀ i ∈ (NamedKernel.program ⟨.multInverse, .behind "inverse."⟩).instr,
      i.label.length > 0 → ∀ j ∈ (NamedKernel.program ⟨.padd, .behind "sum."⟩).instr,
        j.label ≠ i.label := by
    decide +kernel
  refine List.pairwise_pair.mpr ?_
  rintro l ⟨i, hi, rfl, hlen⟩ ⟨j, hj, hij, -⟩
  exact hlabels i hi hlen j hj hij

/-- The order that fails where both kernels define `done`. -/
theorem inverseThenSum_composes : ∃ prog, assemble inverseThenSum .empty = some prog ∧
    Composes [.multInverse, .padd] prog :=
  ⟨_, rfl, composes_of_apart rfl inverseThenSum_apart⟩

end Assembly
end Fabric

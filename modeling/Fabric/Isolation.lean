import Fabric.Kernel.PAddRun
import Fabric.Kernel.MultInverse

/-! Two runs of a kernel that agree on its inputs. -/
namespace Fabric

/-- Runs of `prog` from states that agree on the cells `ins` execute the same
instructions and agree on the cells `outs`; no other cell changes. -/
def Isolated (prog : VPUProgram) (ins outs : List Addr) : Prop :=
  ∀ s s' : Processor, 1 ≤ (s.sram 0).toInt → (∀ a ∈ ins, s.sram a = s'.sram a) →
    ∃ tr t t', Executes prog s tr t ∧ Executes prog s' tr t' ∧
      (∀ a ∈ outs, t.sram a = t'.sram a) ∧
      ∀ a ∉ outs, t.sram a = s.sram a ∧ t'.sram a = s'.sram a

theorem MultInverse.isolated : Isolated program [0, 1] [10] := by
  intro s s' hp hin
  have h0 := hin 0 (by decide)
  have h1 := hin 1 (by decide)
  obtain ⟨t, ht, hsram⟩ := executes s hp
  obtain ⟨t', ht', hsram'⟩ := executes s' (by rw [← h0]; exact hp)
  rw [← h0, ← h1] at ht' hsram'
  refine ⟨_, t, t', ht, ht', ?_, ?_⟩
  · intro a ha
    rw [List.mem_singleton] at ha
    rw [hsram, hsram', ha, Function.update_self, Function.update_self]
  · intro a ha
    rw [List.mem_singleton] at ha
    rw [hsram, hsram', Function.update_of_ne ha, Function.update_of_ne ha]
    exact ⟨rfl, rfl⟩

theorem PAdd.isolated : Isolated program [0, 1, 3, 4, 5, 6, 7] [10, 11] := by
  intro s s' hp hin
  have hi : inputs s' = inputs s := by
    simp only [inputs, Inputs.mk.injEq]
    exact ⟨(hin 0 (by decide)).symm, (hin 1 (by decide)).symm, (hin 3 (by decide)).symm,
      (hin 4 (by decide)).symm, (hin 5 (by decide)).symm, (hin 6 (by decide)).symm,
      (hin 7 (by decide)).symm⟩
  obtain ⟨t, ht, hsram⟩ := executes s hp
  obtain ⟨t', ht', hsram'⟩ := executes s' (by rw [← hin 0 (by decide)]; exact hp)
  rw [hi] at ht' hsram'
  refine ⟨_, t, t', ht, ht', ?_, ?_⟩
  · intro a ha
    rcases List.mem_pair.mp ha with rfl | rfl
    · simp [hsram, hsram']
    · rw [hsram, hsram', Function.update_self, Function.update_self]
  · intro a ha
    rw [List.mem_pair, not_or] at ha
    obtain ⟨h10, h11⟩ := ha
    rw [hsram, hsram', Function.update_of_ne h11, Function.update_of_ne h10,
      Function.update_of_ne h11, Function.update_of_ne h10]
    exact ⟨rfl, rfl⟩

/-- Neither kernel depends on what it does not load or touches what it does not store. -/
theorem kernels_isolated :
    (∃ prog, MultInverse.generate .empty = some prog ∧ Isolated prog [0, 1] [10]) ∧
      ∃ prog, PAdd.generate .empty = some prog ∧
        Isolated prog [0, 1, 3, 4, 5, 6, 7] [10, 11] :=
  ⟨⟨_, MultInverse.generate_empty, MultInverse.isolated⟩,
    ⟨_, PAdd.generate_empty, PAdd.isolated⟩⟩

end Fabric

import Fabric.Kernel.PAddRun
import Fabric.Kernel.MultInverse

/-! The inverse subroutine inside the kernel of `padd.h` against the kernel of
`mult_inverse.h`. -/
namespace Fabric
open Lib

theorem index_of_pc_eq {s : Processor} {k : ℕ} (hk : k < 2 ^ 31)
    (h : some (BitVec.ofNat 32 k) = some s.pc) : s.index = k := by
  rw [Processor.index, ← Option.some.inj h, toNat_ofNat_of_lt hk]

theorem pc_of_index_eq {s : Processor} {k : ℕ} (h : s.index = k) : BitVec.ofNat 32 k = s.pc := by
  rw [← h, Processor.index, BitVec.ofNat_toNat, BitVec.setWidth_eq]

/-- A run that calls `call_multinv` with the argument `v` reaches `mi_done` and goes
on behind the call. R8 holds what the stand-alone kernel stores for the same words,
and only the scratch registers of the subroutine have changed. -/
theorem PAdd.call_multinv_agrees {P v : Word} {j : ℕ} {s₀ s : Processor}
    (hl : s.labels = (start program s₀).labels) (hs : s.labels "call_multinv" = some s.pc)
    (h : Called P v j s) (hP : 1 ≤ P.toInt) (hj : j < program.instrSize) :
    ∃ tr u t, (machine program).Seg Processor.index (fun _ => True) s tr u ∧
      s.labels "mi_done" = some u.pc ∧ OpAt program u.index (.ret 10) ∧
      step program u = .ok t ∧ t.index = j + 1 ∧
      (∀ s', s'.sram 0 = P → s'.sram 1 = v →
        ∃ t', Returns MultInverse.program s' t' ∧ t.regs 8 = t'.sram 10) ∧
      Frame [8, 13, 20, 21, 22, 23] s t := by
  have hlink : Linked s.labels 0 := hl ▸ linked_of_append [] s₀.labels
  have hcode := codeAt_program
  have hsi : s.index = 25 := index_of_pc_eq (by decide) (hlink.multinv.symm.trans hs)
  obtain ⟨u, hu, hui, huf, hu8⟩ := run_to_ret (H := False) hcode hsi h hlink hP False.elim
  obtain ⟨t, ht, hti, htf⟩ := run_return (H := False) (hcode.at 38 rfl) hui
    (by rw [huf.regs 10 (by decide), h.link]) (hj.trans program.instrSize_lt)
  refine ⟨_, u, t, hu.weaken fun _ _ => trivial, ?_, ?_, ht.step_of_single, hti, ?_,
    huf.trans (htf.mono (by simp))⟩
  · rw [hlink.loop.exit_eq, pc_of_index_eq hui]
  · rw [hui]
    exact hcode.at 38 rfl
  · intro s' h0 h1
    obtain ⟨t', ht', hsram⟩ := MultInverse.executes s' (by rw [h0]; exact hP)
    refine ⟨t', ht'.returns, ?_⟩
    rw [htf.regs 8 (by simp), hu8, hsram, Function.update_self, h0, h1]

/-- A call from the chord for the inverse of three modulo seven. -/
def callingInverse : Processor :=
  (((start PAdd.program { Processor.ofCells [] with p := 7 }).setReg 5 7).setReg 20 3).setReg 10 22
    |>.goto 25

theorem call_multinv_agrees_callingInverse :
    ∃ tr u t, (machine PAdd.program).Seg Processor.index (fun _ => True) callingInverse tr u ∧
      OpAt PAdd.program u.index (.ret 10) ∧ step PAdd.program u = .ok t ∧ t.index = 23 ∧
      (∃ t', Returns MultInverse.program (.ofCells [7, 3]) t' ∧ t.regs 8 = t'.sram 10) ∧
      Frame [8, 13, 20, 21, 22, 23] callingInverse t := by
  have hcalled : PAdd.Called 7 3 22 callingInverse := ⟨rfl, rfl, rfl, rfl, rfl⟩
  have hl : callingInverse.labels = (start PAdd.program (.ofCells [])).labels := rfl
  obtain ⟨tr, u, t, hr, -, hret, hstep, hti, hout, hf⟩ :=
    PAdd.call_multinv_agrees hl rfl hcalled (by decide)
      (show 22 < PAdd.program.instrSize by decide)
  exact ⟨tr, u, t, hr, hret, hstep, hti, hout (.ofCells [7, 3]) rfl rfl, hf⟩

end Fabric

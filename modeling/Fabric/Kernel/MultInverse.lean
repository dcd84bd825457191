import Fabric.Kernel.Loop

/-! The kernel of `mult_inverse.h`. -/
namespace Fabric.MultInverse
open Lib

def P_ADDR : BitVec 64 := 0
def X_ADDR : BitVec 64 := 1
def OUT_ADDR : BitVec 64 := 10

/-- The instructions that `generate` appends. -/
def code : List VPUInstruction :=
  [ { op := .ldp, inputs := [.kAddr P_ADDR], label := "multinv" },
    -- result in R8
    { op := .set, inputs := [.kValue 1], outputs := [.kReg 8] },
    { op := .ld, inputs := [.kAddr X_ADDR], outputs := [.kReg 20] },
    { op := .set, inputs := [.kValue 1], outputs := [.kReg 22] },
    -- if x == 1, just return 1
    { op := .beq, inputs := [.kReg 20, .kReg 22], outputs := [.kLabel "done"] },
    { op := .ld, inputs := [.kAddr P_ADDR], outputs := [.kReg 21] },
    { op := .set, inputs := [.kValue 2], outputs := [.kReg 23] },
    { op := .sub, inputs := [.kReg 21, .kReg 23], outputs := [.kReg 21] },
    { op := .set, inputs := [.kValue 0], outputs := [.kReg 0] },
    { op := .beq, inputs := [.kReg 21, .kReg 0], outputs := [.kLabel "done"] },
    -- while loop
    { op := .and, inputs := [.kReg 21, .kReg 22], outputs := [.kReg 13], label := "while" },
    { op := .beq, inputs := [.kReg 13, .kReg 0], outputs := [.kLabel "next"] },
    { op := .mulp, inputs := [.kReg 8, .kReg 20], outputs := [.kReg 8] },
    { op := .div, inputs := [.kReg 21, .kReg 23], outputs := [.kReg 21], label := "next" },
    { op := .mulp, inputs := [.kReg 20, .kReg 20], outputs := [.kReg 20] },
    { op := .beq, inputs := [.kReg 21, .kReg 0], outputs := [.kLabel "done"] },
    { op := .beq, inputs := [.kReg 0, .kReg 0], outputs := [.kLabel "while"] },
    { op := .st, inputs := [.kReg 8], outputs := [.kAddr OUT_ADDR], label := "done" } ]

def generate (prog : VPUProgram) : Option VPUProgram := prog.addInstrs code

/-- The kernel alone in a program. -/
def program : VPUProgram := ⟨code, by decide⟩

theorem generate_empty : generate .empty = some program := rfl

def ops : List Op :=
  [ .ldp 0, .set 1 8, .ld 1 20, .set 1 22, .beq 20 22 "done", .ld 0 21, .set 2 23,
    .bin .sub 21 23 21, .set 0 0, .beq 21 0 "done" ] ++ loopOps "done" ++ [ .st 8 10 ]

theorem decode_code : code.map VPUInstruction.decode = ops.map .ok := rfl

theorem codeAt_program : CodeAt program 0 ops :=
  codeAt_of_decode [] [] rfl decode_code

/-- The labels a program defines by ending in this kernel, whatever precedes it. -/
theorem loopLabels_of_append (pre : List VPUInstruction) (m : Labels) :
    LoopLabels (loadLabels (pre ++ code) 0 m) "done" (pre.length + 10) (pre.length + 17) := by
  rw [loadLabels_append, Nat.zero_add]
  exact ⟨rfl, rfl, rfl⟩

/-- The instruction indices of a run entered in the copy at `k` whose labels lead
to the copy at `o`. -/
def trace (k o : ℕ) (p x : Word) : List ℕ :=
  List.range' k 5 ++ if x = 1 then [o + 17] else
    List.range' (k + 5) 5 ++ if p - 2 = 0 then [o + 17] else
      loopTrace (k + 10) (o + 10) 63 (p - 2) ++ [o + 17]

section Run
variable {prog : VPUProgram} {H : Prop} {k o : ℕ} {s : Processor}

theorem run_store (ho : CodeAt prog o ops) (hs : s.index = o + 17) {v : Word}
    (hv : s.regs 8 = v) :
    ∃ t, Run prog H s [o + 17] t ∧ t.sram = Function.update s.sram 10 v ∧ t.index = o + 18 := by
  obtain ⟨t, ht, hti, -, hsram⟩ := run_st (H := H) (ho.at 17 rfl) hs
  exact ⟨t, ht, by rw [hsram, hv], hti⟩

/-- `ldp` to `one`. -/
theorem run_entry (hk : CodeAt prog k ops) (hs : s.index = k) :
    ∃ u, Run prog H s (List.range' k 4) u ∧ u.index = k + 4 ∧ u.sram = s.sram ∧
      u.labels = s.labels ∧ u.p = s.sram 0 ∧ u.regs 8 = 1 ∧ u.regs 20 = s.sram 1 ∧
      u.regs 22 = 1 ∧ u.regs 9 = s.regs 9 := by
  let A : List Op := [.ldp 0, .set 1 8, .ld 1 20, .set 1 22]
  have hA : CodeAt prog k A := hk.slice 0 4
  obtain ⟨hr, hui⟩ := run_block (H := H) hA hs (by decide)
    (by simp [A, Safe, Op.fault, Op.Exact, Op.exactResult])
  exact ⟨runOps A s, hr, hui, rfl, rfl, rfl, rfl, rfl, rfl, rfl⟩

/-- `ld` to `zero`, which leave the exponent in R21. -/
private theorem run_exponent (hk : CodeAt prog k ops) (hs : s.index = k + 5)
    (hP : H → 1 ≤ (s.sram 0).toInt) :
    ∃ u, Run prog H s (List.range' (k + 5) 4) u ∧ u.index = k + 9 ∧ Frame [0, 21, 23] s u ∧
      u.regs 0 = 0 ∧ u.regs 21 = s.sram 0 - 2 ∧ u.regs 23 = 2 := by
  let B : List Op := [.ld 0 21, .set 2 23, .bin .sub 21 23 21, .set 0 0]
  have hB : CodeAt prog (k + 5) B := hk.slice 5 4
  have hfits : H → Fits 64 ((s.sram 0).toInt - 2) := by
    intro hh
    have hlo := hP hh
    have hlt := BitVec.toInt_lt (x := s.sram 0)
    constructor <;> norm_num at * <;> omega
  have hsafe : Safe H B s := by
    simp only [B, Safe, Op.fault, Op.Exact, Op.exactResult, Option.mem_def]
    refine ⟨by simp, by simp, by simp, by simp, by simp, ?_, by simp, by simp, trivial⟩
    rintro hh z hz
    cases hz
    exact hfits hh
  obtain ⟨hr, hui⟩ := run_block hB hs (by decide) hsafe
  exact ⟨runOps B s, hr, hui, .runOps (by decide) s, rfl, rfl, rfl⟩

/-- Everything before the loop, which the argument one skips. -/
private theorem run_prelude (hk : CodeAt prog k ops) (hs : s.index = k)
    (hP : H → 1 ≤ (s.sram 0).toInt) (hx : s.sram 1 ≠ 1) :
    ∃ v, Run prog H s (List.range' k 5 ++ List.range' (k + 5) 4) v ∧ v.index = k + 9 ∧
      v.sram = s.sram ∧ v.labels = s.labels ∧
      Loop.Holds ⟨1, s.sram 1, s.sram 0 - 2⟩ (s.sram 0) v := by
  obtain ⟨u, hu, hui, husram, hul, hup, hu8, hu20, hu22, -⟩ := run_entry (H := H) hk hs
  obtain ⟨u', hu', hui', huf'⟩ := run_fall (H := H) (hk.at 4 rfl) hui
    (by rw [hu20, hu22]; exact hx)
  have hsram : u'.sram = s.sram := by rw [huf'.sram, husram]
  obtain ⟨v, hv, hvi, hvf, hv0, hv21, hv23⟩ := run_exponent (H := H) hk hui'
    (by rw [hsram]; exact hP)
  rw [hsram] at hv21
  have huv : Frame [0, 21, 23] u v := (huf'.mono (by simp)).trans hvf
  refine ⟨v, (hu.append hu').append hv, hvi, by rw [huv.sram, husram],
    by rw [huv.labels, hul], ?_⟩
  exact ⟨by rw [huv.p, hup], hv0, by rw [huv.regs 22 (by decide), hu22], hv23,
    by rw [huv.regs 8 (by decide), hu8], by rw [huv.regs 20 (by decide), hu20], hv21⟩

/-- The kernel up to the loop, if the exponent is not zero. -/
theorem run_to_loop (hk : CodeAt prog k ops) (hs : s.index = k)
    (hP : H → 1 ≤ (s.sram 0).toInt) (hx : s.sram 1 ≠ 1) (hz : s.sram 0 - 2 ≠ 0) :
    ∃ v, Run prog H s (List.range' k 5 ++ List.range' (k + 5) 5) v ∧ v.index = k + 10 ∧
      v.sram = s.sram ∧ v.labels = s.labels ∧
      Loop.Holds ⟨1, s.sram 1, s.sram 0 - 2⟩ (s.sram 0) v := by
  obtain ⟨u, hu, hui, husram, hul, huL⟩ := run_prelude (H := H) hk hs hP hx
  obtain ⟨v, hv, hvi, hvf⟩ := run_fall (H := H) (hk.at 9 rfl) hui
    (by rw [huL.exp, huL.zero]; exact hz)
  refine ⟨v, ?_, hvi, by rw [hvf.sram, husram], by rw [hvf.labels, hul],
    huL.of_frame (hvf.mono (by simp)) ?_⟩
  · have hr := hu.append hv
    rwa [List.append_assoc] at hr
  · rw [hvf.regs 8 (by simp), huL.acc]

/-- An early exit through `done`. -/
private theorem run_exit {j : ℕ} {x y : Reg} {v : Word} (ho : CodeAt prog o ops)
    (hb : OpAt prog j (.beq x y "done")) (hs : s.index = j) (hxy : s.regs x = s.regs y)
    (hl : LoopLabels s.labels "done" (o + 10) (o + 17)) (hv : s.regs 8 = v) :
    ∃ t, Run prog H s [j, o + 17] t ∧ t.sram = Function.update s.sram 10 v ∧
      t.index = o + 18 := by
  obtain ⟨u, hu, hui, huf⟩ := run_branch (H := H) hb hs hxy hl.exit_eq
    ((ho.at 17 rfl).lt.trans prog.instrSize_lt)
  obtain ⟨t, ht, hsram, hti⟩ := run_store (H := H) ho hui (huf.regs 8 (by simp))
  exact ⟨t, hu.append ht, by rw [hsram, huf.sram, hv], hti⟩

/-- The argument one is its own inverse, whatever the modulus. -/
theorem run_one (hk : CodeAt prog k ops) (ho : CodeAt prog o ops)
    (hl : LoopLabels s.labels "done" (o + 10) (o + 17)) (hs : s.index = k) (hx : s.sram 1 = 1) :
    ∃ t, Run prog H s (List.range' k 5 ++ [o + 17]) t ∧
      t.sram = Function.update s.sram 10 1 ∧ t.index = o + 18 := by
  obtain ⟨u, hu, hui, husram, hul, -, hu8, hu20, hu22, -⟩ := run_entry (H := H) hk hs
  obtain ⟨t, ht, hsram, hti⟩ := run_exit (H := H) ho (hk.at 4 rfl) hui
    (by rw [hu20, hu22, hx]) (by rw [hul]; exact hl) hu8
  exact ⟨t, hu.append ht, by rw [hsram, husram], hti⟩

/-- The kernel entered in the copy at `k` of a program whose labels lead to the
copy at `o` stores the inverse and runs off the end of the latter. -/
theorem run (hk : CodeAt prog k ops) (ho : CodeAt prog o ops)
    (hl : LoopLabels s.labels "done" (o + 10) (o + 17)) (hs : s.index = k)
    (hP : 1 ≤ (s.sram 0).toInt)
    (hH : H → SmallModulus (s.sram 0) ∧ InField (s.sram 0) (s.sram 1)) :
    ∃ t, Run prog H s (trace k o (s.sram 0) (s.sram 1)) t ∧
      t.sram = Function.update s.sram 10 (inverse (s.sram 0) (s.sram 1)) ∧ t.index = o + 18 := by
  by_cases hx : s.sram 1 = 1
  · rw [trace, if_pos hx, inverse, if_pos hx]
    exact run_one hk ho hl hs hx
  by_cases hz : s.sram 0 - 2 = 0
  · obtain ⟨u, hu, hui, husram, hul, huL⟩ := run_prelude (H := H) hk hs (fun _ => hP) hx
    obtain ⟨t, ht, hsram, hti⟩ := run_exit (H := H) ho (hk.at 9 rfl) hui
      (by rw [huL.exp, huL.zero]; exact hz) (by rw [hul]; exact hl) huL.acc
    rw [trace, if_neg hx, if_pos hz, inverse, if_neg hx, if_pos hz]
    refine ⟨t, ?_, by rw [hsram, husram], hti⟩
    have hr := hu.append ht
    rwa [List.append_assoc] at hr
  obtain ⟨v, hv, hvi, hvsram, hvl, hvL⟩ := run_to_loop (H := H) hk hs (fun _ => hP) hx hz
  obtain ⟨w, hw, hwf, hw8, hwi⟩ := run_inverse_loop (H := H) "done" (hk.slice 10 7)
    (ho.slice 10 7) (by rw [hvl]; exact hl) ((ho.at 17 rfl).lt.trans prog.instrSize_lt) hvi hP
    hvL hH
  obtain ⟨t, ht, hsram, hti⟩ := run_store (H := H) ho hwi hw8
  rw [trace, if_neg hx, if_neg hz, inverse, if_neg hx, if_neg hz]
  refine ⟨t, ?_, by rw [hsram, hwf.sram, hvsram], hti⟩
  have hr := hv.append (hw.append ht)
  rwa [List.append_assoc] at hr

/-- The kernel alone in its program. -/
theorem run_program (s : Processor) (hP : 1 ≤ (s.sram 0).toInt)
    (hH : H → SmallModulus (s.sram 0) ∧ InField (s.sram 0) (s.sram 1)) :
    ∃ t, Run program H (start program s) (trace 0 0 (s.sram 0) (s.sram 1)) t ∧
      t.sram = Function.update s.sram 10 (inverse (s.sram 0) (s.sram 1)) ∧
      (machine program).running t = false := by
  obtain ⟨t, ht, hsram, hti⟩ := run (H := H) (s := start program s) codeAt_program codeAt_program
    (loopLabels_of_append [] s.labels) rfl hP hH
  exact ⟨t, ht, hsram, machine_halted.mpr (by rw [hti]; decide)⟩

/-- The first turn of the loop up to the squaring, which even exponents reach without a
multiplication. -/
theorem run_to_square (s : Processor) (hx : s.sram 1 ≠ 1) (hz : s.sram 0 - 2 ≠ 0)
    (hp : (s.sram 0 - 2) &&& 1 ≠ 0 → SafeDivisor (s.sram 0)) :
    ∃ tr u, Run program False (start program s) tr u ∧ u.index = 14 ∧ u.p = s.sram 0 ∧
      u.regs 20 = s.sram 1 := by
  obtain ⟨u, hu, hui, -, hul, huL⟩ := run_to_loop (H := False) (s := start program s)
    codeAt_program rfl False.elim hx hz
  have hloop : CodeAt program 10 (loopOps "done") := codeAt_program.slice 10 7
  obtain ⟨v, hv, hvf, hvL, hvi⟩ := run_bit (H := False) hloop hloop
    (by rw [hul]; exact loopLabels_of_append [] s.labels) hui huL hp False.elim
  rw [ite_self] at hvi
  have hdiv : OpAt program 13 (.bin .div 21 23 21) := codeAt_program.at 13 rfl
  have hnone : (Op.bin .div 21 23 21).fault v = none := by
    rw [Op.fault, hvL.two]
    exact quotientFault_of_safe (by decide)
  have hw := run_at (H := False) hdiv hvi hnone False.elim
  refine ⟨_, _, (hu.append hv).append hw, hdiv.apply_index hvi rfl, ?_, ?_⟩
  · rw [apply_bin_p]
    exact hvL.p
  · rw [apply_bin_regs, if_neg (by decide)]
    exact hvL.base

theorem executes (s : Processor) (hP : 1 ≤ (s.sram 0).toInt) :
    ∃ t, Executes program s (trace 0 0 (s.sram 0) (s.sram 1)) t ∧
      t.sram = Function.update s.sram 10 (inverse (s.sram 0) (s.sram 1)) := by
  obtain ⟨t, ht, hsram, hhalt⟩ := run_program (H := False) s hP nofun
  exact ⟨t, ⟨ht.weaken fun _ _ => trivial, hhalt⟩, hsram⟩

end Run
end Fabric.MultInverse

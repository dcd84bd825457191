import Fabric.Block
import Fabric.Kernel.Power

/-! The square-and-multiply loop as both kernels contain it, and its runs. -/
namespace Fabric
open Lib

/-- The loop, left through the label `exit`. -/
def loopOps (exit : String) : List Op :=
  [ .bin .and 21 22 13, .beq 13 0 "next", .prime .mulp 8 20 8, .bin .div 21 23 21,
    .prime .mulp 20 20 20, .beq 21 0 exit, .beq 0 0 "while" ]

namespace Loop

/-- The registers of `s` hold `L` and the constants of the loop. -/
structure Holds (L : Loop) (p : Word) (s : Processor) : Prop where
  p : s.p = p
  zero : s.regs 0 = 0
  one : s.regs 22 = 1
  two : s.regs 23 = 2
  acc : s.regs 8 = L.acc
  base : s.regs 20 = L.base
  exp : s.regs 21 = L.exp

theorem Holds.of_frame {L : Loop} {p v : Word} {s t : Processor} (h : L.Holds p s)
    (hf : Frame [8, 13] s t) (h8 : t.regs 8 = v) : Loop.Holds ⟨v, L.base, L.exp⟩ p t :=
  ⟨hf.p.trans h.p, (hf.regs 0 (by decide)).trans h.zero, (hf.regs 22 (by decide)).trans h.one,
    (hf.regs 23 (by decide)).trans h.two, h8, (hf.regs 20 (by decide)).trans h.base,
    (hf.regs 21 (by decide)).trans h.exp⟩

end Loop

/-- The indices executed from the label `next` on, in the copy of the loop at `c`. -/
def tailTrace (c : ℕ) (e : Word) : List ℕ :=
  [c + 3, c + 4, c + 5] ++ if e.sdiv 2 = 0 then [] else [c + 6]

/-- One turn entered in the copy at `c`; its labels lead to the copy at `w`. -/
def turnTrace (c w : ℕ) (e : Word) : List ℕ :=
  [c, c + 1] ++ if e &&& 1 = 0 then tailTrace w e else (c + 2) :: tailTrace c e

def loopTrace (c w : ℕ) : ℕ → Word → List ℕ
  | 0, _ => []
  | n + 1, e => turnTrace c w e ++ if e.sdiv 2 = 0 then [] else loopTrace w w n (e.sdiv 2)

/-- The labels of the loop lead to the copy at `w`, its exit to `x`. -/
structure LoopLabels (m : Labels) (exit : String) (w x : ℕ) : Prop where
  while_eq : m "while" = some (BitVec.ofNat 32 w)
  next_eq : m "next" = some (BitVec.ofNat 32 (w + 3))
  exit_eq : m exit = some (BitVec.ofNat 32 x)

section Run
variable {prog : VPUProgram} {H : Prop} {exit : String} {c w x : ℕ} {L : Loop} {p : Word}
  {s : Processor}

/-- The halving of the exponent and the squaring of the base. -/
private theorem run_halve (hc : CodeAt prog c (loopOps exit)) (hs : s.index = c + 3)
    (h : L.Holds p s) (hp : SafeDivisor p) (hH : H → Fits 64 (L.base.toInt * L.base.toInt)) :
    ∃ u, Run prog H s [c + 3, c + 4] u ∧ u.index = c + 5 ∧ Frame [20, 21] s u ∧
      u.regs 20 = mulp p L.base L.base ∧ u.regs 21 = L.exp.sdiv 2 := by
  let ops : List Op := [.bin .div 21 23 21, .prime .mulp 20 20 20]
  have hcode : CodeAt prog (c + 3) ops := hc.slice 3 2
  have hsafe : Safe H ops s := by
    refine ⟨?_, ?_, ?_, ?_, trivial⟩
    · rw [Op.fault, h.two]
      exact quotientFault_of_safe (by decide)
    · rintro - z hz
      cases hz
      rw [h.two, ← toInt_sdiv_of_pos (by decide)]
      exact toInt_fits (by decide) _
    · exact Op.fault_of_pOnly rfl (by rw [apply_bin_p, h.p]; exact hp)
    · rintro hh z hz
      cases hz
      change Fits 64 ((s.regs 20).toInt * (s.regs 20).toInt)
      rw [h.base]
      exact hH hh
  obtain ⟨hr, hui⟩ := run_block hcode hs (by decide) hsafe
  refine ⟨runOps ops s, hr, hui, .runOps (by decide) s, ?_, ?_⟩
  · rw [← h.base, ← h.p]
    rfl
  · rw [← h.exp, ← h.two]
    rfl

/-- The label `next` to the end of the body. -/
private theorem run_tail (hc : CodeAt prog c (loopOps exit)) (hl : LoopLabels s.labels exit w x)
    (hw : w < 2 ^ 31) (hx : x < 2 ^ 31) (hs : s.index = c + 3) (h : L.Holds p s)
    (hp : SafeDivisor p) (hH : H → Fits 64 (L.base.toInt * L.base.toInt)) :
    ∃ t, Run prog H s (tailTrace c L.exp) t ∧ Frame [20, 21] s t ∧
      t.regs 20 = mulp p L.base L.base ∧ t.regs 21 = L.exp.sdiv 2 ∧
      t.index = if L.exp.sdiv 2 = 0 then x else w := by
  obtain ⟨u, hu, hui, huf, h20, h21⟩ := run_halve (H := H) hc hs h hp hH
  have h0 : u.regs 0 = 0 := (huf.regs 0 (by decide)).trans h.zero
  by_cases hz : L.exp.sdiv 2 = 0
  · obtain ⟨t, ht, hti, htf⟩ := run_branch (H := H) (hc.at 5 rfl) hui (by rw [h21, h0, hz])
      (by rw [huf.labels]; exact hl.exit_eq) hx
    refine ⟨t, ?_, huf.trans (htf.mono (by simp)), by rw [htf.regs 20 (by simp), h20],
      by rw [htf.regs 21 (by simp), h21], by rw [if_pos hz, hti]⟩
    rw [tailTrace, if_pos hz]
    exact hu.append ht
  · obtain ⟨v, hv, hvi, hvf⟩ := run_fall (H := H) (hc.at 5 rfl) hui (by rw [h21, h0]; exact hz)
    obtain ⟨t, ht, hti, htf⟩ := run_branch (H := H) (hc.at 6 rfl) hvi rfl
      (by rw [hvf.labels, huf.labels]; exact hl.while_eq) hw
    have hut := hvf.trans htf
    refine ⟨t, ?_, huf.trans (hut.mono (by simp)), by rw [hut.regs 20 (by simp), h20],
      by rw [hut.regs 21 (by simp), h21], by rw [if_neg hz, hti]⟩
    rw [tailTrace, if_neg hz]
    exact (hu.append hv).append ht

/-- The low bit of the exponent goes to R13. -/
private theorem run_low (hc : CodeAt prog c (loopOps exit)) (hs : s.index = c)
    (h : L.Holds p s) :
    ∃ u, Run prog H s [c] u ∧ u.index = c + 1 ∧ Frame [13] s u ∧ u.regs 13 = L.exp &&& 1 := by
  have hand : OpAt prog c (.bin .and 21 22 13) := hc.head
  refine ⟨_, run_move hand hs rfl rfl, hand.apply_index hs rfl,
    .apply rfl (by simp [Op.dest]) s, ?_⟩
  rw [← h.exp, ← h.one]
  simp [BinOp.eval]

/-- The multiplication by the base, which a clear low bit skips. -/
theorem run_bit (hc : CodeAt prog c (loopOps exit)) (hcw : CodeAt prog w (loopOps exit))
    (hl : LoopLabels s.labels exit w x) (hs : s.index = c) (h : L.Holds p s)
    (hp : L.exp &&& 1 ≠ 0 → SafeDivisor p) (hH : H → L.Fits) :
    ∃ t, Run prog H s ([c, c + 1] ++ if L.exp &&& 1 = 0 then [] else [c + 2]) t ∧
      Frame [8, 13] s t ∧ Loop.Holds ⟨(L.next p).acc, L.base, L.exp⟩ p t ∧
      t.index = (if L.exp &&& 1 = 0 then w else c) + 3 := by
  obtain ⟨u, hu, hui, huf, h13⟩ := run_low (H := H) hc hs h
  have h8 : u.regs 8 = L.acc := (huf.regs 8 (by decide)).trans h.acc
  have hu0 : u.regs 0 = 0 := (huf.regs 0 (by decide)).trans h.zero
  by_cases hz : L.exp &&& 1 = 0
  · obtain ⟨t, ht, hti, htf⟩ := run_branch (H := H) (hc.at 1 rfl) hui (by rw [h13, hz, hu0])
      (by rw [huf.labels]; exact hl.next_eq) ((hcw.at 3 rfl).lt.trans prog.instrSize_lt)
    have hf : Frame [8, 13] s t := (huf.mono (by decide)).trans (htf.mono (by simp))
    refine ⟨t, ?_, hf, h.of_frame hf ?_, ?_⟩
    · rw [if_pos hz, List.append_nil]
      exact hu.append ht
    · rw [htf.regs 8 (by simp), h8, Loop.next, if_pos hz]
    · rw [if_pos hz, hti]
  · obtain ⟨v, hv, hvi, hvf⟩ := run_fall (H := H) (hc.at 1 rfl) hui
      (by rw [h13, hu0]; exact hz)
    have hv8 : v.regs 8 = L.acc := by rw [hvf.regs 8 (by simp), h8]
    have hv20 : v.regs 20 = L.base := by
      rw [hvf.regs 20 (by simp), huf.regs 20 (by decide), h.base]
    have hvp : v.p = p := by rw [hvf.p, huf.p, h.p]
    obtain ⟨t, ht, hti, htf, ht8⟩ := run_mulp (H := H) (hc.at 2 rfl) hvi (by rw [hvp]; exact hp hz)
      (by rw [hv8, hv20]; exact fun hh => (hH hh).1)
    have huv : Frame [13] s v := huf.trans (hvf.mono (by simp))
    have hf : Frame [8, 13] s t := (huv.mono (by decide)).trans (htf.mono (by decide))
    refine ⟨t, ?_, hf, h.of_frame hf ?_, ?_⟩
    · rw [if_neg hz]
      exact (hu.append hv).append ht
    · rw [ht8, hvp, hv8, hv20, Loop.next, if_neg hz]
    · rw [if_neg hz, hti]

/-- One turn of the loop. It may be entered in another copy than the one its
labels lead to. -/
theorem run_turn (hc : CodeAt prog c (loopOps exit)) (hcw : CodeAt prog w (loopOps exit))
    (hl : LoopLabels s.labels exit w x) (hx : x < 2 ^ 31) (hs : s.index = c) (h : L.Holds p s)
    (hp : SafeDivisor p) (hH : H → L.Fits) :
    ∃ t, Run prog H s (turnTrace c w L.exp) t ∧ Frame [8, 13, 20, 21] s t ∧
      (L.next p).Holds p t ∧ t.index = if (L.next p).exp = 0 then x else w := by
  have hw : w < 2 ^ 31 := hcw.head.lt.trans prog.instrSize_lt
  obtain ⟨u, hu, huf, huL, hui⟩ := run_bit hc hcw hl hs h (fun _ => hp) hH
  have hd : CodeAt prog (if L.exp &&& 1 = 0 then w else c) (loopOps exit) := by
    split_ifs
    · exact hcw
    · exact hc
  obtain ⟨t, ht, htf, h20, h21, hti⟩ := run_tail (H := H) hd (by rw [huf.labels]; exact hl) hw hx
    hui huL hp fun hh => (hH hh).2
  refine ⟨t, ?_, (huf.mono (by decide)).trans (htf.mono (by decide)), ?_, hti⟩
  · have hr := hu.append ht
    unfold turnTrace
    split_ifs at hr ⊢ <;> exact hr
  · exact ⟨htf.p.trans huL.p, (htf.regs 0 (by decide)).trans huL.zero,
      (htf.regs 22 (by decide)).trans huL.one, (htf.regs 23 (by decide)).trans huL.two,
      (htf.regs 8 (by decide)).trans huL.acc, h20, h21⟩

/-- The turn that halves the exponent to zero is the last one. -/
private theorem run_last_turn (hc : CodeAt prog c (loopOps exit))
    (hcw : CodeAt prog w (loopOps exit)) (hl : LoopLabels s.labels exit w x) (hx : x < 2 ^ 31)
    (hs : s.index = c) (h : L.Holds p s) (hp : SafeDivisor p) (hz : (L.next p).exp = 0)
    (hH : H → L.Fits) (n : ℕ) :
    ∃ t, Run prog H s (loopTrace c w (n + 1) L.exp) t ∧ Frame [8, 13, 20, 21] s t ∧
      (L.run p (n + 1)).Holds p t ∧ t.index = x := by
  obtain ⟨t, ht, hf, hL, hti⟩ := run_turn hc hcw hl hx hs h hp hH
  refine ⟨t, ?_, hf, ?_, by rw [hti, if_pos hz]⟩
  · have hz' : L.exp.sdiv 2 = 0 := hz
    rw [loopTrace, if_pos hz', List.append_nil]
    exact ht
  · rw [Loop.run, if_pos hz]
    exact hL

/-- The whole loop, entered in the copy at `c`. -/
theorem run_loop {n : ℕ} (hc : CodeAt prog c (loopOps exit)) (hcw : CodeAt prog w (loopOps exit))
    (hl : LoopLabels s.labels exit w x) (hx : x < 2 ^ 31) (hs : s.index = c) (h : L.Holds p s)
    (hp : SafeDivisor p) (he : -1 ≤ L.exp.toInt) (hn : L.exp.toInt < 2 ^ (n + 1))
    (hH : H → SmallModulus p ∧ L.InField p) :
    ∃ t, Run prog H s (loopTrace c w (n + 1) L.exp) t ∧ Frame [8, 13, 20, 21] s t ∧
      (L.run p (n + 1)).Holds p t ∧ t.index = x := by
  have hfits : H → L.Fits := fun hh => (hH hh).2.fits (hH hh).1
  induction n generalizing s c L with
  | zero =>
    exact run_last_turn hc hcw hl hx hs h hp (Loop.next_exp_eq_zero he (by simpa using hn)) hfits 0
  | succ n ih =>
    by_cases hz : (L.next p).exp = 0
    · exact run_last_turn hc hcw hl hx hs h hp hz hfits (n + 1)
    obtain ⟨t, ht, hf, hL, hti⟩ := run_turn hc hcw hl hx hs h hp hfits
    have hle := Loop.next_exp_nonneg (p := p) he
    obtain ⟨u, hu, hfu, hLu, hui⟩ := ih hcw (by rw [hf.labels]; exact hl)
      (by rw [hti, if_neg hz]) hL (by omega) (Loop.next_exp_lt he hn)
      (fun hh => ⟨(hH hh).1, (hH hh).2.next (hH hh).1⟩)
      (fun hh => ((hH hh).2.next (hH hh).1).fits (hH hh).1)
    refine ⟨u, ?_, hf.trans hfu, ?_, hui⟩
    · have hz' : ¬ L.exp.sdiv 2 = 0 := hz
      rw [loopTrace, if_neg hz']
      exact ht.append hu
    · rw [Loop.run, if_neg hz]
      exact hLu

/-- The loop as the inverse routines enter it. -/
theorem run_inverse_loop (exit : String) {y : Word} (hc : CodeAt prog c (loopOps exit))
    (hcw : CodeAt prog w (loopOps exit)) (hl : LoopLabels s.labels exit w x) (hx : x < 2 ^ 31)
    (hs : s.index = c) (hp : 1 ≤ p.toInt) (h : Loop.Holds ⟨1, y, p - 2⟩ p s)
    (hH : H → SmallModulus p ∧ InField p y) :
    ∃ t, Run prog H s (loopTrace c w 63 (p - 2)) t ∧ Frame [8, 13, 20, 21] s t ∧
      t.regs 8 = (Loop.run p 63 ⟨1, y, p - 2⟩).acc ∧ t.index = x := by
  have hne : SafeDivisor p := safeDivisor_of_one_le hp
  obtain ⟨hlo, hhi⟩ := exponent_loop_bounds hp
  have hH' : H → SmallModulus p ∧ Loop.InField p ⟨1, y, p - 2⟩ := fun hh =>
    ⟨(hH hh).1, field_one (hH hh).1, (hH hh).2⟩
  obtain ⟨t, ht, hf, hL, hti⟩ := run_loop (n := 62) hc hcw hl hx hs h hne hlo hhi hH'
  exact ⟨t, ht, hf, hL.acc, hti⟩

end Run
end Fabric

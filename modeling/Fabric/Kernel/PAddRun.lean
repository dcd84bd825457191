import Fabric.Kernel.PAdd

/-! Runs of the kernel of `padd.h`, block by block and as a whole. -/
namespace Fabric.PAdd
open Lib

section Blocks
variable {prog : VPUProgram} {H : Prop} {k o j : ℕ} {i : Inputs} {s : Processor}

private theorem fits_word (x : Word) : Fits 64 x.toInt := toInt_fits (by decide) x

/-- `ldp` to `p1y`. -/
theorem run_load (hk : CodeAt prog k ops) (hs : s.index = k) :
    ∃ u, Run prog H s (List.range' k 12) u ∧ u.index = k + 12 ∧ u.sram = s.sram ∧
      u.labels = s.labels ∧ Loaded (inputs s) u ∧ u.regs 13 = s.sram 4 ||| s.sram 5 ∧
      u.regs 8 = s.sram 6 ∧ u.regs 9 = s.sram 7 := by
  have hc : CodeAt prog k loadOps := hk.slice 0 12
  have hsafe : Safe H loadOps s := by
    simp [loadOps, Safe, Op.fault, Op.Exact, Op.exactResult, fits_word]
  obtain ⟨hr, hui⟩ := run_block hc hs (by decide) hsafe
  refine ⟨runOps loadOps s, hr, hui, by simp [loadOps], runOps_labels (by decide),
    ⟨?_, ?_, ?_, ?_, ?_, ?_, ?_, ?_, ?_⟩, ?_, ?_, ?_⟩
  all_goals simp [loadOps, inputs, BinOp.eval]

/-- `orp2` to `p2y`. -/
private theorem run_second (hk : CodeAt prog k ops) (hs : s.index = k + 13) (h : Loaded i s) :
    ∃ u, Run prog H s (List.range' (k + 13) 3) u ∧ u.index = k + 16 ∧ Frame [8, 9, 13] s u ∧
      u.regs 13 = i.x2 ||| i.y2 ∧ u.regs 8 = i.x1 ∧ u.regs 9 = i.y1 := by
  have hc : CodeAt prog (k + 13) secondOps := hk.slice 13 3
  have hsafe : Safe H secondOps s := by
    simp [secondOps, Safe, Op.fault, Op.Exact, Op.exactResult, h.r0, fits_word]
  obtain ⟨hr, hui⟩ := run_block hc hs (by decide) hsafe
  refine ⟨runOps secondOps s, hr, hui, .runOps (by decide) s, ?_, ?_, ?_⟩
  all_goals simp [secondOps, BinOp.eval, h.r0, h.r1, h.r2, h.r3, h.r4]

/-- `slope1` to `slope4`, and the call of `call_multinv`. -/
private theorem run_chordArgs (hk : CodeAt prog k ops) (hs : s.index = k + 18) (h : Loaded i s)
    (hl : Linked s.labels o) (ho : CodeAt prog o ops) (hp : SafeDivisor i.p)
    (hH : H → i.Canonical) :
    ∃ u, Run prog H s (List.range' (k + 18) 5) u ∧ u.index = o + 25 ∧
      Frame [10, 13, 14, 15, 20] s u ∧ u.regs 14 = diffp i.p i.y1 i.y2 ∧
      u.regs 20 = i.chordDenom ∧ u.regs 10 = BitVec.ofNat 64 (k + 22) := by
  have hc : CodeAt prog (k + 18) chordOps := hk.slice 18 4
  have hexact : H → Exacts chordOps s := by
    intro hh
    have hi := hH hh
    have hy := hi.p.fits_sub hi.y1.within hi.y2.within
    have hx := hi.p.fits_sub hi.x1.within hi.x2.within
    have hself := within_self hi.p
    have hy' := hi.p.fits_add (within_of_reduced (subp_reduced hi.p hy)) hself
    have hx' := hi.p.fits_add (within_of_reduced (subp_reduced hi.p hx)) hself
    simp [chordOps, Exacts, h.p, h.r1, h.r2, h.r3, h.r4, h.r5, hy, hx, hy', hx']
  obtain ⟨hr, hui⟩ := run_field_block hc hs (by decide) (by rw [h.p]; exact hp) hexact
  have hf : Frame [10, 13, 14, 15, 20] s (runOps chordOps s) := .runOps (by decide) s
  have h14 : (runOps chordOps s).regs 14 = diffp i.p i.y1 i.y2 := by
    simp [chordOps, diffp, h.p, h.r2, h.r4, h.r5]
  have h20 : (runOps chordOps s).regs 20 = i.chordDenom := by
    simp [chordOps, Inputs.chordDenom, diffp, h.p, h.r1, h.r3, h.r5]
  generalize runOps chordOps s = v at hr hf hui h14 h20
  obtain ⟨u, hu, hj, hfu, h10⟩ := run_call (H := H) (hk.at 22 rfl) hui
    (by rw [hf.labels]; exact hl.multinv) ((ho.at 25 rfl).lt.trans prog.instrSize_lt)
  refine ⟨u, hr.append hu, hj, hf.trans (hfu.mono (by decide)), ?_, ?_, h10⟩
  · rw [hfu.regs 14 (by decide), h14]
  · rw [hfu.regs 20 (by decide), h20]

/-- `tan1` to `tan6`, and the call of `call_multinv`. -/
private theorem run_tangentArgs (ho : CodeAt prog o ops) (hs : s.index = o + 43)
    (h : Loaded i s) (hl : Linked s.labels o) (hp : SafeDivisor i.p) (hH : H → i.Canonical) :
    ∃ u, Run prog H s (List.range' (o + 43) 7) u ∧ u.index = o + 25 ∧
      Frame [10, 13, 14, 15, 16, 20] s u ∧ u.regs 16 = i.tangentNum ∧
      u.regs 20 = i.tangentDenom ∧ u.regs 10 = BitVec.ofNat 64 (o + 49) := by
  have hc : CodeAt prog (o + 43) tangentOps := ho.slice 43 6
  have hexact : H → Exacts tangentOps s := by
    intro hh
    have hi := hH hh
    have hsq := hi.p.fits_mul hi.x1.reduced hi.x1.reduced
    have hadd := hi.p.fits_add hi.triple.within hi.a.within
    have h3 := hi.fits_triple
    have h2 := hi.fits_double
    simpa [tangentOps, Exacts, h.p, h.r1, h.r2, h.r6] using And.intro hsq ⟨h3, hadd, h2⟩
  obtain ⟨hr, hui⟩ := run_field_block hc hs (by decide) (by rw [h.p]; exact hp) hexact
  have hf : Frame [10, 13, 14, 15, 16, 20] s (runOps tangentOps s) := .runOps (by decide) s
  have h16 : (runOps tangentOps s).regs 16 = i.tangentNum := by
    simp [tangentOps, Inputs.tangentNum, h.p, h.r1, h.r6]
  have h20 : (runOps tangentOps s).regs 20 = i.tangentDenom := by
    simp [tangentOps, Inputs.tangentDenom, h.p, h.r2]
  generalize runOps tangentOps s = v at hr hf hui h16 h20
  obtain ⟨u, hu, hj, hfu, h10⟩ := run_call (H := H) (ho.at 49 rfl) hui
    (by rw [hf.labels]; exact hl.multinv) ((ho.at 25 rfl).lt.trans prog.instrSize_lt)
  refine ⟨u, hr.append hu, hj, hf.trans (hfu.mono (by decide)), ?_, ?_, h10⟩
  · rw [hfu.regs 16 (by decide), h16]
  · rw [hfu.regs 20 (by decide), h20]

/-- `mi_two` and `mi_exp`, which leave the exponent in R21. -/
private theorem run_exponent {p : Word} (ho : CodeAt prog o ops) (hs : s.index = o + 28)
    (h5 : s.regs 5 = p) (hp : 1 ≤ p.toInt) :
    ∃ t, Run prog H s [o + 28, o + 29] t ∧ t.index = o + 30 ∧ Frame [21, 23] s t ∧
      t.regs 21 = p - 2 ∧ t.regs 23 = 2 := by
  have hc : CodeAt prog (o + 28) [.set 2 23, .bin .sub 5 23 21] := ho.slice 28 2
  have hfits : Fits 64 (p.toInt - ((2 : Word)).toInt) := by
    rw [Inputs.toInt_two, ← toInt_exponent hp]
    exact fits_word _
  have hsafe : Safe H [.set 2 23, .bin .sub 5 23 21] s := by
    refine ⟨rfl, fun _ => Op.exact_of_none rfl, rfl, fun _ => Op.exact_of_fits rfl ?_, trivial⟩
    change Fits 64 ((s.regs 5).toInt - ((2 : Word)).toInt)
    rw [h5]
    exact hfits
  obtain ⟨hr, hui⟩ := run_block hc hs (by decide) hsafe
  refine ⟨_, hr, hui, .runOps (by decide) s, ?_, ?_⟩
  · simp [BinOp.eval, h5]
  · simp

/-- `call_multinv` and `mi_one`: the result is one until the loop runs. -/
private theorem run_unit (ho : CodeAt prog o ops) (hs : s.index = o + 25) (hp : SafeDivisor s.p) :
    ∃ u, Run prog H s [o + 25, o + 26] u ∧ u.index = o + 27 ∧ Frame [8, 22] s u ∧
      u.regs 8 = 1 ∧ u.regs 22 = 1 := by
  have hc : CodeAt prog (o + 25) [.set 1 8, .set 1 22] := ho.slice 25 2
  obtain ⟨hr, hui⟩ := run_field_block (H := H) hc hs (by decide) hp (by simp [Exacts])
  exact ⟨_, hr, hui, .runOps (by decide) s, by simp, by simp⟩

/-- The subroutine up to the test of the exponent, which the argument one skips. -/
private theorem run_to_exponent {p x : Word} (ho : CodeAt prog o ops) (hs : s.index = o + 25)
    (h : Called p x j s) (hp : 1 ≤ p.toInt) (hx1 : x ≠ 1) :
    ∃ w, Run prog H s (List.range' (o + 25) 3 ++ [o + 28, o + 29]) w ∧ w.index = o + 30 ∧
      Frame [8, 21, 22, 23] s w ∧ Loop.Holds ⟨1, x, p - 2⟩ p w := by
  obtain ⟨u, hu, hui, huf, hu8, hu22⟩ := run_unit (H := H) ho hs
    (by rw [h.p]; exact safeDivisor_of_one_le hp)
  have hu20 : u.regs 20 = x := by rw [huf.regs 20 (by decide), h.arg]
  obtain ⟨v, hv, hvi, hvf⟩ := run_fall (H := H) (ho.at 27 rfl) hui (by rw [hu20, hu22]; exact hx1)
  have huv : Frame [8, 22] s v := huf.trans (hvf.mono (by simp))
  obtain ⟨w, hw, hwi, hwf, hw21, hw23⟩ := run_exponent (H := H) ho hvi
    (by rw [huv.regs 5 (by decide), h.modulus]) hp
  have hsw : Frame [8, 21, 22, 23] s w := (huv.mono (by decide)).trans (hwf.mono (by decide))
  have huw : Frame [21, 23] u w := (hvf.mono (by simp)).trans hwf
  refine ⟨w, (hu.append hv).append hw, hwi, hsw, ?_⟩
  exact ⟨by rw [hsw.p, h.p], by rw [hsw.regs 0 (by decide), h.zero],
    by rw [huw.regs 22 (by decide), hu22], hw23, by rw [huw.regs 8 (by decide), hu8],
    by rw [hsw.regs 20 (by decide), h.arg], hw21⟩

/-- The subroutine through the loop. -/
private theorem run_through_loop {p x : Word} (ho : CodeAt prog o ops) (hs : s.index = o + 25)
    (h : Called p x j s) (hl : Linked s.labels o) (hp : 1 ≤ p.toInt) (hx1 : x ≠ 1)
    (hz : p - 2 ≠ 0) (hH : H → SmallModulus p ∧ InField p x) :
    ∃ t, Run prog H s (inverseBody o p x) t ∧ t.index = o + 38 ∧
      Frame [8, 13, 20, 21, 22, 23] s t ∧ t.regs 8 = inverse p x := by
  obtain ⟨u, hu, hui, huf, huL⟩ := run_to_exponent (H := H) ho hs h hp hx1
  obtain ⟨v, hv, hvi, hvf⟩ := run_fall (H := H) (ho.at 30 rfl) hui
    (by rw [huL.exp, huL.zero]; exact hz)
  have hvL := huL.of_frame (hvf.mono (by simp)) (hvf.regs 8 (by simp))
  rw [huL.acc] at hvL
  obtain ⟨w, hw, hwf, hw8, hwi⟩ := run_inverse_loop (H := H) "mi_done" (ho.slice 31 7)
    (ho.slice 31 7) (by rw [hvf.labels, huf.labels]; exact hl.loop)
    ((ho.at 38 rfl).lt.trans prog.instrSize_lt) hvi hp hvL hH
  have huw : Frame [8, 13, 20, 21, 22, 23] u w :=
    (hvf.mono (by simp)).trans (hwf.mono (by decide))
  refine ⟨w, ?_, hwi, (huf.mono (by decide)).trans huw, ?_⟩
  · rw [inverseBody, if_neg hx1, if_neg hz]
    have hr := hu.append (hv.append hw)
    rwa [List.append_assoc] at hr
  · rw [hw8, inverse, if_neg hx1, if_neg hz]

/-- The subroutine `call_multinv`, from its entry to `mi_done`. -/
theorem run_to_ret {p x : Word} (ho : CodeAt prog o ops) (hs : s.index = o + 25)
    (h : Called p x j s) (hl : Linked s.labels o) (hp : 1 ≤ p.toInt)
    (hH : H → SmallModulus p ∧ InField p x) :
    ∃ t, Run prog H s (inverseBody o p x) t ∧ t.index = o + 38 ∧
      Frame [8, 13, 20, 21, 22, 23] s t ∧ t.regs 8 = inverse p x := by
  have hdone : o + 38 < 2 ^ 31 := (ho.at 38 rfl).lt.trans prog.instrSize_lt
  by_cases hx1 : x = 1
  · obtain ⟨u, hu, hui, huf, hu8, hu22⟩ := run_unit (H := H) ho hs
      (by rw [h.p]; exact safeDivisor_of_one_le hp)
    obtain ⟨t, ht, hti, htf⟩ := run_branch (H := H) (ho.at 27 rfl) hui
      (by rw [huf.regs 20 (by decide), h.arg, hx1, hu22])
      (by rw [huf.labels]; exact hl.loop.exit_eq) hdone
    refine ⟨t, ?_, hti, (huf.mono (by decide)).trans (htf.mono (by simp)), ?_⟩
    · rw [inverseBody, if_pos hx1]
      exact hu.append ht
    · rw [htf.regs 8 (by simp), hu8, inverse, if_pos hx1]
  by_cases hz : p - 2 = 0
  · obtain ⟨u, hu, hui, huf, huL⟩ := run_to_exponent (H := H) ho hs h hp hx1
    obtain ⟨t, ht, hti, htf⟩ := run_branch (H := H) (ho.at 30 rfl) hui
      (by rw [huL.exp, huL.zero]; exact hz)
      (by rw [huf.labels]; exact hl.loop.exit_eq) hdone
    refine ⟨t, ?_, hti, (huf.mono (by decide)).trans (htf.mono (by simp)), ?_⟩
    · rw [inverseBody, if_neg hx1, if_pos hz]
      have hr := hu.append ht
      rwa [List.append_assoc] at hr
    · rw [htf.regs 8 (by simp), huL.acc, inverse, if_neg hx1, if_pos hz]
  · exact run_through_loop ho hs h hl hp hx1 hz hH

/-- The subroutine and its return. -/
private theorem run_multinv {p x : Word} (ho : CodeAt prog o ops) (hs : s.index = o + 25)
    (h : Called p x j s) (hl : Linked s.labels o) (hp : 1 ≤ p.toInt) (hj : j < 2 ^ 31)
    (hH : H → SmallModulus p ∧ InField p x) :
    ∃ t, Run prog H s (inverseTrace o p x) t ∧ t.index = j + 1 ∧
      Frame [8, 13, 20, 21, 22, 23] s t ∧ t.regs 8 = inverse p x := by
  obtain ⟨u, hu, hui, huf, hu8⟩ := run_to_ret (H := H) ho hs h hl hp hH
  obtain ⟨t, ht, hti, htf⟩ := run_return (H := H) (ho.at 38 rfl) hui
    (by rw [huf.regs 10 (by decide), h.link]) hj
  refine ⟨t, ?_, hti, huf.trans (htf.mono (by simp)), by rw [htf.regs 8 (by simp), hu8]⟩
  rw [inverseTrace_eq]
  exact hu.append ht

/-- `chord`, after the inverse. -/
private theorem run_chordSlope (hk : CodeAt prog k ops) (ho : CodeAt prog o ops)
    (hs : s.index = k + 23) (h : Loaded i s) (hl : Linked s.labels o) (hp : SafeDivisor i.p)
    (h14 : s.regs 14 = diffp i.p i.y1 i.y2) (h8 : s.regs 8 = inverse i.p i.chordDenom)
    (hH : H → i.Canonical) :
    ∃ t, Run prog H s [k + 23, k + 24] t ∧ t.index = o + 51 ∧ Frame [7] s t ∧
      t.regs 7 = i.chordSlope := by
  have hfits : H → Fits 64 ((s.regs 14).toInt * (s.regs 8).toInt) := by
    intro hh
    have hi := hH hh
    obtain ⟨P, hP⟩ := Int.eq_ofNat_of_zero_le hi.p.pos.le
    rw [h14, h8]
    exact hi.p.fits_mul (diffp_field hi.p hi.y1 hi.y2).reduced
      (inverse_spec hP hi.p hi.chordDenom).1.reduced
  obtain ⟨u, hu, hui, huf, h7⟩ := run_mulp (hk.at 23 rfl) hs (by rw [h.p]; exact hp) hfits
  have h0 := h.frame huf (by decide)
  obtain ⟨t, ht, hti, htf⟩ := run_branch (H := H) (hk.at 24 rfl) hui rfl
    (by rw [huf.labels]; exact hl.intersect) ((ho.at 51 rfl).lt.trans prog.instrSize_lt)
  refine ⟨t, hu.append ht, hti, huf.trans (htf.mono (by simp)), ?_⟩
  rw [htf.regs 7 (by simp), h7, h.p, h14, h8]
  rfl

/-- `tan7`. -/
private theorem run_tangentSlope (ho : CodeAt prog o ops) (hs : s.index = o + 50)
    (h : Loaded i s) (hp : SafeDivisor i.p) (h16 : s.regs 16 = i.tangentNum)
    (h8 : s.regs 8 = inverse i.p i.tangentDenom) (hH : H → i.Canonical) :
    ∃ t, Run prog H s [o + 50] t ∧ t.index = o + 51 ∧ Frame [7] s t ∧
      t.regs 7 = i.tangentSlope := by
  have hfits : H → Fits 64 ((s.regs 16).toInt * (s.regs 8).toInt) := by
    intro hh
    have hi := hH hh
    obtain ⟨P, hP⟩ := Int.eq_ofNat_of_zero_le hi.p.pos.le
    rw [h16, h8]
    exact hi.p.fits_mul hi.tangentNum.reduced (inverse_spec hP hi.p hi.tangentDenom).1.reduced
  obtain ⟨u, hu, hui, huf, h7⟩ := run_mulp (ho.at 50 rfl) hs (by rw [h.p]; exact hp) hfits
  refine ⟨u, hu, hui, huf, ?_⟩
  rw [h7, h.p, h16, h8]
  rfl

/-- `intersect` to `y3`. -/
private theorem run_intersect {m : Word} (ho : CodeAt prog o ops) (hs : s.index = o + 51)
    (h : Loaded i s) (hp : SafeDivisor i.p) (h7 : s.regs 7 = m) (hH : H → (i.line m).Canonical) :
    ∃ t, Run prog H s (List.range' (o + 51) 12) t ∧ t.index = o + 63 ∧ t.sram = s.sram ∧
      t.regs 8 = (i.line m).x3 ∧ t.regs 9 = (i.line m).y3 := by
  have hc : CodeAt prog (o + 51) intersectOps := ho.slice 51 12
  have hexact : H → Exacts intersectOps s := by
    intro hh
    have hl := hH hh
    have hself := within_self hl.p
    have hmx := hl.m.mulp hl.p hl.x1
    have hmm := hl.m.mulp hl.p hl.m
    have hx1 := subp_self_field hl.p hl.x1.within
    have hx2 := subp_self_field hl.p hl.x2.within
    have hmx3 := hl.m.mulp hl.p hl.x3
    have f1 := hl.p.fits_mul hl.m.reduced hl.x1.reduced
    have f2 := hl.p.fits_add hl.y1.within hself
    have f3 := hl.p.fits_sub hl.lift.within hmx.within
    have f4 := hl.p.fits_mul hl.m.reduced hl.m.reduced
    have f5 := hl.p.fits_sub hself hl.x1.within
    have f6 := hl.p.fits_sub hself hl.x2.within
    have f7 := hl.p.fits_add hx1.within hx2.within
    have f8 := hl.p.fits_add hmm.within (hx1.addp hl.p hx2).within
    have f9 := hl.p.fits_mul hl.m.reduced hl.x3.reduced
    have f10 := hl.p.fits_sub hself hmx3.within
    have f11 := hl.p.fits_sub hself (within_of_reduced hl.intercept)
    have f12 := hl.p.fits_add (subp_self_field hl.p hmx3.within).within
      (subp_self_field hl.p (within_of_reduced hl.intercept)).within
    simp only [intersectOps, Exacts, exact_mulp, exact_addp, exact_subp, apply_mulp_regs,
      apply_addp_regs, apply_subp_regs, apply_prime_p, h.p, h.r1, h.r2, h.r3, h.r5, h7,
      Fin.reduceEq, if_true, if_false]
    exact ⟨f1, f2, f3, f4, f5, f6, f7, f8, f9, f10, f11, f12, trivial⟩
  obtain ⟨hr, hti⟩ := run_field_block hc hs (by decide) (by rw [h.p]; exact hp) hexact
  refine ⟨_, hr, hti, runOps_sram (by decide), ?_, ?_⟩
  · simp [intersectOps, Inputs.line, Line.x3, h.p, h.r1, h.r3, h.r5, h7]
  · simp [intersectOps, Inputs.line, Line.y3, Line.x3, Line.intercept, h.p, h.r1, h.r2, h.r3,
      h.r5, h7]

/-- `done`. -/
theorem run_stores (ho : CodeAt prog o ops) (hs : s.index = o + 63) {x y : Word}
    (hx : s.regs 8 = x) (hy : s.regs 9 = y) :
    ∃ t, Run prog H s [o + 63, o + 64] t ∧ t.index = o + 65 ∧
      t.sram = Function.update (Function.update s.sram 10 x) 11 y := by
  obtain ⟨u, hu, hui, hur, husram⟩ := run_st (H := H) (ho.at 63 rfl) hs
  obtain ⟨t, ht, hti, -, htsram⟩ := run_st (H := H) (ho.at 64 rfl) hui
  refine ⟨t, hu.append ht, hti, ?_⟩
  rw [htsram, husram, hur, hx, hy]

/-- `chord`, from the comparison of the abscissas to the end of the intersection. -/
private theorem run_chord (hk : CodeAt prog k ops) (ho : CodeAt prog o ops)
    (hs : s.index = k + 18) (h : Loaded i s) (hl : Linked s.labels o) (hp : 1 ≤ i.p.toInt)
    (hH : H → i.Canonical) :
    ∃ t, Run prog H s (List.range' (k + 18) 5 ++ inverseTrace o i.p i.chordDenom ++
        [k + 23, k + 24] ++ List.range' (o + 51) 12) t ∧ t.index = o + 63 ∧ t.sram = s.sram ∧
      t.regs 8 = (i.line i.chordSlope).x3 ∧ t.regs 9 = (i.line i.chordSlope).y3 := by
  have hdiv : SafeDivisor i.p := safeDivisor_of_one_le hp
  obtain ⟨u, hu, hui, huf, hu14, hu20, hu10⟩ := run_chordArgs hk hs h hl ho hdiv hH
  obtain ⟨v, hv, hvi, hvf, hv8⟩ := run_multinv (H := H) ho hui
    ((h.frame huf (by decide)).called hu20 hu10) (by rw [huf.labels]; exact hl) hp
    ((hk.at 22 rfl).lt.trans prog.instrSize_lt) fun hh => ⟨(hH hh).p, (hH hh).chordDenom⟩
  have hsv : Frame [8, 10, 13, 14, 15, 20, 21, 22, 23] s v :=
    (huf.mono (by decide)).trans (hvf.mono (by decide))
  obtain ⟨w, hw, hwi, hwf, hw7⟩ := run_chordSlope (H := H) hk ho hvi (h.frame hsv (by decide))
    (by rw [hsv.labels]; exact hl) hdiv (by rw [hvf.regs 14 (by decide), hu14]) hv8 hH
  have hsw : Frame [7, 8, 10, 13, 14, 15, 20, 21, 22, 23] s w :=
    (hsv.mono (by decide)).trans (hwf.mono (by decide))
  obtain ⟨t, ht, hti, htsram, ht8, ht9⟩ := run_intersect (H := H) ho hwi
    (h.frame hsw (by decide)) hdiv hw7 fun hh => by
      have hi := hH hh
      obtain ⟨P, hP⟩ := Int.eq_ofNat_of_zero_le hi.p.pos.le
      exact hi.line (hi.chordSlope hP)
  exact ⟨t, ((hu.append hv).append hw).append ht, hti, by rw [htsram, hsw.sram], ht8, ht9⟩

/-- `ysame` to the end of the intersection. -/
private theorem run_tangent (ho : CodeAt prog o ops)
    (hs : s.index = o + 43) (h : Loaded i s) (hl : Linked s.labels o) (hp : 1 ≤ i.p.toInt)
    (hH : H → i.Canonical) :
    ∃ t, Run prog H s (List.range' (o + 43) 7 ++ inverseTrace o i.p i.tangentDenom ++
        List.range' (o + 50) 13) t ∧ t.index = o + 63 ∧ t.sram = s.sram ∧
      t.regs 8 = (i.line i.tangentSlope).x3 ∧ t.regs 9 = (i.line i.tangentSlope).y3 := by
  have hdiv : SafeDivisor i.p := safeDivisor_of_one_le hp
  obtain ⟨u, hu, hui, huf, hu16, hu20, hu10⟩ := run_tangentArgs ho hs h hl hdiv hH
  obtain ⟨v, hv, hvi, hvf, hv8⟩ := run_multinv (H := H) ho hui
    ((h.frame huf (by decide)).called hu20 hu10) (by rw [huf.labels]; exact hl) hp
    ((ho.at 49 rfl).lt.trans prog.instrSize_lt) fun hh => ⟨(hH hh).p, (hH hh).tangentDenom⟩
  have hsv : Frame [8, 10, 13, 14, 15, 16, 20, 21, 22, 23] s v :=
    (huf.mono (by decide)).trans (hvf.mono (by decide))
  obtain ⟨w, hw, hwi, hwf, hw7⟩ := run_tangentSlope (H := H) ho hvi (h.frame hsv (by decide))
    hdiv (by rw [hvf.regs 16 (by decide), hu16]) hv8 hH
  have hsw : Frame [7, 8, 10, 13, 14, 15, 16, 20, 21, 22, 23] s w :=
    (hsv.mono (by decide)).trans (hwf.mono (by decide))
  obtain ⟨t, ht, hti, htsram, ht8, ht9⟩ := run_intersect (H := H) ho hwi
    (h.frame hsw (by decide)) hdiv hw7 fun hh => by
      have hi := hH hh
      obtain ⟨P, hP⟩ := Int.eq_ofNat_of_zero_le hi.p.pos.le
      exact hi.line (hi.tangentSlope hP)
  exact ⟨t, (hu.append hv).append (hw.append ht), hti, by rw [htsram, hsw.sram], ht8, ht9⟩

/-- `xsame`, for opposite points: the result is `(P, zero)`. -/
private theorem run_opposite (ho : CodeAt prog o ops) (hs : s.index = o + 40) (h : Loaded i s)
    (hl : Linked s.labels o) :
    ∃ t, Run prog H s (List.range' (o + 40) 3) t ∧ t.index = o + 63 ∧ t.sram = s.sram ∧
      t.regs 8 = i.p ∧ t.regs 9 = i.z := by
  have hc : CodeAt prog (o + 40) [.bin .or 5 5 8, .bin .or 12 12 9] := ho.slice 40 2
  obtain ⟨hr, hui⟩ := run_block (H := H) hc hs (by decide)
    (by simp [Safe, Op.fault, Op.Exact, Op.exactResult])
  have hf : Frame [8, 9] s (runOps [.bin .or 5 5 8, .bin .or 12 12 9] s) := .runOps (by decide) s
  have h8 : (runOps [.bin .or 5 5 8, .bin .or 12 12 9] s).regs 8 = i.p := by
    simp [BinOp.eval, h.r5]
  have h9 : (runOps [.bin .or 5 5 8, .bin .or 12 12 9] s).regs 9 = i.z := by
    simp [BinOp.eval, h.r12]
  obtain ⟨t, ht, hti, htf⟩ := run_branch (H := H) (ho.at 42 rfl) hui rfl
    (by rw [hf.labels]; exact hl.done) ((ho.at 63 rfl).lt.trans prog.instrSize_lt)
  exact ⟨t, hr.append ht, hti, by rw [htf.sram, hf.sram], by rw [htf.regs 8 (by simp), h8],
    by rw [htf.regs 9 (by simp), h9]⟩

/-- `xsame` to `done`. -/
private theorem run_same (ho : CodeAt prog o ops) (hs : s.index = o + 39) (h : Loaded i s)
    (hl : Linked s.labels o) (hp : i.y1 = i.y2 → 1 ≤ i.p.toInt) (hH : H → i.Canonical)
    (h1 : ¬ i.firstZero) (h2 : ¬ i.secondZero) (hx : i.x1 = i.x2) :
    ∃ t, Run prog H s ([o + 39] ++ if i.y1 = i.y2 then
          List.range' (o + 43) 7 ++ inverseTrace o i.p i.tangentDenom ++ List.range' (o + 50) 13
        else List.range' (o + 40) 3) t ∧ t.index = o + 63 ∧ t.sram = s.sram ∧
      t.regs 8 = i.sum.1 ∧ t.regs 9 = i.sum.2 := by
  by_cases hy : i.y1 = i.y2
  · obtain ⟨u, hu, hui, huf⟩ := run_branch (H := H) (ho.at 39 rfl) hs (by rw [h.r2, h.r4, hy])
      hl.ysame ((ho.at 43 rfl).lt.trans prog.instrSize_lt)
    obtain ⟨t, ht, hti, htsram, ht8, ht9⟩ := run_tangent (H := H) ho hui
      (h.frame huf (by simp)) (by rw [huf.labels]; exact hl) (hp hy) hH
    rw [if_pos hy, Inputs.sum_tangent h1 h2 hx hy]
    exact ⟨t, hu.append ht, hti, by rw [htsram, huf.sram], ht8, ht9⟩
  · obtain ⟨u, hu, hui, huf⟩ := run_fall (H := H) (ho.at 39 rfl) hs
      (by rw [h.r2, h.r4]; exact hy)
    obtain ⟨t, ht, hti, htsram, ht8, ht9⟩ := run_opposite (H := H) ho hui
      (h.frame huf (by simp)) (by rw [huf.labels]; exact hl)
    rw [if_neg hy, Inputs.sum_opposite h1 h2 hx hy]
    exact ⟨t, hu.append ht, hti, by rw [htsram, huf.sram], ht8, ht9⟩

/-- From the comparison of the abscissas to `done`, for two finite points. -/
private theorem run_finite (hk : CodeAt prog k ops) (ho : CodeAt prog o ops)
    (hs : s.index = k + 17) (h : Loaded i s) (hl : Linked s.labels o)
    (hp : (i.x1 = i.x2 → i.y1 = i.y2) → 1 ≤ i.p.toInt) (hH : H → i.Canonical)
    (h1 : ¬ i.firstZero) (h2 : ¬ i.secondZero) :
    ∃ t, Run prog H s ([k + 17] ++ if i.x1 = i.x2 then
          [o + 39] ++ if i.y1 = i.y2 then
            List.range' (o + 43) 7 ++ inverseTrace o i.p i.tangentDenom ++ List.range' (o + 50) 13
          else List.range' (o + 40) 3
        else
          List.range' (k + 18) 5 ++ inverseTrace o i.p i.chordDenom ++ [k + 23, k + 24] ++
            List.range' (o + 51) 12) t ∧ t.index = o + 63 ∧ t.sram = s.sram ∧
      t.regs 8 = i.sum.1 ∧ t.regs 9 = i.sum.2 := by
  by_cases hx : i.x1 = i.x2
  · obtain ⟨u, hu, hui, huf⟩ := run_branch (H := H) (hk.at 17 rfl) hs (by rw [h.r1, h.r3, hx])
      hl.xsame ((ho.at 39 rfl).lt.trans prog.instrSize_lt)
    obtain ⟨t, ht, hti, htsram, hout⟩ := run_same (H := H) ho hui (h.frame huf (by simp))
      (by rw [huf.labels]; exact hl) (fun hy => hp fun _ => hy) hH h1 h2 hx
    rw [if_pos hx]
    exact ⟨t, hu.append ht, hti, by rw [htsram, huf.sram], hout⟩
  · obtain ⟨u, hu, hui, huf⟩ := run_fall (H := H) (hk.at 17 rfl) hs
      (by rw [h.r1, h.r3]; exact hx)
    obtain ⟨t, ht, hti, htsram, ht8, ht9⟩ := run_chord (H := H) hk ho hui
      (h.frame huf (by simp)) (by rw [huf.labels]; exact hl) (hp fun h => absurd h hx) hH
    rw [if_neg hx, Inputs.sum_chord h1 h2 hx]
    exact ⟨t, hu.append ht, hti, by rw [htsram, huf.sram], ht8, ht9⟩

/-- From the entry to the second zero check, if the first point is finite. -/
private theorem run_to_second (hk : CodeAt prog k ops) (hs : s.index = k)
    (h1 : ¬ (inputs s).firstZero) :
    ∃ u, Run prog H s (List.range' k 13 ++ List.range' (k + 13) 3) u ∧ u.index = k + 16 ∧
      u.sram = s.sram ∧ u.labels = s.labels ∧ Loaded (inputs s) u ∧
      u.regs 13 = s.sram 6 ||| s.sram 7 ∧ u.regs 8 = s.sram 4 ∧ u.regs 9 = s.sram 5 := by
  obtain ⟨u, hu, hui, husram, hul, hload, hu13, -, -⟩ := run_load (H := H) hk hs
  obtain ⟨v, hv, hvi, hvf⟩ := run_fall (H := H) (hk.at 12 rfl) hui
    (by rw [hu13, hload.r12]; exact h1)
  obtain ⟨w, hw, hwi, hwf, hw13, hw8, hw9⟩ := run_second (H := H) hk hvi
    (hload.frame hvf (by simp))
  have huw : Frame [8, 9, 13] u w := (hvf.mono (by simp)).trans hwf
  exact ⟨w, (hu.append hv).append hw, hwi, by rw [huw.sram, husram], by rw [huw.labels, hul],
    hload.frame huw (by decide), hw13, hw8, hw9⟩

/-- From the entry to the comparison of the abscissas, if both points are finite. -/
theorem run_to_compare (hk : CodeAt prog k ops) (hs : s.index = k)
    (h1 : ¬ (inputs s).firstZero) (h2 : ¬ (inputs s).secondZero) :
    ∃ u, Run prog H s (List.range' k 13 ++ List.range' (k + 13) 4) u ∧ u.index = k + 17 ∧
      u.sram = s.sram ∧ u.labels = s.labels ∧ Loaded (inputs s) u := by
  obtain ⟨u, hu, hui, husram, hul, hload, hu13, -, -⟩ := run_to_second (H := H) hk hs h1
  obtain ⟨v, hv, hvi, hvf⟩ := run_fall (H := H) (hk.at 16 rfl) hui
    (by rw [hu13, hload.r12]; exact h2)
  refine ⟨v, ?_, hvi, by rw [hvf.sram, husram], by rw [hvf.labels, hul],
    hload.frame hvf (by simp)⟩
  have hr := hu.append hv
  rwa [List.append_assoc] at hr

/-- From the entry to `done`, which a point at infinity reaches directly. -/
private theorem run_body (hk : CodeAt prog k ops) (ho : CodeAt prog o ops)
    (hl : Linked s.labels o) (hs : s.index = k)
    (hp : (inputs s).Computes → 1 ≤ (s.sram 0).toInt) (hH : H → (inputs s).Canonical) :
    ∃ t, Run prog H s (bodyTrace k o (inputs s)) t ∧ t.index = o + 63 ∧ t.sram = s.sram ∧
      t.regs 8 = (inputs s).sum.1 ∧ t.regs 9 = (inputs s).sum.2 := by
  have hdone : o + 63 < 2 ^ 31 := (ho.at 63 rfl).lt.trans prog.instrSize_lt
  by_cases h1 : (inputs s).firstZero
  · obtain ⟨u, hu, hui, husram, hul, hload, hu13, hu8, hu9⟩ := run_load (H := H) hk hs
    obtain ⟨t, ht, hti, htf⟩ := run_branch (H := H) (hk.at 12 rfl) hui
      (by rw [hu13, hload.r12]; exact h1) (by rw [hul]; exact hl.done) hdone
    rw [bodyTrace, if_pos h1, Inputs.sum_first h1]
    exact ⟨t, hu.append ht, hti, by rw [htf.sram, husram], (htf.regs 8 (by simp)).trans hu8,
      (htf.regs 9 (by simp)).trans hu9⟩
  by_cases h2 : (inputs s).secondZero
  · obtain ⟨u, hu, hui, husram, hul, hload, hu13, hu8, hu9⟩ := run_to_second (H := H) hk hs h1
    obtain ⟨t, ht, hti, htf⟩ := run_branch (H := H) (hk.at 16 rfl) hui
      (by rw [hu13, hload.r12]; exact h2) (by rw [hul]; exact hl.done) hdone
    rw [bodyTrace, if_neg h1, if_pos h2, Inputs.sum_second h1 h2]
    refine ⟨t, ?_, hti, by rw [htf.sram, husram], (htf.regs 8 (by simp)).trans hu8,
      (htf.regs 9 (by simp)).trans hu9⟩
    have hr := hu.append ht
    rwa [List.append_assoc] at hr
  obtain ⟨u, hu, hui, husram, hul, hload⟩ := run_to_compare (H := H) hk hs h1 h2
  obtain ⟨t, ht, hti, htsram, ht8, ht9⟩ := run_finite (H := H) hk ho hui hload
    (by rw [hul]; exact hl) (fun h => hp ⟨h1, h2, h⟩) hH h1 h2
  refine ⟨t, ?_, hti, by rw [htsram, husram], ht8, ht9⟩
  rw [bodyTrace, if_neg h1, if_neg h2]
  have hr := hu.append ht
  rwa [List.append_assoc] at hr

/-- From the entry to the tangent, for equal finite points. -/
theorem run_to_tangent (hk : CodeAt prog k ops) (ho : CodeAt prog o ops) (hl : Linked s.labels o)
    (hs : s.index = k) (h1 : ¬ (inputs s).firstZero) (h2 : ¬ (inputs s).secondZero)
    (hx : s.sram 4 = s.sram 6) (hy : s.sram 5 = s.sram 7) :
    ∃ tr u, Run prog H s tr u ∧ u.index = o + 43 ∧ Loaded (inputs s) u := by
  obtain ⟨u, hu, hui, -, hul, hload⟩ := run_to_compare (H := H) hk hs h1 h2
  obtain ⟨v, hv, hvi, hvf⟩ := run_branch (H := H) (hk.at 17 rfl) hui
    (by rw [hload.r1, hload.r3]; exact hx) (by rw [hul]; exact hl.xsame)
    ((ho.at 39 rfl).lt.trans prog.instrSize_lt)
  have hlv := hload.frame hvf (by simp)
  obtain ⟨w, hw, hwi, hwf⟩ := run_branch (H := H) (ho.at 39 rfl) hvi
    (by rw [hlv.r2, hlv.r4]; exact hy) (by rw [hvf.labels, hul]; exact hl.ysame)
    ((ho.at 43 rfl).lt.trans prog.instrSize_lt)
  exact ⟨_, w, (hu.append hv).append hw, hwi, hlv.frame hwf (by simp)⟩

end Blocks

section Run
variable {prog : VPUProgram} {H : Prop} {k o : ℕ} {s : Processor}

/-- The kernel entered in the copy at `k` of a program whose labels lead to the
copy at `o` stores the sum and runs off the end of the latter. The modulus matters
only if the sum takes arithmetic. -/
theorem run_computes (hk : CodeAt prog k ops) (ho : CodeAt prog o ops) (hl : Linked s.labels o)
    (hs : s.index = k) (hp : (inputs s).Computes → 1 ≤ (s.sram 0).toInt)
    (hH : H → (inputs s).Canonical) :
    ∃ t, Run prog H s (trace k o (inputs s)) t ∧
      t.sram = Function.update (Function.update s.sram 10 (inputs s).sum.1) 11 (inputs s).sum.2 ∧
      t.index = o + 65 := by
  obtain ⟨u, hu, hui, husram, hu8, hu9⟩ := run_body (H := H) hk ho hl hs hp hH
  obtain ⟨t, ht, hti, htsram⟩ := run_stores (H := H) ho hui hu8 hu9
  exact ⟨t, hu.append ht, by rw [htsram, husram], hti⟩

theorem run (hk : CodeAt prog k ops) (ho : CodeAt prog o ops) (hl : Linked s.labels o)
    (hs : s.index = k) (hp : 1 ≤ (s.sram 0).toInt) (hH : H → (inputs s).Canonical) :
    ∃ t, Run prog H s (trace k o (inputs s)) t ∧
      t.sram = Function.update (Function.update s.sram 10 (inputs s).sum.1) 11 (inputs s).sum.2 ∧
      t.index = o + 65 :=
  run_computes hk ho hl hs (fun _ => hp) hH

/-- The kernel alone in its program. -/
theorem run_program (s : Processor) (hp : 1 ≤ (s.sram 0).toInt) (hH : H → (inputs s).Canonical) :
    ∃ t, Run program H (start program s) (trace 0 0 (inputs s)) t ∧
      t.sram = Function.update (Function.update s.sram 10 (inputs s).sum.1) 11 (inputs s).sum.2 ∧
      (machine program).running t = false := by
  obtain ⟨t, ht, hsram, hti⟩ := run (H := H) (s := start program s) codeAt_program codeAt_program
    (linked_of_append [] s.labels) rfl hp hH
  exact ⟨t, ht, hsram, machine_halted.mpr (by rw [hti]; decide)⟩

theorem executes (s : Processor) (hp : 1 ≤ (s.sram 0).toInt) :
    ∃ t, Executes program s (trace 0 0 (inputs s)) t ∧
      t.sram =
        Function.update (Function.update s.sram 10 (inputs s).sum.1) 11 (inputs s).sum.2 := by
  obtain ⟨t, ht, hsram, hhalt⟩ := run_program (H := False) s hp nofun
  exact ⟨t, ⟨ht.weaken fun _ _ => trivial, hhalt⟩, hsram⟩

end Run
end Fabric.PAdd

import Fabric.FieldProgram
import Fabric.Footprint

/-! Field programs with branches, and a machine on `ℤ/P` that they follow while their
branches do not tell two representatives of one element apart. -/
namespace Fabric
open Lib
open Lib.Machine (Alike)

/-- A state of the field machine. -/
structure FieldState (P : ℕ) where
  pc : BitVec 32
  values : Values (ZMod P)

namespace FieldState
variable {P : ℕ}

def ofProcessor (P : ℕ) (s : Processor) : FieldState P := ⟨s.pc, s.residues P⟩

/-- A branch compares elements; field operations go on. -/
def exec (prog : VPUProgram) (f : FieldState P) : Op → FieldState P
  | .beq x y l =>
    { f with pc := if f.values.regs x = f.values.regs y then prog.target l else f.pc + 1 }
  | o => ⟨f.pc + 1, o.evalIn f.values⟩

def step (prog : VPUProgram) (f : FieldState P) : Except Fault (FieldState P) :=
  match prog.instr[f.pc.toNat]? with
  | none => .error .noInstruction
  | some i => i.decode.map (f.exec prog)

def machine (P : ℕ) (prog : VPUProgram) : Lib.Machine (FieldState P) Fault where
  running f := decide (f.pc.toNat < prog.instrSize)
  step := step prog

end FieldState

/-- Field operations whose constants lie in `(-p, p)`, and branches. -/
def FieldBranching (p : Word) (prog : VPUProgram) : Prop :=
  ∀ i ∈ prog.instr, ∃ o, i.decode = .ok o ∧
    (o.isField = true ∧ o.ConstReduced p ∨ ∃ x y l, o = .beq x y l)

/-- The words represent the elements, and both are about to execute the same instruction. -/
structure Represents (P : ℕ) (s : Processor) (f : FieldState P) : Prop where
  pc : s.pc = f.pc
  values : s.residues P = f.values

/-- The branch about to execute takes two representatives of one element for different ones,
and does not lead to the next instruction anyway. -/
def Misjudges (prog : VPUProgram) (s : Processor) : Prop :=
  ∃ x y l, OpAt prog s.index (.beq x y l) ∧
    |(s.regs x).toInt - (s.regs y).toInt| = s.p.toInt ∧ prog.target l ≠ s.pc + 1

section Step
variable {P : ℕ} {prog : VPUProgram} {i : VPUInstruction} {o : Op} {x y : Reg} {l : String}
  {s u v : Processor} {f : FieldState P}

/-- Reduced words of one element are equal or differ by the modulus. -/
theorem res_eq_iff {a b : ℤ} (ha : Reduced P a) (hb : Reduced P b) :
    (a : ZMod P) = b ↔ a = b ∨ |a - b| = P := by
  have hP : (0 : ℤ) < P := by
    obtain ⟨h0, h1⟩ := ha
    omega
  rw [ZMod.intCast_eq_intCast_iff_dvd_sub]
  constructor
  · rintro ⟨k, hk⟩
    obtain ⟨ha0, ha1⟩ := ha
    obtain ⟨hb0, hb1⟩ := hb
    have hk0 : -2 < k := by
      by_contra hle
      have hmul := mul_le_mul_of_nonneg_left (not_lt.mp hle) hP.le
      omega
    have hk1 : k < 2 := by
      by_contra hle
      have hmul := mul_le_mul_of_nonneg_left (not_lt.mp hle) hP.le
      omega
    obtain rfl | rfl | rfl : k = -1 ∨ k = 0 ∨ k = 1 := by omega
    · exact Or.inr (by rw [show a - b = P by omega, abs_of_pos hP])
    · exact Or.inl (by omega)
    · exact Or.inr (by rw [show a - b = -P by omega, abs_neg, abs_of_pos hP])
  · rintro (rfl | h)
    · exact ⟨0, by omega⟩
    · rcases abs_choice (a - b) with hc | hc
      · exact ⟨-1, by omega⟩
      · exact ⟨1, by omega⟩

/-- A decoded branch names its label. -/
theorem reference_of_decode_beq (h : i.decode = .ok (.beq x y l)) : i.reference = some l := by
  unfold VPUInstruction.decode at h
  cases hop : i.op <;> rw [hop] at h
  case beq =>
    obtain ⟨x', hx, h⟩ := bind_eq_ok.mp h
    obtain ⟨y', hy, h⟩ := bind_eq_ok.mp h
    obtain ⟨z, hz, h⟩ := bind_eq_ok.mp h
    cases h
    exact reference_of_beq hop hz
  all_goals
    simp [VPUInstruction.decodeBin, VPUInstruction.decodePrime, bind_eq_ok] at h

theorem exec_of_isField (h : o.isField = true) (f : FieldState P) :
    f.exec prog o = ⟨f.pc + 1, o.evalIn f.values⟩ := by
  cases o
  case beq => cases h
  all_goals rfl

theorem fieldStep_eq (hi : prog.instr[f.pc.toNat]? = some i) (hd : i.decode = .ok o) :
    FieldState.step prog f = .ok (f.exec prog o) := by
  simp only [FieldState.step, hi, hd]
  rfl

/-- A field operation. -/
theorem Represents.field (h : Represents P s f) (ho : o.isField = true) (hp : SmallModulus s.p)
    (hP : s.p.toInt = P) (hs : s.AllReduced) : Represents P (o.apply s) (f.exec prog o) := by
  rw [exec_of_isField ho]
  refine ⟨?_, ?_⟩
  · have hpc : (o.apply s).pc = s.pc + 1 := by
      cases o
      case set | ld | st | prime => rfl
      all_goals cases ho
    rw [hpc, h.pc]
  · rw [Op.residues_apply ho hP (Op.exact_of_reduced ho hp hs), h.values]

theorem apply_beq_of_eq (h : s.regs x = s.regs y) : (Op.beq x y l).apply s = s.jump l := if_pos h

theorem apply_beq_of_ne (h : s.regs x ≠ s.regs y) : (Op.beq x y l).apply s = s.next := if_neg h

/-- A branch changes nothing but the program counter and the table. -/
theorem apply_beq_same (x y : Reg) (l : String) (s : Processor) :
    ((Op.beq x y l).apply s).regs = s.regs ∧ ((Op.beq x y l).apply s).sram = s.sram ∧
      ((Op.beq x y l).apply s).p = s.p := by
  by_cases h : s.regs x = s.regs y
  · obtain ⟨hsram, hregs, hp, -⟩ := s.labelAt_same l
    rw [apply_beq_of_eq h]
    exact ⟨hregs.symm, hsram.symm, hp.symm⟩
  · rw [apply_beq_of_ne h]
    exact ⟨rfl, rfl, rfl⟩

theorem res_regs_eq_iff (hP : s.p.toInt = P) (hs : s.AllReduced) (x y : Reg) :
    res P (s.regs x) = res P (s.regs y) ↔
      s.regs x = s.regs y ∨ |(s.regs x).toInt - (s.regs y).toInt| = s.p.toInt := by
  have hx := hs.regs x
  have hy := hs.regs y
  rw [hP] at hx hy ⊢
  rw [res, res, res_eq_iff hx hy, BitVec.toInt_inj]

/-- A branch goes where the field machine goes, unless it misjudges its operands. -/
theorem represents_beq_iff (h : Represents P s f) (hP : s.p.toInt = P) (hs : s.AllReduced)
    (ht : s.target l = prog.target l) :
    Represents P ((Op.beq x y l).apply s) (f.exec prog (.beq x y l)) ↔
      ¬ (|(s.regs x).toInt - (s.regs y).toInt| = s.p.toInt ∧ prog.target l ≠ s.pc + 1) := by
  obtain ⟨hregs, hsram, -⟩ := apply_beq_same x y l s
  have hvalues : ((Op.beq x y l).apply s).residues P = f.values := by
    rw [← h.values]
    simp only [Processor.residues, hregs, hsram]
  have hiff : Represents P ((Op.beq x y l).apply s) (f.exec prog (.beq x y l)) ↔
      ((Op.beq x y l).apply s).pc =
        if res P (s.regs x) = res P (s.regs y) then prog.target l else s.pc + 1 := by
    have hpc : (f.exec prog (.beq x y l)).pc =
        if res P (s.regs x) = res P (s.regs y) then prog.target l else s.pc + 1 := by
      rw [h.pc]
      change (if f.values.regs x = f.values.regs y then _ else _) = _
      rw [← h.values]
      rfl
    rw [← hpc]
    exact ⟨fun hr => hr.pc, fun hpc => ⟨hpc, hvalues⟩⟩
  rw [hiff]
  have hres := res_regs_eq_iff hP hs x y
  by_cases hxy : s.regs x = s.regs y
  · have hjump : (s.jump l).pc = prog.target l := (s.labelAt_fst l).trans ht
    rw [apply_beq_of_eq hxy, if_pos (hres.mpr (Or.inl hxy)), hjump]
    refine iff_of_true rfl fun hmis => ?_
    have hpos : 0 < s.p.toInt := by
      obtain ⟨h0, h1⟩ := hs.regs x
      omega
    rw [hxy, sub_self, abs_zero] at hmis
    omega
  · rw [apply_beq_of_ne hxy]
    change s.pc + 1 = _ ↔ _
    by_cases hd : |(s.regs x).toInt - (s.regs y).toInt| = s.p.toInt
    · rw [if_pos (hres.mpr (Or.inr hd))]
      exact ⟨fun heq hmis => hmis.2 heq.symm, fun hmis => by
        by_contra hne
        exact hmis ⟨hd, fun heq => hne heq.symm⟩⟩
    · rw [if_neg fun heq => (hres.mp heq).elim hxy hd]
      exact iff_of_true rfl fun hmis => hd hmis.1

theorem apply_beq_reduced (hs : s.AllReduced) : ((Op.beq x y l).apply s).AllReduced := by
  obtain ⟨hregs, hsram, hp⟩ := apply_beq_same x y l s
  exact ⟨fun r => by rw [hregs, hp]; exact hs.regs r, fun a => by rw [hsram, hp]; exact hs.sram a⟩

/-- The words of `u` are reduced modulo `p` and represent the elements of `f`. -/
structure FieldRel (P : ℕ) (p : Word) (u : Processor) (f : FieldState P) : Prop where
  represents : Represents P u f
  reduced : u.AllReduced
  p : u.p = p

/-- A step of both machines: they stay together exactly if no branch misjudges. -/
theorem FieldRel.step {p : Word} (hp : SmallModulus p) (hP : p.toInt = P)
    (hc : FieldBranching p prog) (hu : u.index < prog.instrSize)
    (ht : ∀ i ∈ prog.instr, ∀ l ∈ i.reference, u.target l = prog.target l)
    (h : FieldRel P p u f) :
    ∃ v g, Fabric.step prog u = .ok v ∧ FieldState.step prog f = .ok g ∧ v.AllReduced ∧
      v.p = p ∧ (Represents P v g ↔ ¬ Misjudges prog u) := by
  obtain ⟨hrep, hred, rfl⟩ := h
  obtain ⟨i, hmem, hi⟩ := exists_instr hu
  obtain ⟨o, hd, ho⟩ := hc i hmem
  have hop : OpAt prog u.index o := ⟨i, hi, hd⟩
  have hf := fieldStep_eq (f := f) (by rw [← hrep.pc]; exact hi) hd
  rcases ho with ⟨hfield, hconst⟩ | ⟨x, y, l, rfl⟩
  · have hnone := Op.fault_of_isField (s := u) hfield hp.safeDivisor
    refine ⟨_, _, step_of_no_fault hi hd hnone, hf, Op.apply_reduced hfield hconst hp.pos hred,
      Op.apply_p_of_isField hfield, iff_of_true (hrep.field hfield hp hP hred) ?_⟩
    rintro ⟨x, y, l, hbeq, -⟩
    cases hop.det hbeq
    cases hfield
  · refine ⟨_, _, step_of_no_fault hi hd rfl, hf, apply_beq_reduced hred,
      (apply_beq_same x y l u).2.2, ?_⟩
    rw [represents_beq_iff hrep hP hred (ht i hmem l (reference_of_decode_beq hd)), not_iff_not]
    constructor
    · intro hmis
      exact ⟨x, y, l, hop, hmis⟩
    · rintro ⟨x', y', l', hbeq, hmis⟩
      cases hop.det hbeq
      exact hmis

end Step

section Run
variable {P : ℕ} {prog : VPUProgram} {s : Processor}

/-- After any number of instructions the words represent the elements of the field machine,
exactly if no branch that is reached misjudges its operands. -/
theorem field_run_iff (hp : SmallModulus s.p) (hP : s.p.toInt = P) (hc : FieldBranching s.p prog)
    (hr : Resolved prog) (hs : s.AllReduced) :
    (∀ n, Alike (Represents P) (runProgram prog n s)
        ((FieldState.machine P prog).iter n (.ofProcessor P (start prog s)))) ↔
      ∀ n u, runProgram prog n s = .ok u → ¬ Misjudges prog u := by
  have htarget : ∀ {k u}, (machine prog).iter k (start prog s) = .ok u →
      ∀ i ∈ prog.instr, ∀ l ∈ i.reference, u.target l = prog.target l := by
    intro k u hk i hi
    exact hr.target_eq hi (iter_target hk)
  have hstart : FieldRel P s.p (start prog s) (.ofProcessor P (start prog s)) :=
    ⟨⟨rfl, rfl⟩, ⟨hs.regs, hs.sram⟩, rfl⟩
  have hrunning : ∀ u (f : FieldState P), Represents P u f →
      (machine prog).running u = (FieldState.machine P prog).running f := by
    intro u f h
    change decide (u.pc.toNat < _) = decide (f.pc.toNat < _)
    rw [h.pc]
  have hreduced : ∀ {n u}, runProgram prog n s = .ok u → u.AllReduced ∧ u.p = s.p := by
    intro n u hu
    refine (Machine.iter_invariant (I := fun u => (u.AllReduced ∧ u.p = s.p) ∧
      u.target = (start prog s).target) ?_ ⟨⟨⟨hs.regs, hs.sram⟩, rfl⟩, rfl⟩ hu).1
    rintro u v ⟨⟨hred, hup⟩, ht⟩ hrun hv
    obtain ⟨v', -, hv', -, hred', hvp, -⟩ := FieldRel.step (f := .ofProcessor P u) hp hP hc
      (machine_running.mp hrun)
      (fun i hi => hr.target_eq hi ht) ⟨⟨rfl, rfl⟩, hred, hup⟩
    cases hv'.symm.trans hv
    exact ⟨⟨hred', hvp⟩, (step_target hv).trans ht⟩
  constructor
  · intro h n u hu hmis
    have hlt : u.index < prog.instrSize := by
      obtain ⟨x, y, l, hbeq, -⟩ := hmis
      exact hbeq.lt
    obtain ⟨f, -, hrep, hstep⟩ := Machine.alike_step hrunning h hu (machine_running.mpr hlt)
    obtain ⟨hred, hup⟩ := hreduced hu
    obtain ⟨v, g, hv, hg, -, -, hiff⟩ :=
      FieldRel.step hp hP hc hlt (htarget hu) ⟨hrep, hred, hup⟩
    change Alike _ (Fabric.step prog u) (FieldState.step prog f) at hstep
    rw [hv, hg] at hstep
    exact hiff.mp hstep hmis
  · intro h n
    refine (Machine.alike_iter (R := FieldRel P s.p) (fun u f hrel => hrunning u f hrel.represents)
      ?_ hstart n).imp fun u f hrel => hrel.represents
    intro k u f hk _ hrel hrun
    obtain ⟨v, g, hv, hg, hred, hvp, hiff⟩ :=
      hrel.step hp hP hc (machine_running.mp hrun) (htarget hk)
    change Alike _ (Fabric.step prog u) (FieldState.step prog f)
    rw [hv, hg]
    exact ⟨hiff.mpr (h k u hk), hred, hvp⟩

/-- Adds the word at cell 1 to R1 until the sum is the one at cell 2, and counts in R3. -/
def sumUntil : VPUProgram :=
  ⟨[ { op := .ld, inputs := [.kAddr 1], outputs := [.kReg 2] },
     { op := .ld, inputs := [.kAddr 2], outputs := [.kReg 5] },
     { op := .set, inputs := [.kValue 1], outputs := [.kReg 4] },
     { op := .addp, inputs := [.kReg 1, .kReg 2], outputs := [.kReg 1], label := "again" },
     { op := .addp, inputs := [.kReg 3, .kReg 4], outputs := [.kReg 3] },
     { op := .beq, inputs := [.kReg 1, .kReg 5], outputs := [.kLabel "end"] },
     { op := .beq, inputs := [.kReg 0, .kReg 0], outputs := [.kLabel "again"] },
     { op := .st, inputs := [.kReg 3], outputs := [.kAddr 10], label := "end" } ], by decide⟩

theorem sumUntil_field_run :
    (∀ n, Alike (Represents 5) (runProgram sumUntil n moduloFive)
        ((FieldState.machine 5 sumUntil).iter n (.ofProcessor 5 (start sumUntil moduloFive)))) ↔
      ∀ n u, runProgram sumUntil n moduloFive = .ok u → ¬ Misjudges sumUntil u := by
  have hzero : Reduced 5 ((0 : Word)).toInt := by decide
  have hresolved : ∀ i ∈ sumUntil.instr, ∀ l ∈ i.reference, Defines sumUntil.instr l := by
    unfold Defines
    decide
  have hops : FieldBranching 5 sumUntil := by
    intro i hi
    simp only [sumUntil, List.mem_cons, List.not_mem_nil, or_false] at hi
    rcases hi with rfl | rfl | rfl | rfl | rfl | rfl | rfl | rfl
    case inr.inr.inl =>
      refine ⟨.set 1 4, rfl, Or.inl ⟨rfl, fun v d h => ?_⟩⟩
      cases h
      decide
    case inr.inr.inr.inr.inr.inl | inr.inr.inr.inr.inr.inr.inl =>
      exact ⟨_, rfl, Or.inr ⟨_, _, _, rfl⟩⟩
    all_goals exact ⟨_, rfl, Or.inl ⟨rfl, fun v d h => by cases h⟩⟩
  exact field_run_iff (s := moduloFive) (by decide) rfl hops hresolved
    ⟨fun _ => hzero, fun _ => hzero⟩

end Run
end Fabric

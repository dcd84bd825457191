import Fabric.Footprint

/-! Links of subroutines: which instructions touch them, and where returns lead. -/
namespace Fabric
open Lib

/-- The places of `K` hold nothing but links: `JAL` writes them, `RET` reads them, and no
other instruction looks at them. At index `k` the places of `D k` hold one. -/
structure Relocatable (prog : VPUProgram) (K : Set Loc) (D : ℕ → Set Loc) : Prop where
  entry : ∀ l, l ∉ D 0
  sub : ∀ k, ∀ l ∈ D k, l ∈ K
  plain : ∀ i ∈ prog.instr, i.op ≠ .jal → i.op ≠ .ret →
    ∀ l ∈ K, l ∉ i.reads ∧ l ∉ i.controls ∧ i.writes ≠ some l
  jal : ∀ i ∈ prog.instr, i.op = .jal → ∀ l ∈ i.writes, l ∈ K
  ret : ∀ k i, prog.instr[k]? = some i → i.op = .ret → ∀ l ∈ i.controls, l ∈ D k
  flow : ∀ k i j, prog.instr[k]? = some i → Leads prog k i j →
    ∀ l ∈ D j, i.writes = some l ∨ l ∈ D k

namespace PlaceTable
variable (T : PlaceTable)

/-- What the instruction `i` at index `k` does with links is what the table says. -/
def Links (prog : VPUProgram) (K : List Loc) (i : VPUInstruction) (k : ℕ) : Prop :=
  (i.op ≠ .jal → i.op ≠ .ret → ∀ l ∈ K, l ∉ i.reads ∧ l ∉ i.controls ∧ i.writes ≠ some l) ∧
    (i.op = .jal → ∀ l ∈ i.writes, l ∈ K) ∧ (i.op = .ret → ∀ l ∈ i.controls, l ∈ T.row k) ∧
    ∀ j ∈ T.successors prog k i, ∀ l ∈ T.row j, i.writes = some l ∨ l ∈ T.row k

instance (prog : VPUProgram) (K : List Loc) (i : VPUInstruction) (k : ℕ) :
    Decidable (T.Links prog K i k) :=
  inferInstanceAs (Decidable (_ ∧ _ ∧ _ ∧ _))

/-- The table has the places that hold a link, none of them at the start. -/
def Relocates (prog : VPUProgram) (K : List Loc) : Prop :=
  T.row 0 = [] ∧ (∀ l ∈ T.out, l ∈ K) ∧ (∀ row ∈ T.rows, ∀ l ∈ row, l ∈ K) ∧
    ∀ x ∈ prog.instr.zipIdx, T.Links prog K x.1 x.2

instance (prog : VPUProgram) (K : List Loc) : Decidable (T.Relocates prog K) :=
  inferInstanceAs (Decidable (_ ∧ _ ∧ _ ∧ _))

variable {T}

theorem Relocates.relocatable {prog : VPUProgram} {K : List Loc} (h : T.Relocates prog K) :
    Relocatable prog {l | l ∈ K} fun k => {l | l ∈ T.row k} := by
  obtain ⟨hstart, hout, hrows, hinstr⟩ := h
  have hlinks : ∀ k i, prog.instr[k]? = some i → T.Links prog K i k := by
    intro k i hi
    exact hinstr (i, k) (List.mk_mem_zipIdx_iff_getElem?.mpr hi)
  have hmem : ∀ i ∈ prog.instr, ∃ k, T.Links prog K i k := by
    intro i hi
    obtain ⟨k, hk⟩ := List.mem_iff_getElem?.mp hi
    exact ⟨k, hlinks k i hk⟩
  refine ⟨fun l hl => ?_, fun k l hl => ?_, ?_, ?_, ?_, ?_⟩
  · change l ∈ T.row 0 at hl
    rw [hstart] at hl
    cases hl
  · change l ∈ T.rows[k]?.getD T.out at hl
    cases hk : T.rows[k]? with
    | none => rw [hk] at hl; exact hout l hl
    | some row => rw [hk] at hl; exact hrows row (List.mem_of_getElem? hk) l hl
  · intro i hi hj hr
    obtain ⟨k, hk⟩ := hmem i hi
    exact hk.1 hj hr
  · intro i hi hop
    obtain ⟨k, hk⟩ := hmem i hi
    exact hk.2.1 hop
  · intro k i hi hop
    exact (hlinks k i hi).2.2.1 hop
  · intro k i j hi hl l hlj
    obtain ⟨j', hj', hrow⟩ := exists_successor (T := T) hl
    exact (hlinks k i hi).2.2.2 j' hj' l (by rw [hrow]; exact hlj)

end PlaceTable

/-- The last instruction of `tr` that writes `l` is the one at `c`, a call. -/
structure LastCall (prog : VPUProgram) (tr : List ℕ) (l : Loc) (c : ℕ) : Prop where
  call : ∃ i, prog.instr[c]? = some i ∧ i.op = .jal ∧ i.writes = some l
  last : ∃ pre mid, tr = pre ++ c :: mid ∧
    ∀ k ∈ mid, ∀ i, prog.instr[k]? = some i → i.writes ≠ some l

/-- What is known behind the instructions `tr`: the places that are to hold a link hold
that of the last call. -/
structure LinksHold (prog : VPUProgram) (D : ℕ → Set Loc) (s : Processor) (tr : List ℕ)
    (u : Processor) : Prop where
  index : u.index ≤ prog.instrSize
  target : u.target = (start prog s).target
  links : ∀ l ∈ D u.index, ∃ c, LastCall prog tr l c ∧ u.get l = BitVec.ofNat 64 c

section Run
variable {prog : VPUProgram} {K : Set Loc} {D : ℕ → Set Loc} {tr : List ℕ} {i : VPUInstruction}
  {l : Loc} {x : Reg} {c : ℕ} {s u v : Processor}

theorem LastCall.lt (h : LastCall prog tr l c) : c < prog.instrSize := by
  obtain ⟨⟨i, hi, -⟩, -⟩ := h
  exact (List.getElem?_eq_some_iff.mp hi).1

/-- A call stays the last one behind an instruction that does not write its link. -/
theorem LastCall.append (h : LastCall prog tr l c) {k : ℕ} (hi : prog.instr[k]? = some i)
    (hw : i.writes ≠ some l) : LastCall prog (tr ++ [k]) l c where
  call := h.call
  last := by
    obtain ⟨pre, mid, rfl, hmid⟩ := h.last
    refine ⟨pre, mid ++ [k], by simp, fun k' hk' j hj => ?_⟩
    rcases List.mem_append.mp hk' with hk' | hk'
    · exact hmid k' hk' j hj
    · rw [List.mem_singleton.mp hk', hi] at hj
      cases hj
      exact hw

/-- Where a return through a link leads. -/
theorem toNat_link (hc : c < 2 ^ 31) :
    ((BitVec.ofNat 64 c + 1).setWidth 32).toNat = c + 1 := by
  rw [BitVec.toNat_setWidth, BitVec.toNat_add, BitVec.toNat_ofNat,
    show (1 : Word).toNat = 1 from rfl]
  omega

theorem Relocatable.linksHold_start (h : Relocatable prog K D) (s : Processor) :
    LinksHold prog D s [] (start prog s) :=
  ⟨Nat.zero_le _, rfl, fun l hl => absurd hl (h.entry l)⟩

/-- The links after a step. -/
theorem Relocatable.links_step (h : Relocatable prog K D) (hi : prog.instr[u.index]? = some i)
    (hl : Leads prog u.index i v.index) (hu : LinksHold prog D s tr u) (hv : step prog u = .ok v) :
    ∀ l ∈ D v.index, ∃ c, LastCall prog (tr ++ [u.index]) l c ∧ v.get l = BitVec.ofNat 64 c := by
  intro l hlD
  by_cases hw : i.writes = some l
  · have hop : i.op = .jal := by
      by_contra hne
      by_cases hret : i.op = .ret
      · rw [VPUInstruction.writes, hret] at hw
        cases hw
      · exact (h.plain i (List.mem_of_getElem? hi) hne hret l (h.sub _ l hlD)).2.2 hw
    obtain ⟨d, hd, hlink⟩ := step_jal hi hop hv
    cases hw.symm.trans hd
    refine ⟨u.index, ⟨⟨i, hi, hop, hd⟩, tr, [], rfl, by simp⟩, hlink.trans ?_⟩
    exact (BitVec.ofNat_toNat 64 u.pc).symm
  · rcases h.flow _ i _ hi hl l hlD with hw' | hlD'
    · exact absurd hw' hw
    · obtain ⟨c, hc, hget⟩ := hu.links l hlD'
      exact ⟨c, hc.append hi hw, (step_keeps hi hv hw).trans hget⟩

/-- A return leads behind the last call that has written its register. -/
theorem Relocatable.ret_step (h : Relocatable prog K D) (hi : prog.instr[u.index]? = some i)
    (hop : i.op = .ret) (hx : i.inReg 0 = .ok x) (hu : LinksHold prog D s tr u) :
    ∃ c, LastCall prog tr (.reg x) c ∧ ∃ v, step prog u = .ok v ∧ v.index = c + 1 := by
  have hxD : Loc.reg x ∈ D u.index := by
    refine h.ret _ i hi hop _ ?_
    rw [VPUInstruction.controls, hop, hx]
    exact List.mem_singleton_self _
  obtain ⟨c, hc, hget⟩ := hu.links _ hxD
  refine ⟨c, hc, { u with pc := (u.regs x + 1).setWidth 32 }, ?_, ?_⟩
  · rw [step_of_exec hi (by rw [hop]; rfl)]
    simp only [nextPcRET, hx]
    rfl
  · change ((u.regs x + 1).setWidth 32).toNat = c + 1
    rw [show u.regs x = BitVec.ofNat 64 c from hget,
      toNat_link (hc.lt.trans prog.instrSize_lt)]

theorem Relocatable.linksHold_step (h : Relocatable prog K D) (hr : Resolved prog)
    (hrun : u.index < prog.instrSize) (hu : LinksHold prog D s tr u) (hv : step prog u = .ok v) :
    LinksHold prog D s (tr ++ [u.index]) v := by
  obtain ⟨i, hmem, hi⟩ := exists_instr hrun
  have hl := step_leads hr hu.target hrun hi hv
  refine ⟨?_, (step_target hv).trans hu.target, h.links_step hi hl hu hv⟩
  rcases hl with ⟨-, hnext⟩ | hop | ⟨l, hl, hnext⟩
  · omega
  · obtain ⟨x, hx, -⟩ := step_ret hi hop hv
    obtain ⟨c, hc, v', hv', hidx⟩ := h.ret_step hi hop hx hu
    cases hv'.symm.trans hv
    have hlt := hc.lt
    omega
  · rw [hnext]
    exact (target_lt (hr i hmem l hl)).le

/-- The links hold wherever a run gets. -/
theorem Relocatable.linksHold (h : Relocatable prog K D) (hr : Resolved prog)
    (hseg : (machine prog).Seg Processor.index (fun _ => True) (start prog s) tr u) :
    LinksHold prog D s tr u :=
  hseg.invariant (h.linksHold_start s) fun _ _ _ hu hrun hv =>
    h.linksHold_step hr (machine_running.mp hrun) hu hv

theorem Relocatable.index_le (h : Relocatable prog K D) (hr : Resolved prog) {n : ℕ}
    (hn : runProgram prog n s = .ok u) : u.index ≤ prog.instrSize := by
  obtain ⟨tr, hseg, -⟩ := Machine.exists_seg_of_iter Processor.index hn
  exact (h.linksHold hr hseg).index

/-- Such programs return at their end. -/
theorem Relocatable.returns_index (h : Relocatable prog K D) (hr : Resolved prog)
    (ht : Returns prog s u) : u.index = prog.instrSize := by
  obtain ⟨n, hn, hrest⟩ := ht
  exact le_antisymm (h.index_le hr hn) (machine_halted.mp hrest)

/-- Wherever a run gets, it has not gone beyond the end of the program, and a return leads
behind the last call that has written its register. -/
theorem returns_to_last_call (h : Relocatable prog K D) (hr : Resolved prog)
    (hseg : (machine prog).Seg Processor.index (fun _ => True) (start prog s) tr u) :
    u.index ≤ prog.instrSize ∧ ∀ i x, prog.instr[u.index]? = some i → i.op = .ret →
      i.inReg 0 = .ok x →
        ∃ c, LastCall prog tr (.reg x) c ∧ ∃ v, step prog u = .ok v ∧ v.index = c + 1 := by
  have hu := h.linksHold hr hseg
  exact ⟨hu.index, fun i x hi hop hx => h.ret_step hi hop hx hu⟩

end Run

namespace MultInverse

/-- No calls, so no links. -/
def links : PlaceTable := ⟨[], []⟩

theorem links_relocates : links.Relocates program [.reg 10] := by decide +kernel

end MultInverse

namespace PAdd

/-- The link is there in the subroutine, and still is behind the first call of it. -/
def links : PlaceTable where
  rows := List.replicate 23 [] ++ List.replicate 16 [.reg 10]
  out := []

theorem links_relocates : links.Relocates program [.reg 10] := by decide +kernel

theorem resolved : Resolved program := by
  have h : ∀ i ∈ code, ∀ l ∈ i.reference, Defines code l := by
    unfold Defines
    decide +kernel
  exact h

/-- The chord through two points modulo five, up to the return of the inverse. -/
theorem returns_to_last_call_chord :
    ∃ tr u, (machine program).Seg Processor.index (fun _ => True)
        (start program (.ofCells [5, 1, 0, -1, 0, 1, 2, 1])) tr u ∧ u.index = 38 ∧
      u.index ≤ program.instrSize ∧
      ∀ i x, program.instr[u.index]? = some i → i.op = .ret → i.inReg 0 = .ok x →
        ∃ c, LastCall program tr (.reg x) c ∧ ∃ v, step program u = .ok v ∧ v.index = c + 1 := by
  have hindex : (runProgram program 42 (.ofCells [5, 1, 0, -1, 0, 1, 2, 1])).map
      Processor.index = .ok 38 := rfl
  cases hrun : runProgram program 42 (.ofCells [5, 1, 0, -1, 0, 1, 2, 1]) with
  | error => rw [hrun] at hindex; cases hindex
  | ok u =>
    rw [hrun] at hindex
    obtain ⟨tr, hseg, -⟩ := Machine.exists_seg_of_iter Processor.index hrun
    exact ⟨tr, u, hseg, Except.ok.inj hindex,
      returns_to_last_call links_relocates.relocatable resolved hseg⟩

end PAdd

end Fabric

import Fabric.Addition

/-! What a host sees that writes to the SRAM of one processor and runs kernels on it: a
memory, and two maps on memories. Registers, modulus and labels left behind do not show. -/
namespace Fabric
open Lib

/-- The SRAM of a processor. -/
abbrev Memory := Addr → Word

/-- What a host does with a processor. -/
inductive HostAction
  | write (a : Addr) (v : Word)
  | inverse
  | add

/-- The cells that `PAdd` loads. -/
def Memory.inputs (m : Memory) : Inputs := ⟨m 0, m 1, m 3, m 4, m 5, m 6, m 7⟩

namespace HostAction

/-- The action on a processor. A kernel that comes to rest leaves its state to the next one. -/
def On : HostAction → Processor → Processor → Prop
  | write a v, s, t => t = s.setSram a v
  | inverse, s, t => Returns MultInverse.program s t
  | add, s, t => Returns PAdd.program s t

/-- The action as a map of memories. -/
def onMemory : HostAction → Memory → Memory
  | write a v, m => Function.update m a v
  | inverse, m => Function.update m 10 (Fabric.inverse (m 0) (m 1))
  | add, m => Function.update (Function.update m 10 m.inputs.sum.1) 11 m.inputs.sum.2

/-- Kernels are run with a modulus only. -/
def Ready : HostAction → Memory → Prop
  | write _ _, _ => True
  | inverse, m | add, m => 1 ≤ (m 0).toInt

instance : (a : HostAction) → (m : Memory) → Decidable (a.Ready m)
  | write _ _, _ => instDecidableTrue
  | inverse, _ | add, _ => inferInstanceAs (Decidable (_ ≤ _))

end HostAction

/-- One action after the other on one processor. -/
inductive Session : List HostAction → Processor → Processor → Prop
  | nil (s : Processor) : Session [] s s
  | cons {a : HostAction} {acts : List HostAction} {s u t : Processor} :
      a.On s u → Session acts u t → Session (a :: acts) s t

/-- The memory after the actions. -/
def memoryAfter (acts : List HostAction) (m : Memory) : Memory :=
  acts.foldl (fun m a => a.onMemory m) m

/-- The cells hold a modulus whenever a kernel is run. -/
def ReadyThroughout : List HostAction → Memory → Prop
  | [], _ => True
  | a :: acts, m => a.Ready m ∧ ReadyThroughout acts (a.onMemory m)

section Session
variable {a : HostAction} {acts : List HostAction} {s t : Processor}

/-- An action is possible, and what it leaves in the SRAM is its map. -/
theorem HostAction.on_memory (h : a.Ready s.sram) :
    (∃ t, a.On s t) ∧ ∀ t, a.On s t → t.sram = a.onMemory s.sram := by
  cases a with
  | write a v => exact ⟨⟨_, rfl⟩, fun t ht => by rw [ht]; rfl⟩
  | inverse =>
    obtain ⟨u, hu, hsram⟩ := MultInverse.executes s h
    exact ⟨⟨u, hu.returns⟩, fun t ht => by rw [ht.det hu.returns]; exact hsram⟩
  | add =>
    obtain ⟨u, hu, hsram⟩ := PAdd.executes s h
    exact ⟨⟨u, hu.returns⟩, fun t ht => by rw [ht.det hu.returns]; exact hsram⟩

/-- A session on one processor, whatever state it is in, is possible and leaves the memory
that the maps of its actions make of the one it starts from. -/
theorem session_memory (h : ReadyThroughout acts s.sram) :
    (∃ t, Session acts s t) ∧ ∀ t, Session acts s t → t.sram = memoryAfter acts s.sram := by
  induction acts generalizing s with
  | nil =>
    refine ⟨⟨s, .nil s⟩, fun t ht => ?_⟩
    cases ht
    rfl
  | cons a acts ih =>
    obtain ⟨⟨u, hu⟩, hmem⟩ := HostAction.on_memory h.1
    have hrest : ∀ u, a.On s u → ReadyThroughout acts u.sram := by
      intro u hu
      rw [hmem u hu]
      exact h.2
    obtain ⟨⟨t, ht⟩, -⟩ := ih (hrest u hu)
    refine ⟨⟨t, .cons hu ht⟩, fun t' ht' => ?_⟩
    cases ht' with
    | cons hu' htail =>
      rw [(ih (hrest _ hu')).2 t' htail, hmem _ hu']
      rfl

/-- An inverse, and a sum of two points with the same modulus. -/
def inverseThenAdd : List HostAction :=
  [.write 0 37, .write 1 5, .inverse, .write 4 3, .write 5 1, .write 6 15, .write 7 2, .add]

theorem inverseThenAdd_session :
    (∃ t, Session inverseThenAdd (.ofCells []) t) ∧ ∀ t, Session inverseThenAdd (.ofCells []) t →
      t.sram = memoryAfter inverseThenAdd (Processor.ofCells []).sram :=
  session_memory ⟨trivial, trivial, by decide, trivial, trivial, trivial, trivial, by decide,
    trivial⟩

end Session

/-- Canonical coordinates, or a pair that holds the word `-1`. -/
def ValidPair (p x y : Word) : Prop := InField p x ∧ InField p y ∨ x = -1 ∨ y = -1

/-- The states that a host gets to that adds points with one modulus and one curve
parameter, and loads new operands or the last result in between. -/
inductive AdderReached (p a : Word) : Processor → Prop
  | init {s : Processor} : s.sram 0 = p → s.sram 1 = a → s.sram 3 = -1 →
      ValidPair p (s.sram 4) (s.sram 5) → ValidPair p (s.sram 6) (s.sram 7) →
      ValidPair p (s.sram 10) (s.sram 11) → AdderReached p a s
  | load1 {s : Processor} {x y : Word} : AdderReached p a s → ValidPair p x y →
      AdderReached p a ((s.setSram 4 x).setSram 5 y)
  | load2 {s : Processor} {x y : Word} : AdderReached p a s → ValidPair p x y →
      AdderReached p a ((s.setSram 6 x).setSram 7 y)
  | feed1 {s : Processor} : AdderReached p a s →
      AdderReached p a ((s.setSram 4 (s.sram 10)).setSram 5 (s.sram 11))
  | feed2 {s : Processor} : AdderReached p a s →
      AdderReached p a ((s.setSram 6 (s.sram 10)).setSram 7 (s.sram 11))
  | add {s t : Processor} : AdderReached p a s → Returns PAdd.program s t → AdderReached p a t

/-- What holds of every state that the host gets to. -/
structure AdderInv (p a : Word) (s : Processor) : Prop where
  modulus : s.sram 0 = p
  param : s.sram 1 = a
  zero : s.sram 3 = -1
  first : ValidPair p (s.sram 4) (s.sram 5)
  second : ValidPair p (s.sram 6) (s.sram 7)
  result : ValidPair p (s.sram 10) (s.sram 11)

section Adder
variable {p a x y : Word} {s t : Processor} {i : Inputs}

/-- All bits of `-1` are set, so that the zero checks find it in either coordinate. -/
theorem or_eq_neg_one (h : x = -1 ∨ y = -1) : x ||| y = -1 := by
  have hall : (-1 : Word) = BitVec.allOnes 64 := by decide
  rcases h with rfl | rfl
  · rw [hall, BitVec.allOnes_or]
  · rw [hall, BitVec.or_allOnes]

/-- The sum of valid pairs is one, for composite moduli and off the curve too. -/
theorem sum_valid (hp : SmallModulus i.p) (ha : InField i.p i.a) (hz : i.z = -1)
    (h1 : ValidPair i.p i.x1 i.y1) (h2 : ValidPair i.p i.x2 i.y2) :
    ValidPair i.p i.sum.1 i.sum.2 := by
  have hP : i.p.toInt = i.p.toInt.toNat := (Int.toNat_of_nonneg hp.pos.le).symm
  by_cases hfirst : i.firstZero
  · rw [Inputs.sum_first hfirst]
    exact h2
  by_cases hsecond : i.secondZero
  · rw [Inputs.sum_second hfirst hsecond]
    exact h1
  obtain ⟨hx1, hy1⟩ := h1.resolve_right fun h =>
    hfirst (by rw [Inputs.firstZero, hz, or_eq_neg_one h])
  obtain ⟨hx2, hy2⟩ := h2.resolve_right fun h =>
    hsecond (by rw [Inputs.secondZero, hz, or_eq_neg_one h])
  have hc : i.Canonical := ⟨hp, ha, hx1, hy1, hx2, hy2⟩
  by_cases hx : i.x1 = i.x2
  · by_cases hy : i.y1 = i.y2
    · rw [Inputs.sum_tangent hfirst hsecond hx hy]
      have hl := hc.line (hc.tangentSlope hP)
      exact Or.inl ⟨hl.x3, hl.y3⟩
    · rw [Inputs.sum_opposite hfirst hsecond hx hy]
      exact Or.inr (Or.inr hz)
  · rw [Inputs.sum_chord hfirst hsecond hx]
    have hl := hc.line (hc.chordSlope hP)
    exact Or.inl ⟨hl.x3, hl.y3⟩

/-- The kernel keeps what it loads, and leaves a valid pair. -/
theorem AdderInv.add (hp : SmallModulus p) (ha : InField p a) (h : AdderInv p a s) :
    ∃ t, Returns PAdd.program s t ∧ AdderInv p a t := by
  have hpos : 1 ≤ (s.sram 0).toInt := by
    rw [h.modulus]
    have := hp.1
    omega
  obtain ⟨t, ht, hsram⟩ := PAdd.executes s hpos
  have hkeep : ∀ b : Addr, b ≠ 10 → b ≠ 11 → t.sram b = s.sram b := by
    intro b h10 h11
    rw [hsram, Function.update_of_ne h11, Function.update_of_ne h10]
  refine ⟨t, ht.returns, ⟨?_, ?_, ?_, ?_, ?_, ?_⟩⟩
  · rw [hkeep 0 (by decide) (by decide), h.modulus]
  · rw [hkeep 1 (by decide) (by decide), h.param]
  · rw [hkeep 3 (by decide) (by decide), h.zero]
  · rw [hkeep 4 (by decide) (by decide), hkeep 5 (by decide) (by decide)]
    exact h.first
  · rw [hkeep 6 (by decide) (by decide), hkeep 7 (by decide) (by decide)]
    exact h.second
  · rw [hsram, Function.update_self, Function.update_of_ne (by decide), Function.update_self]
    obtain ⟨rfl, rfl, hz, h1, h2, -⟩ := h
    exact sum_valid (i := PAdd.inputs s) hp ha hz h1 h2

/-- Operands loaded into other cells than the result's. -/
theorem AdderInv.load1 (h : AdderInv p a s) (hv : ValidPair p x y) :
    AdderInv p a ((s.setSram 4 x).setSram 5 y) :=
  ⟨h.modulus, h.param, h.zero, hv, h.second, h.result⟩

theorem AdderInv.load2 (h : AdderInv p a s) (hv : ValidPair p x y) :
    AdderInv p a ((s.setSram 6 x).setSram 7 y) :=
  ⟨h.modulus, h.param, h.zero, h.first, hv, h.result⟩

theorem AdderReached.inv (hp : SmallModulus p) (ha : InField p a) (h : AdderReached p a s) :
    AdderInv p a s := by
  induction h with
  | init h0 h1 h3 hfirst hsecond hresult => exact ⟨h0, h1, h3, hfirst, hsecond, hresult⟩
  | load1 _ hv ih => exact ih.load1 hv
  | load2 _ hv ih => exact ih.load2 hv
  | feed1 _ ih => exact ih.load1 ih.result
  | feed2 _ ih => exact ih.load2 ih.result
  | add _ ht ih =>
    obtain ⟨t, ht', hinv⟩ := ih.add hp ha
    rw [ht.det ht']
    exact hinv

/-- However long the host adds, and whether or not the points are on a curve and the modulus
is prime, the next run returns, and its result is a canonical pair or holds the word `-1`. -/
theorem adder_stays_valid (hp : SmallModulus p) (ha : InField p a) (h : AdderReached p a s) :
    ValidPair p (s.sram 10) (s.sram 11) ∧
      ∃ t, Returns PAdd.program s t ∧ ValidPair p (t.sram 10) (t.sram 11) := by
  have hinv := h.inv hp ha
  obtain ⟨t, ht, hinv'⟩ := hinv.add hp ha
  exact ⟨hinv.result, t, ht, hinv'.result⟩

/-- A composite modulus, and an operand loaded for the one that was there. -/
def fifteen : Processor := .ofCells [15, 2, 0, -1, 3, 4, 5, 6]

theorem adder_stays_valid_fifteen :
    ValidPair 15 (((fifteen.setSram 4 7).setSram 5 8).sram 10)
        (((fifteen.setSram 4 7).setSram 5 8).sram 11) ∧
      ∃ t, Returns PAdd.program ((fifteen.setSram 4 7).setSram 5 8) t ∧
        ValidPair 15 (t.sram 10) (t.sram 11) := by
  have hstart : AdderReached 15 2 fifteen :=
    .init rfl rfl rfl (Or.inl (by decide)) (Or.inl (by decide)) (Or.inl (by decide))
  exact adder_stays_valid (by decide) (by decide) (hstart.load1 (Or.inl (by decide)))

end Adder
end Fabric

import Mathlib.Algebra.Group.Hom.Defs
import Mathlib.Algebra.Group.Nat.Hom
import Mathlib.Data.List.Forall2
import Mathlib.Data.List.Induction
import Mathlib.Algebra.BigOperators.Group.List.Basic

/-! Addition chains: sequences of sums whose operands are zero, given elements or
earlier results, and trees of sums. Both are evaluated in an additive monoid, and
computed by any operation on representations. -/
namespace Lib.Chain

/-- An operand of a sum. -/
inductive Term (α : Type*)
  | zero
  | base (x : α)
  | result (i : ℕ)

variable {α W M N : Type*}

section Values
variable [AddZeroClass M] [AddZeroClass N] {f : α → M} {calls : List (Term α × Term α)}

/-- The operand, given the earlier results. -/
def Term.value (f : α → M) (vs : List M) : Term α → M
  | zero => 0
  | base x => f x
  | result i => vs.getD i 0

def values (f : α → M) (calls : List (Term α × Term α)) : List M :=
  calls.foldl (fun vs c => vs ++ [c.1.value f vs + c.2.value f vs]) []

@[simp] theorem values_nil : values f [] = [] := rfl

@[simp] theorem values_concat (c : Term α × Term α) : values f (calls ++ [c]) =
    values f calls ++ [c.1.value f (values f calls) + c.2.value f (values f calls)] := by
  simp [values]

theorem Term.map_value (g : M →+ N) (vs : List M) (c : Term α) :
    g (c.value f vs) = c.value (g ∘ f) (vs.map g) := by
  cases c with
  | zero => exact g.map_zero
  | base x => rfl
  | result i =>
    simp only [value, List.getD_eq_getElem?_getD, List.getElem?_map]
    cases vs[i]? with
    | none => exact g.map_zero
    | some v => rfl

/-- Evaluation commutes with homomorphisms. -/
theorem map_values (g : M →+ N) : (values f calls).map g = values (g ∘ f) calls := by
  induction calls using List.reverseRecOn with
  | nil => rfl
  | append_singleton calls c ih =>
    rw [values_concat, values_concat, List.map_append, ih, List.map_singleton, g.map_add,
      Term.map_value, Term.map_value, ih]

end Values

/-- Over a single element `x` the values are the multiples that the chain computes. -/
theorem values_const {M : Type*} [AddMonoid M] (x : M) (calls : List (Term α × Term α)) :
    values (fun _ => x) calls = (values (fun _ => (1 : ℕ)) calls).map (· • x) := by
  have h : (values (fun _ => (1 : ℕ)) calls).map (· • x) =
      values (fun _ => (1 : ℕ) • x) calls := map_values (multiplesHom M x)
  rw [h]
  simp only [one_nsmul]

/-- The representation of an operand, if it refers to an earlier result. -/
def Term.word (zero : W) (base : α → W) (rs : List W) : Term α → Option W
  | .zero => some zero
  | .base x => some (base x)
  | .result i => rs[i]?

/-- `rs` are results of the sums computed by `op` on representations. -/
inductive Results (zero : W) (base : α → W) (op : W → W → W → Prop) :
    List (Term α × Term α) → List W → Prop
  | nil : Results zero base op [] []
  | concat {calls : List (Term α × Term α)} {rs : List W} {c : Term α × Term α} {q q' r : W} :
      Results zero base op calls rs → c.1.word zero base rs = some q →
      c.2.word zero base rs = some q' → op q q' r → Results zero base op (calls ++ [c]) (rs ++ [r])

section Represents
variable [AddZeroClass M] {zero : W} {base : α → W} {op : W → W → W → Prop} {rep : W → M → Prop}
  {f : α → M} {calls : List (Term α × Term α)} {rs : List W}

theorem Term.word_represents {vs : List M} {q : W} (hz : rep zero 0) (hb : ∀ x, rep (base x) (f x))
    (h : List.Forall₂ rep rs vs) {c : Term α} (hc : c.word zero base rs = some q) :
    rep q (c.value f vs) := by
  cases c with
  | zero => cases hc; exact hz
  | base x => cases hc; exact hb x
  | result i =>
    obtain ⟨hi, rfl⟩ := List.getElem?_eq_some_iff.mp hc
    have hi' : i < vs.length := h.length_eq ▸ hi
    have hv : Term.value f vs (.result i) = vs[i] := by
      simp [value, hi']
    rw [hv]
    exact h.get hi hi'

/-- An operation that represents the addition makes every result of a chain
represent its value. -/
theorem Results.represents (hz : rep zero 0) (hb : ∀ x, rep (base x) (f x))
    (hop : ∀ q q' r v v', rep q v → rep q' v' → op q q' r → rep r (v + v'))
    (h : Results zero base op calls rs) : List.Forall₂ rep rs (values f calls) := by
  induction h with
  | nil => exact .nil
  | concat _ hq hq' hr ih =>
    rw [values_concat]
    refine List.rel_append ih (.cons ?_ .nil)
    exact hop _ _ _ _ _ (Term.word_represents hz hb ih hq) (Term.word_represents hz hb ih hq') hr

end Represents

/-- Sums of sums, down to given elements: an order and a bracketing of these. -/
inductive Tree (α : Type*)
  | leaf (x : α)
  | add (l r : Tree α)

namespace Tree

def leaves : Tree α → List α
  | leaf x => [x]
  | add l r => l.leaves ++ r.leaves

/-- `r` is a result of the sums of the tree computed by `op` on representations. -/
inductive Computes (base : α → W) (op : W → W → W → Prop) : Tree α → W → Prop
  | leaf (x : α) : Computes base op (.leaf x) (base x)
  | add {t t' : Tree α} {q q' r : W} : Computes base op t q → Computes base op t' q' →
      op q q' r → Computes base op (.add t t') r

variable {base : α → W} {op : W → W → W → Prop} {t t' : Tree α} {r : W}

theorem exists_computes (h : ∀ q q', ∃ r, op q q' r) (t : Tree α) :
    ∃ r, Computes base op t r := by
  induction t with
  | leaf x => exact ⟨base x, .leaf x⟩
  | add l r hl hr =>
    obtain ⟨q, hq⟩ := hl
    obtain ⟨q', hq'⟩ := hr
    obtain ⟨r, hr⟩ := h q q'
    exact ⟨r, .add hq hq' hr⟩

/-- An operation that represents the addition makes every result of a tree represent the
sum of its leaves. -/
theorem Computes.represents [AddMonoid M] {rep : W → M → Prop} {f : α → M}
    (hb : ∀ x, rep (base x) (f x))
    (hop : ∀ q q' r v v', rep q v → rep q' v' → op q q' r → rep r (v + v'))
    (h : Computes base op t r) : rep r (t.leaves.map f).sum := by
  induction h with
  | leaf x =>
    rw [leaves, List.map_singleton, List.sum_singleton]
    exact hb x
  | add _ _ hr ih ih' =>
    rw [leaves, List.map_append, List.sum_append]
    exact hop _ _ _ _ _ ih ih' hr

end Tree
end Lib.Chain

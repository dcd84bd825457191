import Fabric.Lib.Machine
import Mathlib.Data.List.Perm.Basic

/-! Sequences of actions that may fail, and the swaps of neighbours that do not change
what they do. -/
namespace Lib
open Machine (SameOutcome)
variable {α σ ε : Type*}

/-- Lists that differ by swaps of neighbours that `I` allows. -/
inductive Reordered (I : α → α → Prop) : List α → List α → Prop
  | refl (xs : List α) : Reordered I xs xs
  | swap (pre : List α) {x y : α} (post : List α) : I x y →
      Reordered I (pre ++ x :: y :: post) (pre ++ y :: x :: post)
  | trans {xs ys zs : List α} : Reordered I xs ys → Reordered I ys zs → Reordered I xs zs

namespace Reordered
variable {I : α → α → Prop} {xs ys : List α}

theorem perm (h : Reordered I xs ys) : xs.Perm ys := by
  induction h with
  | refl xs => exact .refl xs
  | swap pre post _ => exact (List.Perm.swap _ _ post).append_left pre
  | trans _ _ ih ih' => exact ih.trans ih'

/-- Actions that commute where swaps are allowed do the same in either order. -/
theorem foldlM {act : σ → α → Except ε σ}
    (hI : ∀ x y s, I x y → SameOutcome (act s x >>= (act · y)) (act s y >>= (act · x)))
    (h : Reordered I xs ys) (s : σ) : SameOutcome (xs.foldlM act s) (ys.foldlM act s) := by
  induction h generalizing s with
  | refl xs => exact .refl _
  | swap pre post hxy =>
    rename_i x y
    have hpair : ∀ u,
        SameOutcome ((x :: y :: post).foldlM act u) ((y :: x :: post).foldlM act u) := by
      intro u
      have hassoc : ∀ a b : α, (a :: b :: post).foldlM act u =
          (act u a >>= (act · b)) >>= post.foldlM act := by
        intro a b
        rw [List.foldlM_cons, bind_assoc]
        rfl
      rw [hassoc, hassoc]
      exact (hI x y u hxy).bind _
    intro t
    rw [List.foldlM_append, List.foldlM_append]
    cases pre.foldlM act s with
    | error e => rfl
    | ok u => exact hpair u t
  | trans _ _ ih ih' => exact (ih s).trans (ih' s)

end Reordered
end Lib

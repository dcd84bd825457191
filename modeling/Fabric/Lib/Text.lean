import Mathlib.Data.Int.Notation
import Mathlib.Tactic.Common

/-! Texts made of tokens: separators that no token contains can be found again, and
numerals determine their numbers. -/
namespace Lib.Text

section Tokens
variable {α : Type*} {c : α} {xs ys xs' ys' : List α} {ts us : List (List α)}

/-- Each token followed by `c`. -/
def terminate (c : α) (ts : List (List α)) : List α := ts.flatMap (· ++ [c])

/-- Each token preceded by `c`. -/
def separate (c : α) (ts : List (List α)) : List α := ts.flatMap (c :: ·)

@[simp] theorem terminate_nil : terminate c [] = [] := rfl

@[simp] theorem terminate_cons (t : List α) :
    terminate c (t :: ts) = t ++ c :: terminate c ts := by
  simp [terminate]

@[simp] theorem separate_cons (t : List α) :
    separate c (t :: ts) = c :: (t ++ separate c ts) := by
  simp [separate]

theorem append_cons_inj (hx : c ∉ xs) (hy : c ∉ ys) (h : xs ++ c :: xs' = ys ++ c :: ys') :
    xs = ys ∧ xs' = ys' := by
  induction xs generalizing ys with
  | nil =>
    cases ys with
    | nil => exact ⟨rfl, (List.cons.inj h).2⟩
    | cons y ys => exact absurd ((List.cons.inj h).1 ▸ List.mem_cons_self) hy
  | cons x xs ih =>
    cases ys with
    | nil => exact absurd ((List.cons.inj h).1 ▸ List.mem_cons_self) hx
    | cons y ys =>
      obtain ⟨rfl, htail⟩ := List.cons.inj h
      obtain ⟨rfl, hrest⟩ := ih (fun hc => hx (List.mem_cons_of_mem _ hc))
        (fun hc => hy (List.mem_cons_of_mem _ hc)) htail
      exact ⟨rfl, hrest⟩

theorem terminate_inj (ht : ∀ t ∈ ts, c ∉ t) (hu : ∀ u ∈ us, c ∉ u)
    (h : terminate c ts = terminate c us) : ts = us := by
  induction ts generalizing us with
  | nil =>
    cases us with
    | nil => rfl
    | cons u us => simp at h
  | cons t ts ih =>
    cases us with
    | nil => simp at h
    | cons u us =>
      rw [terminate_cons, terminate_cons] at h
      obtain ⟨rfl, hrest⟩ :=
        append_cons_inj (ht t List.mem_cons_self) (hu u List.mem_cons_self) h
      rw [ih (fun t hmem => ht t (List.mem_cons_of_mem _ hmem))
        (fun u hmem => hu u (List.mem_cons_of_mem _ hmem)) hrest]

theorem separate_append (ts : List (List α)) : separate c ts ++ [c] = c :: terminate c ts := by
  induction ts with
  | nil => rfl
  | cons t ts ih => rw [separate_cons, terminate_cons, List.cons_append, List.append_assoc, ih]

theorem separate_inj (ht : ∀ t ∈ ts, c ∉ t) (hu : ∀ u ∈ us, c ∉ u)
    (h : separate c ts = separate c us) : ts = us := by
  have hcons : c :: terminate c ts = c :: terminate c us := by
    rw [← separate_append, ← separate_append, h]
  exact terminate_inj ht hu (List.cons.inj hcons).2

end Tokens

/-- Lists with equal images are related where equal images of members are. -/
theorem forall₂_of_map_eq {α β γ : Type*} {f : α → β} {g : γ → β} {R : α → γ → Prop}
    {xs : List α} {ys : List γ} (hR : ∀ x ∈ xs, ∀ y ∈ ys, f x = g y → R x y)
    (h : xs.map f = ys.map g) : List.Forall₂ R xs ys := by
  induction xs generalizing ys with
  | nil =>
    rw [List.map_eq_nil_iff.mp h.symm]
    exact .nil
  | cons x xs ih =>
    cases ys with
    | nil => cases h
    | cons y ys =>
      obtain ⟨hhead, htail⟩ := List.cons.inj h
      exact .cons (hR x List.mem_cons_self y List.mem_cons_self hhead)
        (ih (fun x hx y hy => hR x (List.mem_cons_of_mem _ hx) y (List.mem_cons_of_mem _ hy))
          htail)

/-- A loop that appends the text of each element appends their concatenation. -/
theorem foldlM_append {ε β : Type*} {f : String → β → Except ε String} {g : β → List Char}
    {xs : List β} (h : ∀ x ∈ xs, ∀ ret, f ret x = .ok (ret ++ String.ofList (g x)))
    (ret : String) : xs.foldlM f ret = .ok (ret ++ String.ofList (xs.flatMap g)) := by
  induction xs generalizing ret with
  | nil => simp [pure, Except.pure]
  | cons x xs ih =>
    rw [List.foldlM_cons, h x List.mem_cons_self]
    refine (ih (fun y hy => h y (List.mem_cons_of_mem x hy)) _).trans ?_
    rw [List.flatMap_cons, String.append_assoc, ← String.ofList_append]

/-- A loop some of whose elements have no text fails at the first of them. -/
theorem foldlM_error {ε β : Type*} {f : String → β → Except ε String} {g : β → List Char}
    {bad : β → Prop} {e : ε} {xs : List β}
    (hok : ∀ x ∈ xs, ¬ bad x → ∀ ret, f ret x = .ok (ret ++ String.ofList (g x)))
    (herr : ∀ x ∈ xs, bad x → ∀ ret, f ret x = .error e) (hbad : ∃ x ∈ xs, bad x)
    (ret : String) : xs.foldlM f ret = .error e := by
  induction xs generalizing ret with
  | nil => obtain ⟨x, hx, -⟩ := hbad; cases hx
  | cons x xs ih =>
    rw [List.foldlM_cons]
    by_cases hx : bad x
    · rw [herr x List.mem_cons_self hx]
      rfl
    · rw [hok x List.mem_cons_self hx]
      have htail : ∃ y ∈ xs, bad y := by
        obtain ⟨y, hy, hb⟩ := hbad
        rcases List.mem_cons.mp hy with rfl | hy
        · exact absurd hb hx
        · exact ⟨y, hy, hb⟩
      exact ih (fun y hy => hok y (List.mem_cons_of_mem x hy))
        (fun y hy => herr y (List.mem_cons_of_mem x hy)) htail _

section Numerals
variable {b n m : ℕ} {c : Char}

theorem digitChar_inj : ∀ d < 16, ∀ e < 16, Nat.digitChar d = Nat.digitChar e → d = e := by
  decide

/-- Numerals of one base up to sixteen determine their numbers. -/
theorem toDigits_inj (hb : 1 < b) (hb' : b ≤ 16) (h : Nat.toDigits b n = Nat.toDigits b m) :
    n = m := by
  induction n using Nat.strongRecOn generalizing m with
  | _ n ih =>
    rw [Nat.toDigits_eq_if hb, Nat.toDigits_eq_if (n := m) hb] at h
    split_ifs at h with hn hm hm
    · exact digitChar_inj n (by omega) m (by omega) (List.singleton_inj.mp h)
    · have hlen := congrArg List.length h
      simp at hlen
    · have hlen := congrArg List.length h
      simp at hlen
    · obtain ⟨hq, hr⟩ := List.append_inj' h rfl
      have hdiv := ih (n / b) (Nat.div_lt_self (by omega) hb) hq
      have hnb : n % b < b := Nat.mod_lt n (by omega)
      have hmb : m % b < b := Nat.mod_lt m (by omega)
      have hmod := digitChar_inj (n % b) (by omega) (m % b) (by omega)
        (List.singleton_inj.mp hr)
      rw [← Nat.div_add_mod n b, ← Nat.div_add_mod m b, hdiv, hmod]

theorem exists_digit_of_mem (hb : 1 < b) (hc : c ∈ Nat.toDigits b n) :
    ∃ d < b, c = Nat.digitChar d := by
  induction n using Nat.strongRecOn with
  | _ n ih =>
    rw [Nat.toDigits_eq_if hb] at hc
    split_ifs at hc with hn
    · exact ⟨n, hn, List.mem_singleton.mp hc⟩
    · rcases List.mem_append.mp hc with hc | hc
      · exact ih (n / b) (Nat.div_lt_self (by omega) hb) hc
      · exact ⟨n % b, Nat.mod_lt n (by omega), List.mem_singleton.mp hc⟩

/-- A character that is no digit is in no numeral. -/
theorem notMem_toDigits (hb : 1 < b) (hb' : b ≤ 16) (hc : ∀ d < 16, Nat.digitChar d ≠ c) :
    c ∉ Nat.toDigits b n := by
  intro h
  obtain ⟨d, hd, rfl⟩ := exists_digit_of_mem hb h
  exact hc d (by omega) rfl

theorem toList_repr_ofNat (n : ℕ) : (Int.repr n).toList = Nat.toDigits 10 n :=
  Nat.toList_repr

theorem toList_repr_negSucc (n : ℕ) :
    (Int.repr (.negSucc n)).toList = '-' :: Nat.toDigits 10 (n + 1) := by
  rw [Int.repr, String.toList_append, Nat.toList_repr]
  rfl

/-- Signed decimals determine their numbers. -/
theorem repr_inj {x y : ℤ} (h : x.repr.toList = y.repr.toList) : x = y := by
  have hminus : ∀ n, '-' ∉ Nat.toDigits 10 n :=
    fun n => notMem_toDigits (by decide) (by decide) (by decide)
  cases x with
  | ofNat n =>
    cases y with
    | ofNat m =>
      rw [Int.ofNat_eq_natCast, Int.ofNat_eq_natCast, toList_repr_ofNat, toList_repr_ofNat] at h
      rw [toDigits_inj (by decide) (by decide) h]
    | negSucc m =>
      rw [Int.ofNat_eq_natCast, toList_repr_ofNat, toList_repr_negSucc] at h
      exact absurd (h ▸ List.mem_cons_self) (hminus n)
  | negSucc n =>
    cases y with
    | ofNat m =>
      rw [Int.ofNat_eq_natCast, toList_repr_ofNat, toList_repr_negSucc] at h
      exact absurd (h ▸ List.mem_cons_self) (hminus m)
    | negSucc m =>
      rw [toList_repr_negSucc, toList_repr_negSucc] at h
      have hnm := toDigits_inj (by decide) (by decide) (List.cons.inj h).2
      rw [Nat.succ.inj hnm]

theorem notMem_repr (hc : ∀ d < 16, Nat.digitChar d ≠ c) (hminus : c ≠ '-') (x : ℤ) :
    c ∉ x.repr.toList := by
  cases x with
  | ofNat n =>
    rw [Int.ofNat_eq_natCast, toList_repr_ofNat]
    exact notMem_toDigits (by decide) (by decide) hc
  | negSucc n =>
    rw [toList_repr_negSucc, List.mem_cons, not_or]
    exact ⟨hminus, notMem_toDigits (by decide) (by decide) hc⟩

end Numerals
end Lib.Text

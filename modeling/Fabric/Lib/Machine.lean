import Mathlib.Data.Fintype.Pigeonhole
import Mathlib.Data.List.Basic
import Mathlib.Tactic.Common

/-! Deterministic machines with faults. A machine runs while `running` holds; a
step either yields the next state or a fault. `Seg` records a finite piece of a
run with one observation for each executed state. -/
namespace Lib

/-- A deterministic machine over states `σ` with faults `ε`. -/
structure Machine (σ ε : Type*) where
  running : σ → Bool
  step : σ → Except ε σ

namespace Machine
variable {σ τ ε β : Type*} (M : Machine σ ε)

/-- At most `n` steps. A state that no longer runs stays as it is. -/
def iter : ℕ → σ → Except ε σ
  | 0, s => .ok s
  | n + 1, s => if M.running s then M.step s >>= iter n else .ok s

/-- The run from `s` comes to rest in `t`. -/
def Halts (s t : σ) : Prop := ∃ n, M.iter n s = .ok t ∧ M.running t = false

/-- The machine goes from `s` to `t`, executing states that satisfy `Q` and are
observed as `tr`. -/
inductive Seg (obs : σ → β) (Q : σ → Prop) : σ → List β → σ → Prop
  | nil (s : σ) : Seg obs Q s [] s
  | cons {s u t : σ} {tr : List β} : M.running s = true → Q s → M.step s = .ok u →
      Seg obs Q u tr t → Seg obs Q s (obs s :: tr) t

variable {M} {obs : σ → β} {Q : σ → Prop} {s u t : σ} {tr tr' : List β}

@[simp] theorem iter_zero (s : σ) : M.iter 0 s = .ok s := rfl

theorem iter_of_not_running (h : M.running s = false) (n : ℕ) : M.iter n s = .ok s := by
  cases n <;> simp [iter, h]

theorem iter_succ_of_step (hr : M.running s = true) (hs : M.step s = .ok u) (n : ℕ) :
    M.iter (n + 1) s = M.iter n u := by
  simp only [iter, hr, if_true, hs]
  rfl

/-- Executing `m + n` steps is executing `m` steps and then `n`. -/
theorem iter_add (m n : ℕ) (s : σ) : M.iter (m + n) s = M.iter m s >>= M.iter n := by
  induction m generalizing s with
  | zero => rw [Nat.zero_add]; rfl
  | succ m ih =>
    rw [Nat.succ_add]
    cases hr : M.running s with
    | false => simp only [iter_of_not_running hr]; exact (iter_of_not_running hr n).symm
    | true =>
      simp only [iter, hr, if_true]
      cases hs : M.step s with
      | error e => rfl
      | ok u => exact ih u

/-- One more step after `n` steps that ended in a running state. -/
theorem iter_succ_of_iter {n : ℕ} (h : M.iter n s = .ok u) (hr : M.running u = true) :
    M.iter (n + 1) s = M.step u := by
  rw [iter_add, h]
  change (if M.running u then M.step u >>= M.iter 0 else .ok u) = M.step u
  rw [hr, if_pos rfl]
  cases M.step u <;> rfl

/-- What holds at the start and is kept by every step holds wherever the run gets. -/
theorem iter_invariant {I : σ → Prop}
    (hstep : ∀ u v, I u → M.running u = true → M.step u = .ok v → I v) (h : I s) {n : ℕ}
    (hn : M.iter n s = .ok u) : I u := by
  induction n generalizing s with
  | zero => cases hn; exact h
  | succ n ih =>
    cases hr : M.running s with
    | false => rw [iter_of_not_running hr] at hn; cases hn; exact h
    | true =>
      cases hs : M.step s with
      | error e => simp only [iter, hr, if_true, hs] at hn; cases hn
      | ok v =>
        rw [iter_succ_of_step hr hs] at hn
        exact ih (hstep s v h hr hs) hn

/-- A run fails exactly where it gets to a state whose step fails. -/
theorem iter_eq_error_iff {n : ℕ} {e : ε} : M.iter n s = .error e ↔
    ∃ k < n, ∃ u, M.iter k s = .ok u ∧ M.running u = true ∧ M.step u = .error e := by
  constructor
  · intro h
    induction n with
    | zero => cases h
    | succ n ih =>
      rw [iter_add] at h
      cases hn : M.iter n s with
      | error e' =>
        rw [hn] at h
        cases h
        obtain ⟨k, hk, u, hu⟩ := ih hn
        exact ⟨k, by omega, u, hu⟩
      | ok u =>
        rw [← iter_add] at h
        cases hr : M.running u with
        | false =>
          rw [iter_add, hn] at h
          rw [show (Except.ok u >>= M.iter 1) = M.iter 1 u from rfl, iter_of_not_running hr] at h
          cases h
        | true => exact ⟨n, by omega, u, hn, hr, (iter_succ_of_iter hn hr).symm.trans h⟩
  · rintro ⟨k, hk, u, hu, hr, he⟩
    obtain ⟨m, rfl⟩ : ∃ m, n = k + 1 + m := ⟨n - (k + 1), by omega⟩
    rw [iter_add, iter_succ_of_iter hu hr, he]
    rfl

/-- A run that comes to rest has not failed before. -/
theorem Halts.iter_ne_error (h : M.Halts s t) {n : ℕ} {e : ε} : M.iter n s ≠ .error e := by
  obtain ⟨m, hm, hr⟩ := h
  intro hn
  have ht : M.iter (m + n) s = .ok t := by
    rw [iter_add, hm]; exact iter_of_not_running hr n
  rw [Nat.add_comm, iter_add, hn] at ht
  cases ht

theorem Halts.det {t' : σ} (h : M.Halts s t) (h' : M.Halts s t') : t = t' := by
  obtain ⟨m, hm, hr⟩ := h
  obtain ⟨n, hn, hr'⟩ := h'
  have ht : M.iter (m + n) s = .ok t := by
    rw [iter_add, hm]; exact iter_of_not_running hr n
  have ht' : M.iter (n + m) s = .ok t' := by
    rw [iter_add, hn]; exact iter_of_not_running hr' m
  rw [Nat.add_comm, ht'] at ht
  exact (Except.ok.inj ht).symm

theorem Seg.single (hr : M.running s = true) (hq : Q s) (hs : M.step s = .ok u) :
    M.Seg obs Q s [obs s] u := .cons hr hq hs (.nil u)

theorem Seg.step_of_single {b : β} (h : M.Seg obs Q s [b] t) : M.step s = .ok t := by
  cases h with
  | cons _ _ hs hnil => cases hnil; exact hs

theorem Seg.append (h : M.Seg obs Q s tr u) (h' : M.Seg obs Q u tr' t) :
    M.Seg obs Q s (tr ++ tr') t := by
  induction h with
  | nil => exact h'
  | cons hr hq hs _ ih => exact .cons hr hq hs (ih h')

/-- Less may be asked of the executed states. -/
theorem Seg.weaken {Q' : σ → Prop} (hq : ∀ s, Q s → Q' s) (h : M.Seg obs Q s tr t) :
    M.Seg obs Q' s tr t := by
  induction h with
  | nil s => exact .nil s
  | cons hr hs hst _ ih => exact .cons hr (hq _ hs) hst ih

/-- What every step that succeeds asks of its state holds of the executed states. -/
theorem Seg.of_step {Q' : σ → Prop} (hq : ∀ u v, M.step u = .ok v → Q' u)
    (h : M.Seg obs Q s tr t) : M.Seg obs Q' s tr t := by
  induction h with
  | nil s => exact .nil s
  | cons hr _ hst _ ih => exact .cons hr (hq _ _ hst) hst ih

/-- What holds of the running states of a segment holds of their observations. -/
theorem Seg.forall_obs {R : β → Prop} (hR : ∀ u, M.running u = true → R (obs u))
    (h : M.Seg obs Q s tr t) : ∀ b ∈ tr, R b := by
  induction h with
  | nil => simp
  | cons hr _ _ _ ih =>
    intro b hb
    rcases List.mem_cons.mp hb with rfl | hb
    · exact hR _ hr
    · exact ih b hb

/-- What holds at the start of a segment and is kept by every further step holds at its end. -/
theorem Seg.invariant {I : List β → σ → Prop} (h0 : I [] s)
    (hstep : ∀ tr u v, I tr u → M.running u = true → M.step u = .ok v → I (tr ++ [obs u]) v)
    (h : M.Seg obs Q s tr t) : I tr t := by
  suffices key : ∀ pre, I pre s → I (pre ++ tr) t from key [] h0
  clear h0
  induction h with
  | nil => intro pre hpre; rwa [List.append_nil]
  | cons hr _ hs _ ih =>
    intro pre hpre
    have hnext := ih (pre ++ [_]) (hstep pre _ _ hpre hr hs)
    rwa [List.append_assoc] at hnext

/-- What an invariant says of the states that step on holds of the executed states. -/
theorem Seg.of_invariant {I Q' : σ → Prop}
    (hstep : ∀ u v, I u → M.running u = true → M.step u = .ok v → I v ∧ Q' u) (h0 : I s)
    (h : M.Seg obs Q s tr t) : M.Seg obs Q' s tr t := by
  induction h with
  | nil s => exact .nil s
  | cons hr _ hs _ ih =>
    obtain ⟨hv, hq⟩ := hstep _ _ h0 hr hs
    exact .cons hr hq hs (ih hv)

theorem Seg.iter_eq (h : M.Seg obs Q s tr t) : M.iter tr.length s = .ok t := by
  induction h with
  | nil => rfl
  | cons hr _ hs _ ih => rw [List.length_cons, iter_succ_of_step hr hs]; exact ih

theorem Seg.halts (h : M.Seg obs Q s tr t) (ht : M.running t = false) : M.Halts s t :=
  ⟨tr.length, h.iter_eq, ht⟩

/-- Any run that does not fail is a segment, shorter than its steps only if it came to rest. -/
theorem exists_seg_of_iter (obs : σ → β) {n : ℕ} (h : M.iter n s = .ok t) :
    ∃ tr, M.Seg obs (fun _ => True) s tr t ∧ (M.running t = true → tr.length = n) := by
  induction n generalizing s with
  | zero => cases h; exact ⟨[], .nil _, fun _ => rfl⟩
  | succ n ih =>
    cases hr : M.running s with
    | false =>
      rw [iter_of_not_running hr] at h
      cases h
      exact ⟨[], .nil _, fun ht => absurd (hr.symm.trans ht) (by decide)⟩
    | true =>
      cases hs : M.step s with
      | error e => simp only [iter, hr, if_true, hs] at h; cases h
      | ok u =>
        rw [iter_succ_of_step hr hs] at h
        obtain ⟨tr, htr, hlen⟩ := ih h
        exact ⟨obs s :: tr, .cons hr trivial hs htr, fun ht => congrArg (· + 1) (hlen ht)⟩

/-- Along a complete segment the machine is at rest from the end on, and not before. -/
theorem Seg.at_rest_iff (h : M.Seg obs Q s tr t) (ht : M.running t = false) {n : ℕ} :
    (∃ u, M.iter n s = .ok u ∧ M.running u = false) ↔ tr.length ≤ n := by
  induction h generalizing n with
  | nil s => exact iff_of_true ⟨s, iter_of_not_running ht n, ht⟩ (Nat.zero_le n)
  | cons hr _ hs _ ih =>
    cases n with
    | zero =>
      refine iff_of_false ?_ (by simp)
      rintro ⟨u, hu, hu'⟩
      cases hu
      rw [hr] at hu'
      cases hu'
    | succ n =>
      rw [iter_succ_of_step hr hs, ih ht, List.length_cons]
      omega

/-- Two complete segments from one state agree. -/
theorem Seg.det {Q' : σ → Prop} {t' : σ} (h : M.Seg obs Q s tr t) (ht : M.running t = false)
    (h' : M.Seg obs Q' s tr' t') (ht' : M.running t' = false) : tr = tr' ∧ t = t' := by
  induction h generalizing tr' with
  | nil s =>
    cases h' with
    | nil => exact ⟨rfl, rfl⟩
    | cons hr => rw [ht] at hr; cases hr
  | cons hr _ hs _ ih =>
    cases h' with
    | nil => rw [ht'] at hr; cases hr
    | cons _ _ hs' h' =>
      rw [hs] at hs'
      cases hs'
      obtain ⟨htr, hte⟩ := ih ht h'
      exact ⟨by rw [htr], hte⟩

/-- Both computations fault alike or yield results that `R` relates. -/
def Alike (R : σ → τ → Prop) : Except ε σ → Except ε τ → Prop
  | .ok s, .ok t => R s t
  | .error e, .error e' => e = e'
  | _, _ => False

theorem Alike.ok {R : σ → τ → Prop} {x : Except ε σ} {y : Except ε τ} {s : σ} (h : Alike R x y)
    (hx : x = .ok s) : ∃ t, y = .ok t ∧ R s t := by
  rw [hx] at h
  cases y with
  | error e => exact h.elim
  | ok t => exact ⟨t, rfl, h⟩

theorem Alike.symm {R : σ → τ → Prop} {x : Except ε σ} {y : Except ε τ} (h : Alike R x y) :
    Alike (fun t s => R s t) y x := by
  cases x <;> cases y
  case error.error => exact Eq.symm h
  case error.ok | ok.error => exact h.elim
  case ok.ok => exact h

/-- What is shown of related results, given that they are the results. -/
theorem Alike.imp_ok {R R' : σ → τ → Prop} {x : Except ε σ} {y : Except ε τ} (h : Alike R x y)
    (hR : ∀ s t, x = .ok s → y = .ok t → R s t → R' s t) : Alike R' x y := by
  cases x <;> cases y
  case error.error => exact h
  case error.ok | ok.error => exact h.elim
  case ok.ok => exact hR _ _ rfl rfl h

theorem Alike.imp {R R' : σ → τ → Prop} (hR : ∀ s t, R s t → R' s t) {x : Except ε σ}
    {y : Except ε τ} (h : Alike R x y) : Alike R' x y := h.imp_ok fun s t _ _ => hR s t

theorem Alike.map {α β : Type*} {R : σ → τ → Prop} {R' : α → β → Prop} {x : Except ε σ}
    {y : Except ε τ} (h : Alike R x y) {f : σ → α} {g : τ → β}
    (hR : ∀ s t, R s t → R' (f s) (g t)) : Alike R' (x.map f) (y.map g) := by
  cases x <;> cases y
  case error.error => exact h
  case error.ok | ok.error => exact h.elim
  case ok.ok => exact hR _ _ h

/-- Both computations yield the same result, or both fail, not always alike. -/
def SameOutcome (x y : Except ε σ) : Prop := ∀ t, x = .ok t ↔ y = .ok t

namespace SameOutcome
variable {x y z : Except ε σ}

theorem refl (x : Except ε σ) : SameOutcome x x := fun _ => Iff.rfl

theorem symm (h : SameOutcome x y) : SameOutcome y x := fun t => (h t).symm

theorem trans (h : SameOutcome x y) (h' : SameOutcome y z) : SameOutcome x z :=
  fun t => (h t).trans (h' t)

theorem error (e e' : ε) : SameOutcome (.error e : Except ε σ) (.error e') := by
  intro t
  constructor
  · intro h
    cases h
  · intro h
    cases h

/-- The same outcomes lead on to the same outcomes. -/
theorem bind (h : SameOutcome x y) (f : σ → Except ε σ) : SameOutcome (x >>= f) (y >>= f) := by
  intro t
  cases x with
  | ok u => rw [(h u).mp rfl]
  | error e =>
    cases y with
    | ok u => cases (h u).mpr rfl
    | error e' => exact error e e' t

/-- A failure stays one under the other computation. -/
theorem exists_error (h : SameOutcome x y) {e : ε} (hx : x = .error e) : ∃ e', y = .error e' := by
  cases y with
  | error e' => exact ⟨e', rfl⟩
  | ok t => cases hx.symm.trans ((h t).mpr rfl)

end SameOutcome

section Lockstep
variable {N : Machine τ ε} {R : σ → τ → Prop} {s' t' : τ}

/-- Machines whose related states run together, and step alike wherever the runs
get, have runs that stay related. -/
theorem alike_iter (hrun : ∀ u u', R u u' → M.running u = N.running u')
    (hstep : ∀ k u u', M.iter k s = .ok u → N.iter k s' = .ok u' → R u u' →
      M.running u = true → Alike R (M.step u) (N.step u'))
    (h : R s s') (n : ℕ) : Alike R (M.iter n s) (N.iter n s') := by
  induction n generalizing s s' with
  | zero => exact h
  | succ n ih =>
    cases hr : M.running s with
    | false =>
      rw [iter_of_not_running hr, iter_of_not_running ((hrun s s' h).symm.trans hr)]
      exact h
    | true =>
      have hr' : N.running s' = true := (hrun s s' h).symm.trans hr
      have hs := hstep 0 s s' rfl rfl h hr
      simp only [iter, hr, hr', if_true]
      cases hu : M.step s <;> cases hu' : N.step s' <;> rw [hu, hu'] at hs
      case error.error => exact hs
      case error.ok | ok.error => exact hs.elim
      case ok.ok u u' =>
        refine ih (fun k v v' hk hk' => hstep (k + 1) v v' ?_ ?_) hs
        · rw [iter_succ_of_step hr hu]
          exact hk
        · rw [iter_succ_of_step hr' hu']
          exact hk'

/-- Runs that stay related step alike wherever they get. -/
theorem alike_step (hrun : ∀ u u', R u u' → M.running u = N.running u')
    (h : ∀ n, Alike R (M.iter n s) (N.iter n s')) {k : ℕ} (hk : M.iter k s = .ok u)
    (hr : M.running u = true) :
    ∃ u', N.iter k s' = .ok u' ∧ R u u' ∧ Alike R (M.step u) (N.step u') := by
  obtain ⟨u', hu', hR⟩ := (h k).ok hk
  have hnext := h (k + 1)
  rw [iter_succ_of_iter hk hr, iter_succ_of_iter hu' ((hrun u u' hR).symm.trans hr)] at hnext
  exact ⟨u', hu', hR, hnext⟩

/-- Runs that stay related come to rest together. -/
theorem alike_halts (hrun : ∀ u u', R u u' → M.running u = N.running u')
    (h : ∀ n, Alike R (M.iter n s) (N.iter n s')) (ht : M.Halts s t) :
    ∃ t', N.Halts s' t' ∧ R t t' := by
  obtain ⟨n, hn, hr⟩ := ht
  obtain ⟨t', ht', hR⟩ := (h n).ok hn
  exact ⟨t', ⟨n, ht', (hrun t t' hR).symm.trans hr⟩, hR⟩

/-- A machine that does what another does while that runs gets to where its run gets. -/
theorem Seg.follow (hstep : ∀ u u', R u u' → M.running u = true →
      N.running u' = true ∧ Alike R (M.step u) (N.step u'))
    (h : M.Seg obs Q s tr t) (hs : R s s') : ∃ t', N.iter tr.length s' = .ok t' ∧ R t t' := by
  induction h generalizing s' with
  | nil => exact ⟨s', rfl, hs⟩
  | cons hr _ hu _ ih =>
    obtain ⟨hr', hstep'⟩ := hstep _ s' hs hr
    obtain ⟨u', hu', hR⟩ := hstep'.ok hu
    obtain ⟨t', ht', hRt⟩ := ih hR
    exact ⟨t', by rw [List.length_cons, iter_succ_of_step hr' hu']; exact ht', hRt⟩

/-- It also fails where that fails. -/
theorem iter_error_follow (hstep : ∀ u u', R u u' → M.running u = true →
      N.running u' = true ∧ Alike R (M.step u) (N.step u'))
    {n : ℕ} {e : ε} (h : M.iter n s = .error e) (hs : R s s') : N.iter n s' = .error e := by
  induction n generalizing s s' with
  | zero => cases h
  | succ n ih =>
    cases hr : M.running s with
    | false => rw [iter_of_not_running hr] at h; cases h
    | true =>
      obtain ⟨hr', hstep'⟩ := hstep s s' hs hr
      simp only [iter, hr, hr', if_true] at h ⊢
      cases hu : M.step s <;> cases hu' : N.step s' <;> rw [hu, hu'] at hstep' <;> rw [hu] at h
      case error.error =>
        cases h
        exact congrArg Except.error (Eq.symm hstep')
      case error.ok | ok.error => exact hstep'.elim
      case ok.ok => exact ih h hstep'

end Lockstep

/-- How a run ends: at rest in a state, or failing. -/
def Ends (M : Machine σ ε) (s : σ) : Option σ → Prop
  | some t => M.Halts s t
  | none => ∃ n e, M.iter n s = .error e

section Checkpoint
variable {N : Machine σ ε} {I : σ → Prop} {a : ℕ} {o : Option σ}

/-- A run goes on from where its first steps lead. -/
theorem Ends.of_iter (h : M.iter a s = .ok u) (hu : M.Ends u o) : M.Ends s o := by
  cases o with
  | some t =>
    obtain ⟨n, hn, ht⟩ := hu
    exact ⟨a + n, by rw [iter_add, h]; exact hn, ht⟩
  | none =>
    obtain ⟨n, e, hn⟩ := hu
    exact ⟨a + n, e, by rw [iter_add, h]; exact hn⟩

theorem Ends.of_error {e : ε} (h : M.iter a s = .error e) : M.Ends s none := ⟨a, e, h⟩

/-- The first steps of a run that ends fail, or lead to a state from which it ends later. -/
theorem ends_after {n : ℕ} {x : Except ε σ} (hx : M.iter n s = x)
    (hrest : ∀ t, x = .ok t → M.running t = false) (ha : 0 < a) (hr : M.running s = true) :
    (∃ e, M.iter a s = .error e ∧ ∃ e', x = .error e') ∨
      ∃ v m, M.iter a s = .ok v ∧ m < n ∧ M.iter m v = x := by
  rcases Nat.le_total a n with han | hna
  · obtain ⟨m, rfl⟩ : ∃ m, n = a + m := ⟨n - a, by omega⟩
    rw [iter_add] at hx
    cases hv : M.iter a s with
    | error e => rw [hv] at hx; exact Or.inl ⟨e, rfl, e, hx.symm⟩
    | ok v => rw [hv] at hx; exact Or.inr ⟨v, m, rfl, by omega, hx⟩
  · obtain ⟨m, rfl⟩ : ∃ m, a = n + m := ⟨a - n, by omega⟩
    rw [iter_add, hx]
    cases x with
    | error e => exact Or.inl ⟨e, rfl, e, rfl⟩
    | ok t =>
      have ht := hrest t rfl
      have hn : n ≠ 0 := by
        rintro rfl
        cases hx
        rw [hr] at ht
        cases ht
      exact Or.inr ⟨t, 0, iter_of_not_running ht m, by omega, rfl⟩

/-- Both machines run from one checkpoint to the next, in `a` and in `b` steps. -/
structure Checkpoints (M N : Machine σ ε) (I : σ → Prop) (u : σ) (a b : ℕ) : Prop where
  pos : 0 < a
  pos' : 0 < b
  same : SameOutcome (M.iter a u) (N.iter b u)
  next : ∀ v, M.iter a u = .ok v → I v

theorem Checkpoints.symm {b : ℕ} (h : Checkpoints M N I u a b) : Checkpoints N M I u b a :=
  ⟨h.pos', h.pos, h.same.symm, fun v hv => h.next v ((h.same v).mpr hv)⟩

theorem ends_of_checkpoints (hrun : ∀ u, I u → M.running u = N.running u)
    (h : ∀ u, I u → M.running u = true → ∃ a b, Checkpoints M N I u a b) (hs : I s)
    (ho : M.Ends s o) : N.Ends s o := by
  have key : ∀ n x u, I u → M.iter n u = x → (∀ t, x = .ok t → M.running t = false) →
      N.Ends u x.toOption := by
    intro n
    induction n using Nat.strongRecOn with
    | ind n ih =>
      intro x u hu hx hrest
      cases hr : M.running u with
      | false =>
        rw [iter_of_not_running hr] at hx
        cases hx
        exact ⟨0, rfl, (hrun u hu).symm.trans hr⟩
      | true =>
        obtain ⟨a, b, hc⟩ := h u hu hr
        rcases ends_after hx hrest hc.pos hr with ⟨e, he, e', rfl⟩ | ⟨v, m, hv, hm, hx⟩
        · obtain ⟨e'', he''⟩ := hc.same.exists_error he
          exact .of_error he''
        · exact .of_iter ((hc.same v).mp hv) (ih m hm x v (hc.next v hv) hx hrest)
  cases o with
  | some t =>
    obtain ⟨n, hn, ht⟩ := ho
    exact key n _ s hs hn fun t' ht' => by cases ht'; exact ht
  | none =>
    obtain ⟨n, e, hn⟩ := ho
    exact key n _ s hs hn fun t' ht' => by cases ht'

/-- Machines that reach the same states from checkpoint to checkpoint, or both fail on the
way, end alike. -/
theorem ends_iff_of_checkpoints (hrun : ∀ u, I u → M.running u = N.running u)
    (h : ∀ u, I u → M.running u = true → ∃ a b, Checkpoints M N I u a b) (hs : I s) :
    M.Ends s o ↔ N.Ends s o := by
  constructor
  · exact ends_of_checkpoints hrun h hs
  · refine ends_of_checkpoints (fun u hu => (hrun u hu).symm) (fun u hu hr => ?_) hs
    obtain ⟨a, b, hc⟩ := h u hu ((hrun u hu).trans hr)
    exact ⟨b, a, hc.symm⟩

end Checkpoint

/-- Every state that a complete segment executes satisfies its predicate. -/
theorem Seg.forall_iter (h : M.Seg obs Q s tr t) (ht : M.running t = false) {n : ℕ}
    (hn : M.iter n s = .ok u) (hu : M.running u = true) : Q u := by
  induction h generalizing n with
  | nil s =>
    rw [iter_of_not_running ht] at hn
    cases hn
    rw [ht] at hu
    cases hu
  | cons hr hq hs _ ih =>
    cases n with
    | zero => cases hn; exact hq
    | succ n => rw [iter_succ_of_step hr hs] at hn; exact ih ht hn

section Recurrence
variable {κ : Type*} {key : σ → κ} {I : σ → Prop} {m n : ℕ}

/-- The run from `s` never ends: it neither comes to rest nor fails. -/
def RunsForever (M : Machine σ ε) (s : σ) : Prop :=
  ∀ n, ∃ t, M.iter n s = .ok t ∧ M.running t = true

/-- What a run has got to by `n` steps it has got to on the way. -/
theorem exists_iter_of_le (h : M.iter n s = .ok t) (ht : M.running t = true) (hm : m ≤ n) :
    ∃ u, M.iter m s = .ok u ∧ M.running u = true ∧ M.iter (n - m) u = .ok t := by
  rw [← Nat.add_sub_cancel' hm, iter_add] at h
  cases hu : M.iter m s with
  | error e => rw [hu] at h; cases h
  | ok u =>
    rw [hu] at h
    refine ⟨u, rfl, ?_, h⟩
    by_contra hr
    rw [Bool.not_eq_true] at hr
    have hrest := iter_of_not_running (M := M) hr (n - m)
    cases hrest.symm.trans h
    exact absurd ht (by rw [hr]; decide)

/-- States of one key that `I` holds of go on alike, so a run that comes back to a key has
come into a loop. -/
theorem runsForever_of_recurs
    (hkey : ∀ u v, I u → I v → key u = key v → M.running u = M.running v ∧
      Alike (fun u' v' => I u' ∧ I v' ∧ key u' = key v') (M.step u) (M.step v))
    (hmn : m < n) (hu : M.iter m s = .ok u) (ht : M.iter n s = .ok t)
    (hr : M.running u = true) (hIu : I u) (hIt : I t) (hk : key u = key t) :
    M.RunsForever s := by
  have halike : ∀ k, Alike (fun u' v' => I u' ∧ I v' ∧ key u' = key v') (M.iter k u)
      (M.iter k t) := by
    intro k
    refine alike_iter ?_ ?_ ⟨hIu, hIt, hk⟩ k
    · rintro u' v' ⟨hu', hv', hk'⟩
      exact (hkey u' v' hu' hv' hk').1
    · rintro - u' v' - - ⟨hu', hv', hk'⟩ -
      exact (hkey u' v' hu' hv' hk').2
  have hrt : M.running t = true := (hkey u t hIu hIt hk).1 ▸ hr
  have hloop : M.iter (n - m) u = .ok t := by
    obtain ⟨u', hu', -, hiter⟩ := exists_iter_of_le ht hrt hmn.le
    cases hu'.symm.trans hu
    exact hiter
  -- within the first round the run is on its way to `t`, later it repeats what it did before
  have hforever : ∀ k, ∃ v, M.iter k u = .ok v ∧ M.running v = true := by
    intro k
    induction k using Nat.strong_induction_on with
    | _ k ih =>
      by_cases hk' : k ≤ n - m
      · obtain ⟨v, hv, hrv, -⟩ := exists_iter_of_le hloop hrt hk'
        exact ⟨v, hv, hrv⟩
      · obtain ⟨v, hv, hrv⟩ := ih (k - (n - m)) (by omega)
        obtain ⟨v', hv', hIv, hIv', hkv⟩ := (halike (k - (n - m))).ok hv
        refine ⟨v', ?_, (hkey v v' hIv hIv' hkv).1 ▸ hrv⟩
        rw [← Nat.add_sub_cancel' (not_le.mp hk').le, iter_add, hloop]
        exact hv'
  intro k
  by_cases hk' : k ≤ m
  · obtain ⟨v, hv, hrv, -⟩ := exists_iter_of_le hu hr hk'
    exact ⟨v, hv, hrv⟩
  · obtain ⟨v, hv, hrv⟩ := hforever (k - m)
    refine ⟨v, ?_, hrv⟩
    rw [← Nat.add_sub_cancel' (not_le.mp hk').le, iter_add, hu]
    exact hv

/-- With finitely many keys a run that never ends comes back to one. -/
theorem RunsForever.recurs [Finite κ] (h : M.RunsForever s) (key : σ → κ) :
    ∃ m n u t, m < n ∧ M.iter m s = .ok u ∧ M.iter n s = .ok t ∧ M.running u = true ∧
      key u = key t := by
  choose state hstate hrunning using h
  obtain ⟨m, n, hne, hk⟩ := Finite.exists_ne_map_eq_of_infinite fun n => key (state n)
  rcases lt_or_gt_of_ne hne with hlt | hlt
  · exact ⟨m, n, _, _, hlt, hstate m, hstate n, hrunning m, hk⟩
  · exact ⟨n, m, _, _, hlt, hstate n, hstate m, hrunning n, hk.symm⟩

end Recurrence
section Ranking
variable {κ : Type*} [LT κ] [WellFoundedLT κ] {I : σ → Prop} {rank : σ → κ}

/-- A rank that every step lowers leaves no way but to come to rest or to fail. -/
theorem halts_or_fails_of_rank
    (hstep : ∀ u v, I u → M.running u = true → M.step u = .ok v → I v ∧ rank v < rank u)
    (h : I s) : (∃ t, M.Halts s t) ∨ ∃ n e, M.iter n s = .error e := by
  generalize hr : rank s = r
  induction r using WellFoundedLT.induction generalizing s with
  | ind r ih =>
    cases hrun : M.running s with
    | false => exact Or.inl ⟨s, 0, rfl, hrun⟩
    | true =>
      cases hs : M.step s with
      | error e =>
        refine Or.inr ⟨1, e, ?_⟩
        simp only [iter, hrun, if_true, hs]
        rfl
      | ok v =>
        obtain ⟨hv, hlt⟩ := hstep s v h hrun hs
        rcases ih (rank v) (hr ▸ hlt) hv rfl with ⟨t, n, hn, ht⟩ | ⟨n, e, hn⟩
        · exact Or.inl ⟨t, n + 1, (iter_succ_of_step hrun hs n).trans hn, ht⟩
        · exact Or.inr ⟨n + 1, e, (iter_succ_of_step hrun hs n).trans hn⟩

end Ranking

end Machine
end Lib

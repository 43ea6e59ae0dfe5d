import Mathlib.Algebra.BigOperators.Group.Finset.Basic
import Mathlib.Algebra.Order.BigOperators.Group.Finset
import Mathlib.Data.Fintype.BigOperators
import Mathlib.Order.WellFounded

/-!
# Labelled state machines

* `Machine` — initial states and a partial step function; the label resolves every choice.
* `Machine.ReachBy ok` — the states reached by steps that all meet a guard; `Machine.Reach` has
  no guard.
* `Machine.Path` — the same with the list of steps taken.
* `Machine.exec`, `Machine.execBy` — run a list of labels, the second under a guard.
* `Machine.Endless` — runs without end.

Principal results: `ReachBy.invariant` (the induction rule), `ReachBy.simulate` (steps of one
machine are steps or stutters of another), `ReachBy.complete` (runs come to an end),
`Endless.recurs` and `not_endless` (what goes on for ever in a run without end, and that there is
none), `Path.forall_iff` (a property of all states of a run against a guard on all its steps) and
`Path.length_le` (the length of a run by a potential).
-/

set_option autoImplicit false

/-- A state machine whose steps are selected by a label. -/
structure Machine (σ ι : Type*) where
  init : σ → Prop
  next : σ → ι → Option σ

namespace Machine

variable {σ ι τ κ : Type*}

/-- States reached by steps that all meet `ok`. -/
inductive ReachBy (M : Machine σ ι) (ok : σ → ι → Prop) : σ → Prop
  | init {s : σ} (h : M.init s) : ReachBy M ok s
  | step {s s' : σ} {a : ι} (hs : ReachBy M ok s) (hok : ok s a) (h : M.next s a = some s') :
      ReachBy M ok s'

/-- Reachable states. -/
abbrev Reach (M : Machine σ ι) : σ → Prop := M.ReachBy fun _ _ => True

variable {M : Machine σ ι} {ok ok' : σ → ι → Prop}

/-- **Invariant rule.** -/
theorem ReachBy.invariant {motive : σ → Prop} (h0 : ∀ s, M.init s → motive s)
    (hstep : ∀ s a s', motive s → ok s a → M.next s a = some s' → motive s') {s : σ}
    (h : M.ReachBy ok s) : motive s := by
  induction h with
  | init h => exact h0 _ h
  | step _ hok h ih => exact hstep _ _ _ ih hok h

theorem ReachBy.mono (himp : ∀ s a, M.ReachBy ok s → ok s a → ok' s a) {s : σ}
    (h : M.ReachBy ok s) : M.ReachBy ok' s := by
  induction h with
  | init h => exact .init h
  | step hs hok h ih => exact .step ih (himp _ _ hs hok) h

/-- **Simulation rule**: if every step maps to a step of `N` or to no change, reachable states
map to reachable states. -/
theorem ReachBy.simulate {N : Machine τ κ} {okN : τ → κ → Prop} (f : σ → τ)
    (h0 : ∀ s, M.init s → N.init (f s))
    (hstep : ∀ s a s', M.ReachBy ok s → N.ReachBy okN (f s) → ok s a → M.next s a = some s' →
      f s' = f s ∨ ∃ b, okN (f s) b ∧ N.next (f s) b = some (f s')) {s : σ}
    (h : M.ReachBy ok s) : N.ReachBy okN (f s) := by
  induction h with
  | init h => exact .init (h0 _ h)
  | step hs hok h ih =>
    rcases hstep _ _ _ hs ih hok h with heq | ⟨b, hb, hN⟩
    · rw [heq]; exact ih
    · exact .step ih hb hN

/-- **Completion rule**: if every state that is not an end has a guarded step down a well-founded
relation, some end is reached. -/
theorem ReachBy.complete {r : σ → σ → Prop} (hwf : WellFounded r) {End : σ → Prop}
    (hstep : ∀ s, M.ReachBy ok s → ¬ End s → ∃ a s', ok s a ∧ M.next s a = some s' ∧ r s' s) {s : σ}
    (h : M.ReachBy ok s) : ∃ s', M.ReachBy ok s' ∧ End s' := by
  induction s using hwf.induction with
  | _ s ih =>
    by_cases hend : End s
    · exact ⟨s, h, hend⟩
    · obtain ⟨a, s', hok, hnext, hr⟩ := hstep s h hend
      exact ih s' hr (.step h hok hnext)

/-- A run without end whose steps all meet `ok`. -/
structure Endless (M : Machine σ ι) (ok : σ → ι → Prop) (run : Nat → σ) : Prop where
  init : M.init (run 0)
  step : ∀ n, ∃ a, ok (run n) a ∧ M.next (run n) a = some (run (n + 1))

theorem Endless.reachBy {run : Nat → σ} (h : M.Endless ok run) : ∀ n, M.ReachBy ok (run n)
  | 0 => .init h.init
  | n + 1 => by
    obtain ⟨a, hok, hnext⟩ := h.step n
    exact .step (h.reachBy n) hok hnext

/-- **Recurrence rule**: if every guarded step that is not `bad` goes down a well-founded relation,
a run without end has steps beyond every point that are `bad` under whatever label they are
taken. -/
theorem Endless.recurs {r : σ → σ → Prop} (hwf : WellFounded r) {bad : σ → ι → Prop}
    (hstep : ∀ s a s', M.ReachBy ok s → ok s a → M.next s a = some s' → bad s a ∨ r s' s)
    {run : Nat → σ} (h : M.Endless ok run) (n : Nat) :
    ∃ k, n ≤ k ∧ ∀ a, ok (run k) a → M.next (run k) a = some (run (k + 1)) → bad (run k) a := by
  by_contra hno
  push Not at hno
  have hdown : ∀ i, r (run (n + (i + 1))) (run (n + i)) := by
    intro i
    obtain ⟨a, hok, hnext, hgood⟩ := hno (n + i) (Nat.le_add_right n i)
    exact (hstep _ _ _ (h.reachBy _) hok hnext).resolve_left hgood
  exact (wellFounded_iff_isEmpty_descending_chain.mp hwf).false ⟨fun i => run (n + i), hdown⟩

/-- **Termination rule**: if every guarded step goes down a well-founded relation, no guarded run
is without end. -/
theorem not_endless {r : σ → σ → Prop} (hwf : WellFounded r)
    (hstep : ∀ s a s', M.ReachBy ok s → ok s a → M.next s a = some s' → r s' s) (run : Nat → σ) :
    ¬ M.Endless ok run := by
  intro h
  have hdown : ∀ s a s', M.ReachBy ok s → ok s a → M.next s a = some s' → False ∨ r s' s :=
    fun s a s' hs hok hnext => Or.inr (hstep s a s' hs hok hnext)
  obtain ⟨k, -, hbad⟩ := h.recurs hwf hdown 0
  obtain ⟨a, hok, hnext⟩ := h.step k
  exact hbad a hok hnext

/-! ## Runs -/

/-- A run from an initial state with the steps taken, first step first. -/
inductive Path (M : Machine σ ι) : List (σ × ι) → σ → Prop
  | init {s : σ} (h : M.init s) : Path M [] s
  | step {tr : List (σ × ι)} {s s' : σ} {a : ι} (hp : Path M tr s) (h : M.next s a = some s') :
      Path M (tr ++ [(s, a)]) s'

theorem Path.reachBy {tr : List (σ × ι)} {s : σ} (h : M.Path tr s)
    (hok : ∀ p ∈ tr, ok p.1 p.2) : M.ReachBy ok s := by
  induction h with
  | init h => exact .init h
  | step _ h ih =>
    exact .step (ih fun p hp => hok p (List.mem_append_left _ hp))
      (hok _ (List.mem_append_right _ (List.mem_singleton_self _))) h

/-- **A property of every state against a guard on every step**: when initial states are good
and a guarded run stays good exactly as long as its next step is guarded, a run visits only
good states iff all its steps are guarded. -/
theorem Path.forall_iff {Good : σ → Prop} (h0 : ∀ s, M.init s → Good s)
    (hstep : ∀ s a s', M.ReachBy ok s → M.next s a = some s' → (Good s' ↔ ok s a))
    {tr : List (σ × ι)} {s : σ} (h : M.Path tr s) :
    ((∀ p ∈ tr, Good p.1) ∧ Good s) ↔ ∀ p ∈ tr, ok p.1 p.2 := by
  induction h with
  | init h => simpa using h0 _ h
  | @step tr s s' a hp h ih =>
    simp only [List.mem_append, List.mem_singleton]
    constructor
    · rintro ⟨hgood, hs'⟩
      have hok := ih.mp ⟨fun p hp => hgood p (Or.inl hp), hgood (s, a) (Or.inr rfl)⟩
      rintro p (hp' | rfl)
      · exact hok p hp'
      · exact (hstep s a s' (hp.reachBy hok) h).mp hs'
    · intro hok
      have hpre : ∀ p ∈ tr, ok p.1 p.2 := fun p hp' => hok p (Or.inl hp')
      obtain ⟨hgood, hs⟩ := ih.mpr hpre
      refine ⟨?_, (hstep s a s' (hp.reachBy hpre) h).mpr (hok (s, a) (Or.inr rfl))⟩
      rintro p (hp' | rfl)
      · exact hgood p hp'
      · exact hs

/-- **Cost rule**: a step lowers the potential by one, but those of two kinds may raise it by less
than `i` and `j`. -/
theorem Path.length_le {f : σ → Nat} {p q : σ × ι → Bool} {i j b : Nat}
    (h0 : ∀ s, M.init s → f s ≤ b)
    (hstep : ∀ s a s', M.Reach s → M.next s a = some s' →
      f s' + 1 ≤ f s + i * (p (s, a)).toNat + j * (q (s, a)).toNat)
    {tr : List (σ × ι)} {s : σ} (h : M.Path tr s) :
    tr.length + f s ≤ b + i * tr.countP p + j * tr.countP q := by
  induction h with
  | init h =>
    have hb := h0 _ h
    simpa using hb
  | @step tr s s' a hp h ih =>
    have hcost := hstep s a s' (hp.reachBy fun _ _ => trivial) h
    have hone : ∀ r : σ × ι → Bool, (tr ++ [(s, a)]).countP r = tr.countP r + (r (s, a)).toNat := by
      intro r
      rw [List.countP_append, List.countP_singleton]
      cases r (s, a) <;> rfl
    rw [hone, hone, List.length_append, List.length_singleton, Nat.mul_add, Nat.mul_add]
    omega

/-- Run a list of labels. -/
def exec (M : Machine σ ι) : σ → List ι → Option σ
  | s, [] => some s
  | s, a :: as => (M.next s a).bind fun s' => M.exec s' as

theorem reach_exec : ∀ {as : List ι} {s s' : σ}, M.Reach s → M.exec s as = some s' → M.Reach s'
  | [], s, s', hs, h => by cases h; exact hs
  | a :: as, s, s', hs, h => by
    obtain ⟨t, ht, h⟩ := Option.bind_eq_some_iff.mp h
    exact reach_exec (.step hs trivial ht) h

/-- Run a list of labels as long as the guard is met. -/
def execBy (M : Machine σ ι) (ok : σ → ι → Prop) [∀ s a, Decidable (ok s a)] :
    σ → List ι → Option σ
  | s, [] => some s
  | s, a :: as => if ok s a then (M.next s a).bind fun s' => M.execBy ok s' as else none

theorem reachBy_execBy [∀ s a, Decidable (ok s a)] : ∀ {as : List ι} {s s' : σ},
    M.ReachBy ok s → M.execBy ok s as = some s' → M.ReachBy ok s'
  | [], s, s', hs, h => by cases h; exact hs
  | a :: as, s, s', hs, h => by
    rw [execBy] at h
    split at h
    · rename_i hok
      obtain ⟨t, ht, h⟩ := Option.bind_eq_some_iff.mp h
      exact reachBy_execBy (.step hs hok ht) h
    · cases h

theorem path_exec : ∀ {as : List ι} {tr : List (σ × ι)} {s s' : σ}, M.Path tr s →
    M.exec s as = some s' → ∃ tr', M.Path tr' s' ∧ tr'.map Prod.snd = tr.map Prod.snd ++ as
  | [], tr, s, s', hp, h => by cases h; exact ⟨tr, hp, by simp⟩
  | a :: as, tr, s, s', hp, h => by
    obtain ⟨t, ht, h⟩ := Option.bind_eq_some_iff.mp h
    obtain ⟨tr', hp', htr'⟩ := path_exec (.step hp ht) h
    exact ⟨tr', hp', by simp [htr']⟩

end Machine

/-! ## Sums over threads -/

/-- Changing one thread's state changes a sum over threads by that thread's share. -/
theorem sum_update_add {T σ : Type*} [Fintype T] [DecidableEq T] (f : σ → Nat) (th : T → σ)
    (t : T) (x : σ) :
    (∑ u, f (Function.update th t x u)) + f (th t) = (∑ u, f (th u)) + f x := by
  have hf : (fun u => f (Function.update th t x u)) = Function.update (fun u => f (th u)) t (f x) :=
    funext fun u => by by_cases h : u = t <;> simp [h]
  rw [hf, Finset.sum_update_of_mem (Finset.mem_univ t),
    ← Finset.add_sum_erase Finset.univ (fun u => f (th u)) (Finset.mem_univ t),
    Finset.sdiff_singleton_eq_erase]
  omega

theorem le_sum_univ {T : Type*} [Fintype T] (f : T → Nat) (t : T) : f t ≤ ∑ u, f u :=
  Finset.single_le_sum (fun _ _ => Nat.zero_le _) (Finset.mem_univ t)

theorem add_le_sum_univ {T : Type*} [Fintype T] [DecidableEq T] (f : T → Nat) {t u : T}
    (h : u ≠ t) : f u + f t ≤ ∑ v, f v := by
  rw [← Finset.add_sum_erase _ f (Finset.mem_univ t), Nat.add_comm]
  exact Nat.add_le_add_left (Finset.single_le_sum (fun _ _ => Nat.zero_le _)
    (Finset.mem_erase.mpr ⟨h, Finset.mem_univ u⟩)) _

/-- A 0/1 count that misses exactly one thread. -/
theorem sum_add_one_eq_card {T : Type*} [Fintype T] [DecidableEq T] {f : T → Nat} {t : T}
    (ht : f t = 0) (h : ∀ u, u ≠ t → f u = 1) : (∑ u, f u) + 1 = Fintype.card T := by
  rw [← Finset.add_sum_erase _ f (Finset.mem_univ t), ht,
    Finset.sum_congr rfl fun u hu => h u (Finset.ne_of_mem_erase hu), ← Finset.card_eq_sum_ones,
    Finset.card_erase_of_mem (Finset.mem_univ t), Finset.card_univ]
  have : 0 < Fintype.card T := Fintype.card_pos_iff.mpr ⟨t⟩
  omega

/-- If a 0/1 count over all threads misses only one thread, every other thread is counted. -/
theorem eq_one_of_sum_add_one {T : Type*} [Fintype T] [DecidableEq T] {f : T → Nat}
    (hf : ∀ u, f u ≤ 1) {t : T} (ht : f t = 0) (h : (∑ u, f u) + 1 = Fintype.card T) {u : T}
    (hu : u ≠ t) : f u = 1 := by
  by_contra hne
  have hu0 : f u = 0 := by have := hf u; omega
  have hlt : (∑ v, f v) ≤ ∑ v ∈ (Finset.univ.erase t).erase u, 1 := by
    rw [← Finset.add_sum_erase Finset.univ f (Finset.mem_univ t), ht, Nat.zero_add,
      ← Finset.add_sum_erase _ f (Finset.mem_erase.mpr ⟨hu, Finset.mem_univ u⟩), hu0, Nat.zero_add]
    exact Finset.sum_le_sum fun v _ => hf v
  rw [← Finset.card_eq_sum_ones,
    Finset.card_erase_of_mem (Finset.mem_erase.mpr ⟨hu, Finset.mem_univ u⟩),
    Finset.card_erase_of_mem (Finset.mem_univ t), Finset.card_univ] at hlt
  have : 1 < Fintype.card T := Fintype.one_lt_card_iff.mpr ⟨u, t, hu⟩
  omega

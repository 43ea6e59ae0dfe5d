import SortPlatform.Sw.Barrier

/-!
# One use of the barrier

`barrierOnce T` lets every thread of `T` call `barrier` of `src/sw/final/main.cpp` exactly once.

Principal result: `barrier_once` — nobody is stuck, no post is missing, and the objects are left
as they were found.
-/

set_option autoImplicit false

namespace SortPlatform.Sw

section Once

variable {T : Type} [Fintype T] [DecidableEq T]

/-- A thread that has returned from its call takes no further step. -/
def Barrier.nextOnce (s : Barrier T) (t : T) : Option (Barrier T) :=
  if (s.threads t).returns = 1 then none else s.next t

/-- Every thread calls `barrier` once. -/
def barrierOnce (T : Type) [Fintype T] [DecidableEq T] : Machine (Barrier T) T where
  init := (barrierMachine T).init
  next := Barrier.nextOnce

theorem nextOnce_eq_some {s s' : Barrier T} {t : T} :
    s.nextOnce t = some s' ↔ (s.threads t).returns ≠ 1 ∧ s.next t = some s' := by
  unfold Barrier.nextOnce
  split <;> simp [*]

/-- A step enters the next call or stays in the present one. -/
theorem Barrier.calls_next {s s' : Barrier T} {t : T} (h : s.next t = some s') (u : T) :
    (s'.threads u).calls =
      if u = t ∧ (s.threads t).pc = .returned then (s.threads t).calls + 1
      else (s.threads u).calls := by
  unfold Barrier.next at h
  split at h
  · rename_i hpc
    cases h
    by_cases hu : u = t
    · subst hu; simp [hpc]
    · simp [hu]
  · rename_i hpc
    obtain ⟨p, -, rfl⟩ := Option.map_eq_some_iff.mp h
    by_cases hu : u = t
    · subst hu; simp [hpc]
    · simp [hu]

/-- Nobody enters a second call. -/
theorem calls_le_one {s : Barrier T} (h : (barrierOnce T).Reach s) :
    ∀ u, (s.threads u).calls ≤ 1 := by
  refine h.invariant (motive := fun s => ∀ u, (s.threads u).calls ≤ 1) ?_ ?_
  · rintro s ⟨-, ht⟩ u
    rw [ht u]
    exact Nat.zero_le 1
  · intro s t s' hi _ hn u
    obtain ⟨hret, hn⟩ := nextOnce_eq_some.mp hn
    rw [Barrier.calls_next hn]
    split
    · rename_i hpc
      -- a thread outside its first call has not made it yet
      have h1 := hi t
      rw [BarrierThread.returns, if_pos hpc.2] at hret
      omega
    · exact hi u

/-- **With one call each nobody overtakes**: these runs are runs of `barrierMachine`. -/
theorem barrierOnce_reachBy {s : Barrier T} (h : (barrierOnce T).Reach s) :
    (barrierMachine T).ReachBy NoOvertake s := by
  refine Machine.ReachBy.simulate (M := barrierOnce T) (N := barrierMachine T) id
    (fun _ h0 => h0) ?_ h
  intro s t s' hs _ _ hn
  refine Or.inr ⟨t, fun _ u => ?_, (nextOnce_eq_some.mp hn).2⟩
  have := calls_le_one hs t
  dsimp only [id]
  omega

omit [DecidableEq T] in
/-- When everybody has returned, all balances are empty. -/
theorem Barrier.Inv.words_of_returned {s : Barrier T} {R : Nat} (hi : s.Inv R)
    (h : ∀ t, (s.threads t).pc = .returned) : s.words = ⟨1, 0, 0⟩ := by
  obtain ⟨-, hlock, hcounter, -, hsem⟩ := hi
  simp only [BarrierThread.critical, BarrierThread.arrived, BarrierThread.pending,
    BarrierThread.waiting, h, Finset.sum_const_zero, Nat.add_zero] at hlock hcounter hsem
  obtain ⟨⟨lock, sem, counter⟩, threads⟩ := s
  subst hlock hcounter hsem
  rfl

/-- Who has returned from a call is outside. -/
theorem BarrierThread.returned_of_returns {th : BarrierThread} (h1 : th.calls ≤ 1)
    (h : th.returns = 1) : th.pc = .returned := by
  by_contra hpc
  rw [BarrierThread.returns, if_neg hpc] at h
  omega

omit [DecidableEq T] in
/-- Only a thread inside `barrier` is blocked. -/
theorem Barrier.next_eq_none [DecidableEq T] {s : Barrier T} {t : T} (h : s.next t = none) :
    (s.threads t).pc ≠ .returned ∧ barrier (Fintype.card T) (s.threads t).pc s.words = none := by
  unfold Barrier.next at h
  split at h
  · cases h
  · rename_i hpc
    exact ⟨hpc, Option.map_eq_none_iff.mp h⟩

/-- **Completeness and clean-up**: when no thread can step, all have returned; when all have
returned, the objects are as before; and `*counter` stays below `thread_count`. -/
theorem barrier_once (T : Type) [Fintype T] [DecidableEq T] (hN : 1 ≤ Fintype.card T)
    (hT : Fintype.card T < 2 ^ 32) (s : Barrier T) (h : (barrierOnce T).Reach s) :
    ((∀ t, (barrierOnce T).next s t = none) → ∀ t, (s.threads t).returns = 1) ∧
      ((∀ t, (s.threads t).returns = 1) → s.words = ⟨1, 0, 0⟩) ∧
      s.words.counter < Fintype.card T := by
  obtain ⟨R, hi⟩ := barrier_inv hT (barrierOnce_reachBy h)
  have hcalls := calls_le_one h
  refine ⟨?_, ?_, ?_⟩
  · intro hstuck
    have hblocked : ∀ u, (s.threads u).returns = 1 ∨ s.next u = none := by
      intro u
      by_cases hret : (s.threads u).returns = 1
      · exact Or.inl hret
      · have hu := hstuck u
        simp only [barrierOnce, Barrier.nextOnce, if_neg hret] at hu
        exact Or.inr hu
    have hinside : ∀ u, (s.threads u).pc ≠ .returned →
        barrier (Fintype.card T) (s.threads u).pc s.words = none := by
      intro u hu
      rcases hblocked u with hret | hnone
      · exact absurd (BarrierThread.returned_of_returns (hcalls u) hret) hu
      · exact (Barrier.next_eq_none hnone).2
    by_contra hne
    obtain ⟨t, ht⟩ := not_forall.mp hne
    obtain ⟨htpc, -⟩ := Barrier.next_eq_none ((hblocked t).resolve_left ht)
    obtain ⟨u, hupc, hlt⟩ := hi.stuck hinside htpc
    -- `u` has not entered its call, so it could do so
    have h1 := hcalls t
    rcases hblocked u with hu | hu
    · rw [BarrierThread.returns, if_pos hupc] at hu
      omega
    · exact (Barrier.next_eq_none hu).1 hupc
  · intro hret
    apply hi.words_of_returned
    intro t
    exact BarrierThread.returned_of_returns (hcalls t) (hret t)
  · have := hi.counter_last
    omega

/-- Three threads; the last one to arrive releases the others. -/
theorem barrier_once_three : ∃ s : Barrier (Fin 3), (barrierOnce (Fin 3)).Reach s ∧
    (∀ t, (s.threads t).returns = 1) ∧ s.words = ⟨1, 0, 0⟩ := by
  have hinit : (barrierOnce (Fin 3)).init ⟨⟨1, 0, 0⟩, fun _ => ⟨0, .returned⟩⟩ :=
    ⟨rfl, fun _ => rfl⟩
  have hrun : ((barrierOnce (Fin 3)).exec ⟨⟨1, 0, 0⟩, fun _ => ⟨0, .returned⟩⟩
      [0, 0, 0, 0, 0, 0, 1, 1, 2, 1, 1, 1, 1, 2, 2, 2, 2, 2, 1, 2, 2, 0]).map
      (fun s => decide (∀ t, (s.threads t).returns = 1)) = some true := by decide
  obtain ⟨s, hs, hret⟩ := Option.map_eq_some_iff.mp hrun
  have hret : ∀ t, (s.threads t).returns = 1 := of_decide_eq_true hret
  have hreach := Machine.reach_exec (.init hinit) hs
  exact ⟨s, hreach, hret, (barrier_once (Fin 3) (by decide) (by decide) s hreach).2.1 hret⟩

end Once

end SortPlatform.Sw

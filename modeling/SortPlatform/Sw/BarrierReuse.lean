import SortPlatform.Sw.BarrierOnce

/-!
# The barrier used again and again

What is left of `barrier` of `src/sw/final/main.cpp` when threads run ahead of each other.

* `Barrier.Ledger` — what holds of every run of `barrierMachine`: whoever has counted itself is in
  `*counter`, has a post, or has one coming.
* `barrierTimes R T` — every thread of `T` calls `barrier` `R` times.

Principal results:

* `barrier_reuse` — without a limit to the calls, no run comes to a stop, and never have more calls
  been returned from than belong to complete rounds.
* `barrier_times_iff` — with `R` calls each, every run that stops is complete exactly when there is
  one thread or one call.
-/

set_option autoImplicit false

namespace SortPlatform.Sw

section Ledger

variable {T : Type} [Fintype T] [DecidableEq T]

/-! ## The ledger -/

namespace BarrierThread

/-- 1 while the thread has not yet counted itself, and does not close the round. -/
def early (th : BarrierThread) : Nat :=
  match th.pc with
  | .waitLock | .test | .reset | .incr | .incrStore _ => 1
  | _ => 0

/-- 1 while the thread has counted itself and has no post yet. -/
def counted (th : BarrierThread) : Nat :=
  match th.pc with
  | .unlockFirst | .waitSem => 1
  | _ => 0

/-- 1 while the thread releases the others. -/
def releasing (th : BarrierThread) : Nat :=
  match th.pc with
  | .unlockLast | .release _ => 1
  | _ => 0

/-- What a thread knows of its call and of `*counter`. -/
def Knows (last counter : Nat) (th : BarrierThread) : Prop :=
  match th.pc with
  | .reset => 0 < th.calls ∧ counter = last
  | .incr => 0 < th.calls ∧ counter ≠ last
  | .incrStore v => 0 < th.calls ∧ counter ≠ last ∧ v = counter
  | .release j => 0 < th.calls ∧ j ≤ last
  | .returned => True
  | _ => 0 < th.calls

variable {last counter : Nat} {th : BarrierThread}

/-- Only a thread that holds the lock knows `*counter`. -/
theorem Knows.congr (h : th.Knows last counter) (hc : th.critical = 0) (counter' : Nat) :
    th.Knows last counter' := by
  obtain ⟨calls, pc⟩ := th
  cases pc <;> first | exact h | cases hc

theorem Knows.calls_pos (h : th.Knows last counter) (hpc : th.pc ≠ .returned) : 0 < th.calls := by
  obtain ⟨calls, pc⟩ := th
  cases pc <;> first | exact h | exact h.1 | exact absurd rfl hpc

/-- A thread is outside of `barrier` or in one of three parts of it. -/
theorem Knows.returns (h : th.Knows last counter) :
    th.returns + th.early + th.counted + th.releasing = th.calls := by
  obtain ⟨calls, pc⟩ := th
  cases pc <;> simp only [Knows] at h <;>
    simp only [BarrierThread.returns, early, counted, releasing, reduceCtorEq, if_true, if_false] <;>
    omega

end BarrierThread

open BarrierThread

/-- **The ledger** after `rounds` resets of `*counter`. -/
structure Barrier.Ledger (s : Barrier T) (rounds : Nat) : Prop where
  threads : ∀ t, (s.threads t).Knows (Fintype.card T - 1) s.words.counter
  lock : s.words.lock + ∑ t, (s.threads t).critical = 1
  counter_last : s.words.counter ≤ Fintype.card T - 1
  counted : ∑ t, (s.threads t).counted =
    s.words.counter + s.words.sem + ∑ t, (s.threads t).pending (Fintype.card T - 1)
  calls : ∑ t, (s.threads t).calls =
    Fintype.card T * rounds + s.words.counter + ∑ t, (s.threads t).early

theorem ledger_init {s : Barrier T} (h : (barrierMachine T).init s) : s.Ledger 0 := by
  obtain ⟨hw, ht⟩ := h
  refine ⟨fun t => ?_, ?_, ?_, ?_, ?_⟩
  · rw [ht t]
    trivial
  all_goals simp [hw, ht, critical, pending, counted, early]

section Step

variable {s : Barrier T} {r r' : Nat} {t : T} {th' : BarrierThread} {w' : BarrierWords}

/-- **A step** need only keep what the thread knows and its share of each balance; `*counter` may
change only under the lock. -/
theorem Barrier.Ledger.update (hi : s.Ledger r)
    (hknows : th'.Knows (Fintype.card T - 1) w'.counter)
    (hcounter : w'.counter = s.words.counter ∨
      ((s.threads t).critical = 1 ∧ w'.counter ≤ Fintype.card T - 1))
    (hlock : w'.lock + th'.critical = s.words.lock + (s.threads t).critical)
    (hcounted : th'.counted + s.words.counter + s.words.sem +
        (s.threads t).pending (Fintype.card T - 1) =
      (s.threads t).counted + w'.counter + w'.sem + th'.pending (Fintype.card T - 1))
    (hcalls : th'.calls + Fintype.card T * r + s.words.counter + (s.threads t).early =
      (s.threads t).calls + Fintype.card T * r' + w'.counter + th'.early) :
    Barrier.Ledger ⟨w', Function.update s.threads t th'⟩ r' := by
  obtain ⟨hk, hl, hlast, hcnt, hcls⟩ := hi
  have h1 := sum_update_add critical s.threads t th'
  have h2 := sum_update_add BarrierThread.counted s.threads t th'
  have h3 := sum_update_add (pending (Fintype.card T - 1)) s.threads t th'
  have h4 := sum_update_add BarrierThread.calls s.threads t th'
  have h5 := sum_update_add early s.threads t th'
  refine ⟨fun u => ?_, ?_, ?_, ?_, ?_⟩
  · by_cases hu : u = t
    · subst hu
      simpa using hknows
    · simp only [Function.update_of_ne hu]
      rcases hcounter with heq | ⟨hcrit, -⟩
      · rw [heq]; exact hk u
      · -- the lock excludes every other thread
        refine (hk u).congr ?_ _
        have hsum := add_le_sum_univ (fun v => (s.threads v).critical) hu
        omega
  · show w'.lock + ∑ u, (Function.update s.threads t th' u).critical = 1
    omega
  · rcases hcounter with heq | ⟨-, hle⟩
    · exact heq ▸ hlast
    · exact hle
  · show ∑ u, (Function.update s.threads t th' u).counted =
      w'.counter + w'.sem + ∑ u, (Function.update s.threads t th' u).pending (Fintype.card T - 1)
    omega
  · show ∑ u, (Function.update s.threads t th' u).calls =
      Fintype.card T * r' + w'.counter + ∑ u, (Function.update s.threads t th' u).early
    omega

omit [DecidableEq T] in
/-- The lock is taken while a thread is inside. -/
theorem Barrier.Ledger.lock_eq_zero (hi : s.Ledger r) (hc : (s.threads t).critical = 1) :
    s.words.lock = 0 := by
  have h1 := hi.lock
  have h2 := le_sum_univ (fun u => (s.threads u).critical) t
  omega

omit [DecidableEq T] in
/-- Those who are counted, and the posts for them, are no more than there are threads. -/
theorem Barrier.Ledger.counted_le (hi : s.Ledger r) (t : T) :
    s.words.counter + s.words.sem + (s.threads t).pending (Fintype.card T - 1) ≤
      Fintype.card T := by
  have hsum : ∑ u, (s.threads u).counted ≤ ∑ _u : T, 1 := by
    refine Finset.sum_le_sum fun u _ => ?_
    unfold BarrierThread.counted
    split <;> omega
  rw [← Finset.card_eq_sum_ones, Finset.card_univ] at hsum
  have := le_sum_univ (fun u => (s.threads u).pending (Fintype.card T - 1)) t
  have := hi.counted
  omega

/-- **Every step keeps the ledger**, whoever overtakes. -/
theorem Barrier.Ledger.next {s' : Barrier T} (hT : Fintype.card T < 2 ^ 32) (hi : s.Ledger r)
    (h : s.next t = some s') : ∃ r, s'.Ledger r := by
  have hpos : 0 < Fintype.card T := Fintype.card_pos_iff.mpr ⟨t⟩
  have hlast := lastArrival_eq hpos hT
  have hk := hi.threads t
  have hlk := @Barrier.Ledger.lock_eq_zero T _ s r t hi
  have hle := hi.counted_le t
  have hlow := hi.counter_last
  generalize hth : s.threads t = th at *
  obtain ⟨calls, pc⟩ := th
  unfold Barrier.next at h
  rw [hth] at h
  cases pc with
  | returned =>
    cases h
    refine ⟨r, hi.update (Nat.succ_pos calls) (Or.inl rfl) ?_ ?_ ?_⟩ <;> rw [hth]
    · rfl
    · rfl
    · dsimp only [early]
      omega
  | waitLock =>
    obtain ⟨⟨pc', w'⟩, hb, h⟩ := Option.map_eq_some_iff.mp h
    obtain ⟨v, hv, hb⟩ := Option.map_eq_some_iff.mp hb
    rw [sem_wait_eq_some] at hv
    cases hb
    cases h
    refine ⟨r, hi.update hk (Or.inl rfl) ?_ ?_ ?_⟩ <;> rw [hth]
    · rw [hv]; rfl
    · rfl
    · rfl
  | test =>
    cases h
    refine ⟨r, hi.update ?_ (Or.inl rfl) ?_ ?_ ?_⟩
    · rw [hlast]
      split
      · exact ⟨hk, by assumption⟩
      · exact ⟨hk, by assumption⟩
    all_goals rw [hth]; dsimp only; split <;> rfl
  | reset =>
    cases h
    obtain ⟨hcalls, hcounter⟩ := hk
    refine ⟨r + 1, hi.update hcalls (Or.inr ⟨by rw [hth]; rfl, Nat.zero_le _⟩) ?_ ?_ ?_⟩ <;>
      rw [hth]
    · rfl
    · dsimp only [BarrierThread.counted, pending]
      omega
    · dsimp only [early]
      rw [Nat.mul_add]
      omega
  | unlockLast =>
    cases h
    refine ⟨r, hi.update ⟨hk, Nat.zero_le _⟩ (Or.inl rfl) ?_ ?_ ?_⟩ <;> rw [hth]
    · rw [hlk rfl]; rfl
    · rfl
    · rfl
  | release j =>
    simp only [barrier, hlast, reduceCtorEq, if_false] at h
    split at h
    · rename_i hj
      cases h
      have hsem : sem_post s.words.sem = s.words.sem + 1 := by
        refine sem_post_of_lt ?_
        dsimp only [pending] at hle
        omega
      refine ⟨r, hi.update ⟨hk.1, hj⟩ (Or.inl rfl) ?_ ?_ ?_⟩ <;> rw [hth]
      · rfl
      · rw [hsem]
        dsimp only [BarrierThread.counted, pending]
        omega
      · rfl
    · cases h
      refine ⟨r, hi.update trivial (Or.inl rfl) ?_ ?_ ?_⟩ <;> rw [hth]
      · rfl
      · dsimp only [BarrierThread.counted, pending]
        omega
      · rfl
  | incr =>
    cases h
    refine ⟨r, hi.update ⟨hk.1, hk.2, rfl⟩ (Or.inl rfl) ?_ ?_ ?_⟩
    all_goals rw [hth]; rfl
  | incrStore v =>
    cases h
    obtain ⟨hcalls, hne, rfl⟩ := hk
    have hmod : (s.words.counter + 1) % 2 ^ 32 = s.words.counter + 1 :=
      Nat.mod_eq_of_lt (by omega)
    refine ⟨r, hi.update hcalls (Or.inr ⟨by rw [hth]; rfl, hmod.trans_le (by omega)⟩) ?_ ?_ ?_⟩ <;>
      rw [hth]
    · rfl
    · rw [hmod]
      dsimp only [BarrierThread.counted, pending]
      omega
    · rw [hmod]
      dsimp only [early]
      omega
  | unlockFirst =>
    cases h
    refine ⟨r, hi.update hk (Or.inl rfl) ?_ ?_ ?_⟩ <;> rw [hth]
    · rw [hlk rfl]; rfl
    · rfl
    · rfl
  | waitSem =>
    obtain ⟨⟨pc', w'⟩, hb, h⟩ := Option.map_eq_some_iff.mp h
    obtain ⟨v, hv, hb⟩ := Option.map_eq_some_iff.mp hb
    rw [sem_wait_eq_some] at hv
    cases hb
    cases h
    refine ⟨r, hi.update trivial (Or.inl rfl) ?_ ?_ ?_⟩ <;> rw [hth]
    · rfl
    · dsimp only [BarrierThread.counted, pending]
      omega
    · rfl

end Step

/-- **The ledger holds in every run.** -/
theorem barrier_ledger (hT : Fintype.card T < 2 ^ 32) {s : Barrier T}
    (h : (barrierMachine T).Reach s) : ∃ r, s.Ledger r := by
  refine h.invariant (motive := fun s => ∃ r, s.Ledger r) (fun s h0 => ⟨0, ledger_init h0⟩) ?_
  rintro s t s' ⟨r, hi⟩ - hn
  exact hi.next hT hn

/-- **A barrier without a limit to its calls.** In every run, whoever overtakes: some thread can go
on; the calls returned from are no more than those of the complete rounds; `*counter` stays below
`thread_count`; and when everybody is outside, the objects are as they were before. -/
theorem barrier_reuse (T : Type) [Fintype T] [DecidableEq T] (hN : 1 ≤ Fintype.card T)
    (hT : Fintype.card T < 2 ^ 32) (s : Barrier T) (h : (barrierMachine T).Reach s) :
    (∃ t, (s.next t).isSome) ∧
    ∑ t, (s.threads t).returns ≤ Fintype.card T * ((∑ t, (s.threads t).calls) / Fintype.card T) ∧
    s.words.counter < Fintype.card T ∧
    ((∀ t, (s.threads t).pc = .returned) → s.words = ⟨1, 0, 0⟩) := by
  obtain ⟨r, hi⟩ := barrier_ledger hT h
  have hcounter := hi.counter_last
  have hlock := hi.lock
  have hcounted := hi.counted
  refine ⟨?_, ?_, by omega, fun hret => ?_⟩
  · by_contra hno
    push Not at hno
    have hwhere : ∀ t, ((s.threads t).pc = .waitLock ∧ s.words.lock = 0) ∨
        ((s.threads t).pc = .waitSem ∧ s.words.sem = 0) := by
      intro t
      obtain ⟨hpc, hb⟩ := Barrier.next_eq_none (Option.not_isSome_iff_eq_none.mp (hno t))
      exact barrier_eq_none hb hpc
    have hcrit : ∑ t, (s.threads t).critical = 0 := by
      refine Finset.sum_eq_zero fun t _ => ?_
      unfold critical
      rcases hwhere t with ⟨ht, -⟩ | ⟨ht, -⟩ <;> rw [ht]
    have hwait : ∀ t, (s.threads t).pc = .waitSem ∧ s.words.sem = 0 := fun t =>
      (hwhere t).resolve_left fun ht => by omega
    have hpend : ∑ t, (s.threads t).pending (Fintype.card T - 1) = 0 := by
      refine Finset.sum_eq_zero fun t _ => ?_
      simp only [pending, (hwait t).1]
    -- everybody has counted itself, one more than `*counter` can hold
    have hall : ∑ t, (s.threads t).counted = Fintype.card T := by
      rw [Finset.sum_congr rfl fun t _ => show (s.threads t).counted = 1 by
        simp only [BarrierThread.counted, (hwait t).1], ← Finset.card_eq_sum_ones, Finset.card_univ]
    obtain ⟨t⟩ : Nonempty T := Fintype.card_pos_iff.mp hN
    have := (hwait t).2
    omega
  · have hsum := Finset.sum_congr rfl fun t (_ : t ∈ Finset.univ) => (hi.threads t).returns
    simp only [Finset.sum_add_distrib] at hsum
    have hcalls := hi.calls
    have hle : r ≤ (∑ t, (s.threads t).calls) / Fintype.card T := by
      rw [Nat.le_div_iff_mul_le (by omega), Nat.mul_comm]
      omega
    exact le_trans (by omega) (Nat.mul_le_mul_left _ hle)
  · simp only [critical, BarrierThread.counted, pending, hret, Finset.sum_const_zero] at hlock hcounted
    obtain ⟨⟨lock, sem, counter⟩, threads⟩ := s
    dsimp only at hlock hcounted
    have : lock = 1 ∧ sem = 0 ∧ counter = 0 := by omega
    obtain ⟨rfl, rfl, rfl⟩ := this
    rfl

/-- Thread 1 has taken the post of thread 0 and comes back, and still somebody can go on. -/
theorem barrier_reuse_stolen : ∃ s, (barrierMachine (Fin 2)).Reach s ∧
    (s.threads 1).returns = 2 ∧ (s.threads 0).calls = 1 ∧ ∃ t, (s.next t).isSome := by
  have hrun : ((barrierMachine (Fin 2)).exec twoThreads (firstRound ++ [1, 1, 1, 1, 1, 1, 1])).map
      (fun s => ((s.threads 1).returns, (s.threads 0).calls)) = some (2, 1) := by decide
  obtain ⟨s, hs, hret⟩ := Option.map_eq_some_iff.mp hrun
  have hreach := Machine.reach_exec (.init twoThreads_init) hs
  exact ⟨s, hreach, congrArg Prod.fst hret, congrArg Prod.snd hret,
    (barrier_reuse (Fin 2) (by decide) (by decide) s hreach).1⟩

/-! ## The same number of calls each -/

/-- A thread that has returned from its `R`-th call takes no further step. -/
def Barrier.nextTimes (R : Nat) (s : Barrier T) (t : T) : Option (Barrier T) :=
  if (s.threads t).returns = R then none else s.next t

/-- Every thread calls `barrier` `R` times. -/
def barrierTimes (R : Nat) (T : Type) [Fintype T] [DecidableEq T] : Machine (Barrier T) T where
  init := (barrierMachine T).init
  next := Barrier.nextTimes R

theorem nextTimes_eq_some {R : Nat} {s s' : Barrier T} {t : T} :
    s.nextTimes R t = some s' ↔ (s.threads t).returns ≠ R ∧ s.next t = some s' := by
  unfold Barrier.nextTimes
  split <;> simp [*]

/-- The calls that a thread has made: none is entered after the `R`-th. -/
theorem calls_le_times {R : Nat} {s : Barrier T} (h : (barrierTimes R T).Reach s) :
    ∀ u, (s.threads u).calls ≤ R := by
  refine h.invariant (motive := fun s => ∀ u, (s.threads u).calls ≤ R) ?_ ?_
  · rintro s ⟨-, ht⟩ u
    rw [ht u]
    exact Nat.zero_le R
  · intro s t s' hi _ hn u
    obtain ⟨hret, hn⟩ := nextTimes_eq_some.mp hn
    rw [Barrier.calls_next hn]
    split
    · rename_i hpc
      have h1 := hi t
      rw [BarrierThread.returns, if_pos hpc.2] at hret
      omega
    · exact hi u

theorem times_machine {R : Nat} {ok : Barrier T → T → Prop} {s : Barrier T}
    (h : (barrierTimes R T).ReachBy ok s) : (barrierMachine T).ReachBy ok s := by
  refine Machine.ReachBy.simulate (M := barrierTimes R T) (N := barrierMachine T) id
    (fun _ h0 => h0) ?_ h
  intro s t s' _ _ hok hn
  exact Or.inr ⟨t, hok, (nextTimes_eq_some.mp hn).2⟩

/-- **Runs without overtaking are complete**: they stop only when all calls are returned from. -/
theorem times_complete {R : Nat} (hT : Fintype.card T < 2 ^ 32) {s : Barrier T}
    (h : (barrierTimes R T).ReachBy NoOvertake s)
    (hstop : ∀ t, (barrierTimes R T).next s t = none) (t : T) : (s.threads t).returns = R := by
  have hreach : (barrierTimes R T).Reach s := h.mono fun _ _ _ _ => trivial
  obtain ⟨r, hi⟩ := barrier_inv hT (times_machine h)
  obtain ⟨r', hl⟩ := barrier_ledger hT (times_machine hreach)
  have hcalls := calls_le_times hreach
  have hblocked : ∀ u, (s.threads u).returns = R ∨ s.next u = none := by
    intro u
    have hu := hstop u
    simp only [barrierTimes, Barrier.nextTimes] at hu
    split at hu
    · exact Or.inl ‹_›
    · exact Or.inr hu
  have hinside : ∀ u, (s.threads u).pc ≠ .returned →
      barrier (Fintype.card T) (s.threads u).pc s.words = none := by
    intro u hu
    rcases hblocked u with hret | hnone
    · rw [BarrierThread.returns, if_neg hu] at hret
      have := hcalls u
      have := (hl.threads u).calls_pos hu
      omega
    · exact (Barrier.next_eq_none hnone).2
  by_contra hne
  obtain ⟨htpc, -⟩ := Barrier.next_eq_none ((hblocked t).resolve_left hne)
  obtain ⟨u, hupc, hlt⟩ := hi.stuck hinside htpc
  -- `u` has not entered its last call, so it could do so
  have h1 := hcalls t
  rcases hblocked u with hu | hu
  · rw [BarrierThread.returns, if_pos hupc] at hu
    omega
  · exact (Barrier.next_eq_none hu).1 hupc

/-- One thread, or one call each: nobody can overtake. -/
theorem times_noOvertake {R : Nat} (h1 : Fintype.card T = 1 ∨ R ≤ 1) {s : Barrier T}
    (h : (barrierTimes R T).Reach s) : (barrierTimes R T).ReachBy NoOvertake s := by
  refine h.mono fun s t hs _ _ u => ?_
  rcases h1 with h1 | h1
  · rw [Fintype.card_eq_one_iff.mp h1 |>.choose_spec u,
      Fintype.card_eq_one_iff.mp h1 |>.choose_spec t, BarrierThread.returns]
    split <;> omega
  · have := calls_le_times hs t
    omega

/-! ### A run that stops too early -/

section Stuck

variable {R k v c : Nat} {f : T → BarrierThread} {t : T}

/-- The states of the runs below. -/
def At (R : Nat) (w : BarrierWords) (f : T → BarrierThread) : Prop :=
  (barrierTimes R T).Reach ⟨w, f⟩

/-- One step of a thread inside `barrier`. -/
theorem At.inside {w : BarrierWords} {pc : BarrierPc} (h : At R w f) (t : T) (pc' : BarrierPc)
    (w' : BarrierWords) (hf : f t = ⟨k + 1, pc⟩) (hk : k < R)
    (hb : barrier (Fintype.card T) pc w = some (pc', w')) :
    At R w' (Function.update f t ⟨k + 1, pc'⟩) := by
  have hpc : pc ≠ .returned := by
    rintro rfl
    cases hb
  refine h.step trivial (a := t) (nextTimes_eq_some.mpr ⟨?_, ?_⟩)
  · simp only [BarrierThread.returns, hf, if_neg hpc]
    omega
  · simp only [Barrier.next, hf, if_neg hpc, hb, Option.map_some]

/-- A thread enters its next call. -/
theorem At.enter {w : BarrierWords} (h : At R w f) (hf : f t = ⟨k, .returned⟩) (hk : k < R) :
    At R w (Function.update f t ⟨k + 1, .waitLock⟩) := by
  refine h.step trivial (a := t) (nextTimes_eq_some.mpr ⟨?_, ?_⟩)
  · simp only [BarrierThread.returns, hf, if_true]
    omega
  · simp only [Barrier.next, hf, if_true]

/-- A thread that is not the last counts itself and waits. -/
theorem At.arrive (hT : Fintype.card T < 2 ^ 32) (h : At R ⟨1, v, c⟩ f) (hf : f t = ⟨k, .returned⟩)
    (hk : k < R) (hc : c + 1 < Fintype.card T) :
    At R ⟨1, v, c + 1⟩ (Function.update f t ⟨k + 1, .waitSem⟩) := by
  have hlast : ¬ c = lastArrival (Fintype.card T) := by
    rw [lastArrival_eq (by omega) hT]
    omega
  have h1 := h.enter hf hk
  have h2 := h1.inside t .test ⟨0, v, c⟩ (Function.update_self ..) hk rfl
  have h3 := h2.inside t .incr ⟨0, v, c⟩ (Function.update_self ..) hk
    (by simp [barrier, hlast])
  have h4 := h3.inside t (.incrStore c) ⟨0, v, c⟩ (Function.update_self ..) hk rfl
  have h5 := h4.inside t .unlockFirst ⟨0, v, c + 1⟩ (Function.update_self ..) hk
    (by simp only [barrier, Nat.mod_eq_of_lt (show c + 1 < 2 ^ 32 by omega)])
  have h6 := h5.inside t .waitSem ⟨1, v, c + 1⟩ (Function.update_self ..) hk rfl
  simpa only [Function.update_idem] using h6

/-- A waiting thread takes a post. -/
theorem At.take (h : At R ⟨1, v + 1, c⟩ f) (hf : f t = ⟨k + 1, .waitSem⟩) (hk : k < R) :
    At R ⟨1, v, c⟩ (Function.update f t ⟨k + 1, .returned⟩) :=
  h.inside t .returned ⟨1, v, c⟩ hf hk rfl

/-- The posts of the last thread. -/
theorem At.releases (hT : Fintype.card T < 2 ^ 32) (hk : k < R) : ∀ (n j : Nat) {v : Nat}
    {f : T → BarrierThread}, j + n = Fintype.card T - 1 → v + n < 2 ^ 32 → At R ⟨1, v, c⟩ f →
    f t = ⟨k + 1, .release j⟩ →
    At R ⟨1, v + n, c⟩ (Function.update f t ⟨k + 1, .returned⟩)
  | 0, j, v, f, hj, hv, h, hf => by
    have hpos : 0 < Fintype.card T := Fintype.card_pos_iff.mpr ⟨t⟩
    refine h.inside t .returned ⟨1, v, c⟩ hf hk ?_
    rw [barrier, lastArrival_eq hpos hT, if_neg (by omega)]
  | n + 1, j, v, f, hj, hv, h, hf => by
    have hpos : 0 < Fintype.card T := Fintype.card_pos_iff.mpr ⟨t⟩
    have hb : barrier (Fintype.card T) (.release j) ⟨1, v, c⟩ =
        some (.release (j + 1), ⟨1, v + 1, c⟩) := by
      rw [barrier, lastArrival_eq hpos hT, if_pos (by omega)]
      dsimp only
      rw [sem_post_of_lt (by omega)]
    have h1 := At.releases hT hk n (j + 1) (by omega) (by omega)
      (h.inside t (.release (j + 1)) ⟨1, v + 1, c⟩ hf hk hb) (by simp)
    rw [Function.update_idem] at h1
    rwa [show v + (n + 1) = v + 1 + n by omega]

/-- The last thread releases all the others. -/
theorem At.close (hT : Fintype.card T < 2 ^ 32) (h : At R ⟨1, 0, Fintype.card T - 1⟩ f)
    (hf : f t = ⟨k, .returned⟩) (hk : k < R) :
    At R ⟨1, Fintype.card T - 1, 0⟩ (Function.update f t ⟨k + 1, .returned⟩) := by
  have hpos : 0 < Fintype.card T := Fintype.card_pos_iff.mpr ⟨t⟩
  have h1 := h.enter hf hk
  have h2 := h1.inside t .test ⟨0, 0, Fintype.card T - 1⟩ (Function.update_self ..) hk rfl
  have h3 := h2.inside t .reset ⟨0, 0, Fintype.card T - 1⟩ (Function.update_self ..) hk
    (by simp [barrier, lastArrival_eq hpos hT])
  have h4 := h3.inside t .unlockLast ⟨0, 0, 0⟩ (Function.update_self ..) hk rfl
  have h5 := h4.inside t (.release 0) ⟨1, 0, 0⟩ (Function.update_self ..) hk rfl
  have h6 := At.releases (t := t) hT hk (Fintype.card T - 1) 0 (by omega) (by omega) h5 (by simp)
  simpa only [Function.update_idem, Nat.zero_add] using h6

/-- All threads of a list arrive, one after the other. -/
theorem At.arriveAll (hT : Fintype.card T < 2 ^ 32) (hk : k < R) : ∀ {ts : List T} {c : Nat}
    {f : T → BarrierThread}, ts.Nodup → c + ts.length < Fintype.card T → At R ⟨1, v, c⟩ f →
    (∀ t ∈ ts, f t = ⟨k, .returned⟩) →
    ∃ f', At R ⟨1, v, c + ts.length⟩ f' ∧ (∀ t ∈ ts, f' t = ⟨k + 1, .waitSem⟩) ∧
      ∀ t, t ∉ ts → f' t = f t
  | [], _, f, _, _, h, _ => ⟨f, h, by simp, fun _ _ => rfl⟩
  | t :: ts, c, f, hnodup, hlen, h, hf => by
    obtain ⟨hmem, hnodup⟩ := List.nodup_cons.mp hnodup
    rw [List.length_cons] at hlen
    have h1 := h.arrive hT (hf t List.mem_cons_self) hk (by omega)
    obtain ⟨f', h', hin, hout⟩ := At.arriveAll hT hk hnodup (by omega) h1 fun u hu => by
      have hut : u ≠ t := by
        rintro rfl
        exact hmem hu
      rw [Function.update_of_ne hut]
      exact hf u (List.mem_cons_of_mem t hu)
    refine ⟨f', ?_, fun u hu => ?_, fun u hu => ?_⟩
    · rwa [List.length_cons, show c + (ts.length + 1) = c + 1 + ts.length by omega]
    · rcases List.mem_cons.mp hu with rfl | hu
      · rw [hout u hmem, Function.update_self]
      · exact hin u hu
    · rw [List.mem_cons, not_or] at hu
      rw [hout u hu.2, Function.update_of_ne hu.1]

/-- All threads of a list take a post. -/
theorem At.takeAll (hk : k < R) : ∀ {ts : List T} {v : Nat} {f : T → BarrierThread}, ts.Nodup →
    At R ⟨1, v + ts.length, c⟩ f → (∀ t ∈ ts, f t = ⟨k + 1, .waitSem⟩) →
    ∃ f', At R ⟨1, v, c⟩ f' ∧ (∀ t ∈ ts, f' t = ⟨k + 1, .returned⟩) ∧ ∀ t, t ∉ ts → f' t = f t
  | [], _, f, _, h, _ => ⟨f, h, by simp, fun _ _ => rfl⟩
  | t :: ts, v, f, hnodup, h, hf => by
    obtain ⟨hmem, hnodup⟩ := List.nodup_cons.mp hnodup
    rw [List.length_cons, ← Nat.add_assoc] at h
    have h1 := h.take (hf t List.mem_cons_self) hk
    obtain ⟨f', h', hin, hout⟩ := At.takeAll hk hnodup h1 fun u hu => by
      have hut : u ≠ t := by
        rintro rfl
        exact hmem hu
      rw [Function.update_of_ne hut]
      exact hf u (List.mem_cons_of_mem t hu)
    refine ⟨f', h', fun u hu => ?_, fun u hu => ?_⟩
    · rcases List.mem_cons.mp hu with rfl | hu
      · rw [hout u hmem, Function.update_self]
      · exact hin u hu
    · rw [List.mem_cons, not_or] at hu
      rw [hout u hu.2, Function.update_of_ne hu.1]

/-- All threads but `b`. -/
theorem exists_others (b : T) : ∃ ts : List T, ts.Nodup ∧ ts.length + 1 = Fintype.card T ∧
    ∀ t, t ∈ ts ↔ t ≠ b := by
  refine ⟨(Finset.univ.erase b).toList, Finset.nodup_toList _, ?_, by simp⟩
  have hpos : 0 < Fintype.card T := Fintype.card_pos_iff.mpr ⟨b⟩
  rw [Finset.length_toList, Finset.card_erase_of_mem (Finset.mem_univ b), Finset.card_univ]
  omega

/-- A round in which everybody returns. -/
theorem At.round (hT : Fintype.card T < 2 ^ 32) (b : T) (hk : k < R)
    (h : At R ⟨1, 0, 0⟩ fun _ : T => ⟨k, .returned⟩) :
    At R ⟨1, 0, 0⟩ fun _ : T => ⟨k + 1, .returned⟩ := by
  obtain ⟨ts, hnodup, hlen, hts⟩ := exists_others b
  obtain ⟨f₁, h₁, hin₁, hout₁⟩ := h.arriveAll hT hk hnodup (by omega) fun _ _ => rfl
  have hb : f₁ b = ⟨k, .returned⟩ := hout₁ b fun hmem => (hts b).mp hmem rfl
  rw [Nat.zero_add, show ts.length = Fintype.card T - 1 by omega] at h₁
  have h₂ := h₁.close hT hb hk
  rw [show Fintype.card T - 1 = 0 + ts.length by omega] at h₂
  obtain ⟨f₃, h₃, hin₃, hout₃⟩ := h₂.takeAll hk hnodup fun t ht => by
    rw [Function.update_of_ne ((hts t).mp ht), hin₁ t ht]
  have hf₃ : f₃ = fun _ => ⟨k + 1, .returned⟩ := by
    funext t
    by_cases ht : t = b
    · subst ht
      rw [hout₃ t fun hmem => (hts t).mp hmem rfl, Function.update_self]
    · exact hin₃ t ((hts t).mpr ht)
  rwa [hf₃] at h₃

theorem At.rounds (hT : Fintype.card T < 2 ^ 32) (b : T) : ∀ k, k ≤ R →
    At R ⟨1, 0, 0⟩ fun _ : T => ⟨k, .returned⟩
  | 0, _ => .init ⟨rfl, fun _ => rfl⟩
  | k + 1, hk => (At.rounds hT b k (by omega)).round hT b hk

/-- **Two threads and two calls are enough to get stuck**: `b` takes the post of `a` in its last
call, and nobody comes to release `a`. -/
theorem times_stuck (hT : Fintype.card T < 2 ^ 32) (h2 : 2 ≤ Fintype.card T) (hR : 2 ≤ R) :
    ∃ s, (barrierTimes R T).Reach s ∧ (∀ t, (barrierTimes R T).next s t = none) ∧
      ∃ t, (s.threads t).returns ≠ R := by
  obtain ⟨a, b, hab⟩ := Fintype.one_lt_card_iff.mp h2
  obtain ⟨k, rfl⟩ : ∃ k, R = k + 2 := ⟨R - 2, by omega⟩
  obtain ⟨ts, hnodup, hlen, hts⟩ := exists_others b
  obtain ⟨os, hperm⟩ : ∃ os, ts.Perm (a :: os) := ⟨ts.erase a, List.perm_cons_erase ((hts a).mpr hab)⟩
  replace hts : ∀ t, t ∈ a :: os ↔ t ≠ b := fun t => hperm.mem_iff.symm.trans (hts t)
  replace hnodup : (a :: os).Nodup := hperm.nodup_iff.mp hnodup
  rw [hperm.length_eq, List.length_cons] at hlen
  obtain ⟨ha, hos⟩ := List.nodup_cons.mp hnodup
  have hbos : b ∉ os := fun hmem => (hts b).mp (List.mem_cons_of_mem a hmem) rfl
  have hosb : ∀ t ∈ os, t ≠ b := fun t ht => (hts t).mp (List.mem_cons_of_mem a ht)
  -- all but `b` arrive in the call before the last, and `b` releases them
  obtain ⟨f₁, h₁, hin₁, hout₁⟩ := (At.rounds hT b k (by omega)).arriveAll hT
    (show k < k + 2 by omega) hnodup (by rw [List.length_cons]; omega) fun _ _ => rfl
  rw [Nat.zero_add, List.length_cons, show os.length + 1 = Fintype.card T - 1 by omega] at h₁
  have h₂ := h₁.close hT (hout₁ b fun hmem => (hts b).mp hmem rfl) (by omega)
  -- all but `a` take a post
  rw [show Fintype.card T - 1 = 1 + os.length by omega] at h₂
  obtain ⟨f₃, h₃, hin₃, hout₃⟩ := h₂.takeAll (show k < k + 2 by omega) hos fun t ht => by
    rw [Function.update_of_ne (hosb t ht), hin₁ t (List.mem_cons_of_mem a ht)]
  have ha₃ : f₃ a = ⟨k + 1, .waitSem⟩ := by
    rw [hout₃ a ha, Function.update_of_ne hab, hin₁ a List.mem_cons_self]
  have hb₃ : f₃ b = ⟨k + 1, .returned⟩ := by rw [hout₃ b hbos, Function.update_self]
  -- `b` arrives again and takes the post that is left
  have h₄ := h₃.arrive hT hb₃ (by omega) (by omega)
  have h₅ := h₄.take (Function.update_self ..) (by omega)
  rw [Function.update_idem] at h₅
  -- the others arrive for their last call
  obtain ⟨f₆, h₆, hin₆, hout₆⟩ := h₅.arriveAll hT (show k + 1 < k + 2 by omega) hos
    (show 0 + 1 + os.length < Fintype.card T by omega) fun t ht => by
      rw [Function.update_of_ne (hosb t ht), hin₃ t ht]
  have ha₆ : f₆ a = ⟨k + 1, .waitSem⟩ := by rw [hout₆ a ha, Function.update_of_ne hab, ha₃]
  have hb₆ : f₆ b = ⟨k + 2, .returned⟩ := by rw [hout₆ b hbos, Function.update_self]
  refine ⟨_, h₆, fun t => ?_, a, ?_⟩
  · have hwait : ∀ {t j}, f₆ t = ⟨j, .waitSem⟩ →
        Barrier.next ⟨⟨1, 0, 0 + 1 + os.length⟩, f₆⟩ t = none := by
      intro t j ht
      simp [Barrier.next, ht, barrier, sem_wait]
    show Barrier.nextTimes (k + 2) _ t = none
    unfold Barrier.nextTimes
    by_cases htb : t = b
    · subst htb
      exact if_pos (by simp [BarrierThread.returns, hb₆])
    · rcases List.mem_cons.mp ((hts t).mpr htb) with rfl | hmem
      · rw [hwait ha₆, ite_self]
      · rw [hwait (hin₆ t hmem), ite_self]
  · simp [BarrierThread.returns, ha₆]

end Stuck

/-- **The same number of calls each**: every run that stops is complete exactly when there is one
thread or one call. -/
theorem barrier_times_iff (T : Type) [Fintype T] [DecidableEq T] (hN : 1 ≤ Fintype.card T)
    (hT : Fintype.card T < 2 ^ 32) (R : Nat) :
    (∀ s, (barrierTimes R T).Reach s → (∀ t, (barrierTimes R T).next s t = none) →
      ∀ t, (s.threads t).returns = R) ↔ Fintype.card T = 1 ∨ R ≤ 1 := by
  constructor
  · intro hall
    by_contra hno
    obtain ⟨s, hs, hstop, t, ht⟩ := times_stuck hT (R := R) (by omega) (by omega)
    exact ht (hall s hs hstop t)
  · intro h1 s hs hstop
    exact times_complete hT (times_noOvertake h1 hs) hstop

/-- Two threads, ten calls each. -/
theorem barrier_times_iff_ten : ¬ ∀ s, (barrierTimes 10 (Fin 2)).Reach s →
    (∀ t, (barrierTimes 10 (Fin 2)).next s t = none) → ∀ t, (s.threads t).returns = 10 :=
  fun hall => absurd ((barrier_times_iff (Fin 2) (by decide) (by decide) 10).mp hall) (by decide)

end Ledger

end SortPlatform.Sw

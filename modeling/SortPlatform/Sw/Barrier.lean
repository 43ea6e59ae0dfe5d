import SortPlatform.Lib.Machine

/-!
# Semaphores and the barrier

`sem_wait`, `sem_post` and `barrier` of `src/sw/final/main.cpp`, with `sem_wait` and `sem_post`
atomic. Words are `uint32_t`. `barrierMachine T` lets the threads `T` call `barrier` on the same
objects again and again, with `thread_count` their number.

* `NoOvertake` — a thread takes `__sem` in its `k`-th call only when no thread is still inside an
  earlier call.
* `Separated` — no thread has returned from a call that some thread has not entered.

Principal results:

* `barrier_inv` — the invariant of runs without overtaking.
* `separated_iff` — a run is separated throughout exactly when nobody overtakes in it.
* `stolen_post` — two threads, a run with an overtaking, and the separation lost.
-/

set_option autoImplicit false

namespace SortPlatform.Sw

/-! ## Semaphores -/

/-- `sem_wait`; `none` while the count is zero. -/
def sem_wait (word : Nat) : Option Nat := if word = 0 then none else some (word - 1)

def sem_post (word : Nat) : Nat := (word + 1) % 2 ^ 32

theorem sem_wait_eq_some {word word' : Nat} : sem_wait word = some word' ↔ word = word' + 1 := by
  unfold sem_wait
  split <;> simp <;> omega

theorem sem_wait_eq_none {word : Nat} : sem_wait word = none ↔ word = 0 := by
  unfold sem_wait
  split <;> simp [*]

theorem sem_post_of_lt {word : Nat} (h : word + 1 < 2 ^ 32) : sem_post word = word + 1 :=
  Nat.mod_eq_of_lt h

/-! ## The barrier -/

/-- The objects of a barrier: `*__lock`, `*__sem` and `*counter`. -/
structure BarrierWords where
  lock : Nat
  sem : Nat
  counter : Nat
  deriving DecidableEq, Repr

/-- Where a thread is inside `barrier`. -/
inductive BarrierPc where
  /-- `sem_wait(__lock)` -/
  | waitLock
  /-- `if (*counter == thread_count - 1)` -/
  | test
  /-- `*counter = 0` -/
  | reset
  /-- `sem_post(__lock)` of the last thread -/
  | unlockLast
  /-- `for (…; j < thread_count - 1; ++j) sem_post(__sem)` -/
  | release (j : Nat)
  /-- `(*counter)++`: the load -/
  | incr
  /-- `(*counter)++`: the store -/
  | incrStore (value : Nat)
  /-- `sem_post(__lock)` of the other threads -/
  | unlockFirst
  /-- `sem_wait(__sem)` -/
  | waitSem
  | returned
  deriving DecidableEq, Repr

/-- `thread_count - 1` in `uint32_t`. -/
def lastArrival (thread_count : Nat) : Nat := (thread_count + (2 ^ 32 - 1)) % 2 ^ 32

theorem lastArrival_eq {n : Nat} (h0 : 0 < n) (h : n < 2 ^ 32) : lastArrival n = n - 1 := by
  unfold lastArrival
  omega

/-- One step inside `barrier`; `none` while waiting on a zero word. -/
def barrier (thread_count : Nat) (pc : BarrierPc) (w : BarrierWords) :
    Option (BarrierPc × BarrierWords) :=
  match pc with
  | .waitLock => (sem_wait w.lock).map fun v => (.test, { w with lock := v })
  | .test => some (if w.counter = lastArrival thread_count then .reset else .incr, w)
  | .reset => some (.unlockLast, { w with counter := 0 })
  | .unlockLast => some (.release 0, { w with lock := sem_post w.lock })
  | .release j =>
    if j < lastArrival thread_count then some (.release (j + 1), { w with sem := sem_post w.sem })
    else some (.returned, w)
  | .incr => some (.incrStore w.counter, w)
  | .incrStore v => some (.unlockFirst, { w with counter := (v + 1) % 2 ^ 32 })
  | .unlockFirst => some (.waitSem, { w with lock := sem_post w.lock })
  | .waitSem => (sem_wait w.sem).map fun v => (.returned, { w with sem := v })
  | .returned => none

/-- A thread that calls `barrier` again and again. -/
structure BarrierThread where
  /-- The number of calls entered. -/
  calls : Nat
  pc : BarrierPc
  deriving DecidableEq, Repr

/-- The number of calls returned from. -/
def BarrierThread.returns (th : BarrierThread) : Nat :=
  if th.pc = .returned then th.calls else th.calls - 1

structure Barrier (T : Type) where
  words : BarrierWords
  threads : T → BarrierThread

section Machine

variable {T : Type} [Fintype T] [DecidableEq T]

/-- A step of thread `t`: entering its next call, or a step inside the current one. -/
def Barrier.next (s : Barrier T) (t : T) : Option (Barrier T) :=
  if (s.threads t).pc = .returned then
    some { s with
      threads := Function.update s.threads t ⟨(s.threads t).calls + 1, .waitLock⟩ }
  else
    (barrier (Fintype.card T) (s.threads t).pc s.words).map fun p =>
      ⟨p.2, Function.update s.threads t ⟨(s.threads t).calls, p.1⟩⟩

/-- `sem = 0`, `lock = 1`, `counter = 0`, and no call made. -/
def barrierMachine (T : Type) [Fintype T] [DecidableEq T] : Machine (Barrier T) T where
  init s := s.words = ⟨1, 0, 0⟩ ∧ ∀ t, s.threads t = ⟨0, .returned⟩
  next := Barrier.next

/-- No thread has returned from a call that some thread has not entered. -/
def Separated (s : Barrier T) : Prop := ∀ t u, (s.threads t).returns ≤ (s.threads u).calls

/-- A thread at `sem_wait(__sem)` of its `k`-th call steps only when every thread has returned
from its `k - 1`-th. -/
def NoOvertake (s : Barrier T) (t : T) : Prop :=
  (s.threads t).pc = .waitSem → ∀ u, (s.threads t).calls ≤ (s.threads u).returns + 1

/-! ## The invariant

`R` is the number of completed rounds: the times `*counter` was reset. A thread has entered its
`R`-th or its `R + 1`-th call. -/

namespace BarrierThread

/-- 1 while the thread holds `__lock`. -/
def critical (th : BarrierThread) : Nat :=
  match th.pc with
  | .test | .reset | .unlockLast | .incr | .incrStore _ | .unlockFirst => 1
  | _ => 0

/-- 1 when the thread has counted itself in round `R + 1`. -/
def arrived (R : Nat) (th : BarrierThread) : Nat :=
  match th.pc with
  | .unlockFirst => 1
  | .waitSem => if th.calls = R + 1 then 1 else 0
  | _ => 0

/-- The posts of `__sem` the thread has still to make. -/
def pending (last : Nat) (th : BarrierThread) : Nat :=
  match th.pc with
  | .unlockLast => last
  | .release j => last - j
  | _ => 0

/-- 1 while the thread has still to be released from round `R`. -/
def waiting (R : Nat) (th : BarrierThread) : Nat :=
  match th.pc with
  | .waitSem => if th.calls = R then 1 else 0
  | _ => 0

/-- What a thread knows of its call number and of `*counter`. -/
def Local (last R counter : Nat) (th : BarrierThread) : Prop :=
  match th.pc with
  | .waitLock | .test | .unlockFirst => th.calls = R + 1
  | .reset => th.calls = R + 1 ∧ counter = last
  | .incr => th.calls = R + 1 ∧ counter ≠ last
  | .incrStore v => th.calls = R + 1 ∧ counter ≠ last ∧ v = counter
  | .waitSem => (th.calls = R ∧ 0 < R) ∨ th.calls = R + 1
  | .unlockLast | .returned => th.calls = R
  | .release j => th.calls = R ∧ j ≤ last

variable {last R counter : Nat} {th : BarrierThread}

theorem arrived_le (R : Nat) (th : BarrierThread) : th.arrived R ≤ 1 := by
  unfold arrived
  split
  · omega
  · split <;> omega
  · omega

theorem waiting_le (R : Nat) (th : BarrierThread) : th.waiting R ≤ 1 := by
  unfold waiting
  split
  · split <;> omega
  · omega

/-- Only a thread that holds the lock knows `*counter`. -/
theorem Local.congr (h : th.Local last R counter) (hc : th.critical = 0) (counter' : Nat) :
    th.Local last R counter' := by
  obtain ⟨calls, pc⟩ := th
  cases pc <;> first | exact h | cases hc

theorem Local.calls (h : th.Local last R counter) : th.returns ≤ R ∧ R ≤ th.calls := by
  obtain ⟨calls, pc⟩ := th
  cases pc <;> simp only [Local] at h <;>
    simp only [returns, reduceCtorEq, if_true, if_false] <;> omega

end BarrierThread

open BarrierThread

/-- The invariant: every thread's own facts, three balances, and `*counter` stays below the number
of threads. -/
structure Barrier.Inv (s : Barrier T) (R : Nat) : Prop where
  threads : ∀ t, (s.threads t).Local (Fintype.card T - 1) R s.words.counter
  lock : s.words.lock + ∑ t, (s.threads t).critical = 1
  counter : s.words.counter = ∑ t, (s.threads t).arrived R
  counter_last : s.words.counter ≤ Fintype.card T - 1
  sem : s.words.sem + ∑ t, (s.threads t).pending (Fintype.card T - 1) =
    ∑ t, (s.threads t).waiting R

omit [DecidableEq T] in
/-- **Separation follows from the invariant.** -/
theorem Barrier.Inv.separated {s : Barrier T} {R : Nat} (hi : s.Inv R) : Separated s :=
  fun t u => (hi.threads t).calls.1.trans (hi.threads u).calls.2

theorem barrier_init {s : Barrier T} (h : (barrierMachine T).init s) : s.Inv 0 := by
  obtain ⟨hw, ht⟩ := h
  refine ⟨fun t => ?_, ?_, ?_, ?_, ?_⟩
  · rw [ht t]; rfl
  all_goals simp [hw, ht, critical, arrived, pending, waiting]

/-! ### Steps -/

section Step

variable {s : Barrier T} {R : Nat} {t : T} {th' : BarrierThread} {w' : BarrierWords}

/-- **A step that keeps the round** need only keep the thread's own facts and its share of each
balance; `*counter` may change only under the lock. -/
theorem Barrier.Inv.update (hi : s.Inv R)
    (hlocal : th'.Local (Fintype.card T - 1) R w'.counter)
    (hcounter : w'.counter = s.words.counter ∨
      ((s.threads t).critical = 1 ∧ w'.counter ≤ Fintype.card T - 1))
    (hlock : w'.lock + th'.critical = s.words.lock + (s.threads t).critical)
    (harrived : w'.counter + (s.threads t).arrived R = s.words.counter + th'.arrived R)
    (hsem : w'.sem + th'.pending (Fintype.card T - 1) + (s.threads t).waiting R =
      s.words.sem + (s.threads t).pending (Fintype.card T - 1) + th'.waiting R) :
    Barrier.Inv ⟨w', Function.update s.threads t th'⟩ R := by
  obtain ⟨hl, hk, hc, hlast, hs⟩ := hi
  have h1 := sum_update_add critical s.threads t th'
  have h2 := sum_update_add (arrived R) s.threads t th'
  have h3 := sum_update_add (pending (Fintype.card T - 1)) s.threads t th'
  have h4 := sum_update_add (waiting R) s.threads t th'
  refine ⟨fun u => ?_, ?_, ?_, ?_, ?_⟩
  · by_cases hu : u = t
    · subst hu
      simpa using hlocal
    · simp only [Function.update_of_ne hu]
      rcases hcounter with heq | ⟨hcrit, -⟩
      · rw [heq]; exact hl u
      · -- the lock excludes every other thread
        refine (hl u).congr ?_ _
        have hsum := add_le_sum_univ (fun v => (s.threads v).critical) hu
        omega
  · show w'.lock + ∑ u, (Function.update s.threads t th' u).critical = 1
    omega
  · show w'.counter = ∑ u, (Function.update s.threads t th' u).arrived R
    omega
  · rcases hcounter with heq | ⟨-, hle⟩
    · exact heq ▸ hlast
    · exact hle
  · show w'.sem + ∑ u, (Function.update s.threads t th' u).pending (Fintype.card T - 1) =
      ∑ u, (Function.update s.threads t th' u).waiting R
    omega

omit [DecidableEq T] in
/-- The lock is taken while a thread is inside. -/
theorem Barrier.Inv.lock_eq_zero (hi : s.Inv R) (hc : (s.threads t).critical = 1) :
    s.words.lock = 0 := by
  have h1 := hi.lock
  have h2 := le_sum_univ (fun u => (s.threads u).critical) t
  omega

/-- A thread that has not counted itself keeps `*counter` below the number of threads. -/
theorem Barrier.Inv.counter_le (hi : s.Inv R) (t : T) (h : (s.threads t).arrived R = 0) :
    s.words.counter + 1 ≤ Fintype.card T := by
  have hsum : ∑ u, (s.threads u).arrived R ≤ ∑ u ∈ Finset.univ.erase t, 1 := by
    rw [← Finset.add_sum_erase _ _ (Finset.mem_univ t), h, Nat.zero_add]
    exact Finset.sum_le_sum fun u _ => arrived_le R (s.threads u)
  rw [← Finset.card_eq_sum_ones, Finset.card_erase_of_mem (Finset.mem_univ t),
    Finset.card_univ] at hsum
  have : 0 < Fintype.card T := Fintype.card_pos_iff.mpr ⟨t⟩
  have := hi.counter
  omega

omit [DecidableEq T] in
/-- Posts made and posts to come are for threads. -/
theorem Barrier.Inv.posts_le (hi : s.Inv R) (t : T) :
    s.words.sem + (s.threads t).pending (Fintype.card T - 1) ≤ Fintype.card T := by
  have hsum : ∑ u, (s.threads u).waiting R ≤ ∑ _u : T, 1 :=
    Finset.sum_le_sum fun u _ => waiting_le R (s.threads u)
  rw [← Finset.card_eq_sum_ones, Finset.card_univ] at hsum
  have := le_sum_univ (fun u => (s.threads u).pending (Fintype.card T - 1)) t
  have := hi.sem
  omega

/-- **The last thread closes the round**: everyone else has arrived and waits. -/
theorem Barrier.Inv.reset (hi : s.Inv R) (hpc : (s.threads t).pc = .reset) :
    Barrier.Inv ⟨{ s.words with counter := 0 },
      Function.update s.threads t ⟨(s.threads t).calls, .unlockLast⟩⟩ (R + 1) := by
  have hpos : 0 < Fintype.card T := Fintype.card_pos_iff.mpr ⟨t⟩
  have hlt : (s.threads t).calls = R + 1 ∧ s.words.counter = Fintype.card T - 1 := by
    simpa only [Local, hpc] using hi.threads t
  have hcrit : (s.threads t).critical = 1 := by simp only [critical, hpc]
  have harr : (s.threads t).arrived R = 0 := by simp only [arrived, hpc]
  have hl0 := hi.lock_eq_zero hcrit
  have hothers : ∀ u, u ≠ t → (s.threads u).pc = .waitSem ∧ (s.threads u).calls = R + 1 := by
    intro u hu
    have h1 : (s.threads u).arrived R = 1 := by
      refine eq_one_of_sum_add_one (fun v => arrived_le R (s.threads v)) harr ?_ hu
      have := hi.counter
      omega
    have h0 : (s.threads u).critical = 0 := by
      have hsum := add_le_sum_univ (fun v => (s.threads v).critical) hu
      have := hi.lock
      omega
    unfold arrived at h1
    unfold critical at h0
    split at h1 <;> rename_i hu'
    · rw [hu'] at h0; cases h0
    · refine ⟨hu', ?_⟩
      split at h1
      · assumption
      · cases h1
    · cases h1
  have hwait : ∑ u, (s.threads u).waiting R = 0 := by
    refine Finset.sum_eq_zero fun u _ => ?_
    by_cases hu : u = t
    · simp only [hu, waiting, hpc]
    · simp only [waiting, (hothers u hu).1, (hothers u hu).2]
      exact if_neg (by omega)
  have hwait' : (∑ u, (s.threads u).waiting (R + 1)) + 1 = Fintype.card T := by
    refine sum_add_one_eq_card (show (s.threads t).waiting (R + 1) = 0 by simp only [waiting, hpc])
      fun u hu => ?_
    simp only [waiting, (hothers u hu).1, (hothers u hu).2, if_true]
  have hlast : (BarrierThread.mk (s.threads t).calls .unlockLast).pending (Fintype.card T - 1) =
    Fintype.card T - 1 := rfl
  have hpend : (s.threads t).pending (Fintype.card T - 1) = 0 := by simp only [pending, hpc]
  have hwt : (s.threads t).waiting (R + 1) = 0 := by simp only [waiting, hpc]
  have h1 := sum_update_add critical s.threads t ⟨(s.threads t).calls, .unlockLast⟩
  have h3 := sum_update_add (pending (Fintype.card T - 1)) s.threads t
    ⟨(s.threads t).calls, .unlockLast⟩
  have h4 := sum_update_add (waiting (R + 1)) s.threads t ⟨(s.threads t).calls, .unlockLast⟩
  have hsem := hi.sem
  have hlock := hi.lock
  refine ⟨fun u => ?_, ?_, ?_, Nat.zero_le _, ?_⟩
  · by_cases hu : u = t
    · subst hu
      simpa [Local] using hlt.1
    · simp only [Function.update_of_ne hu, Local, (hothers u hu).1]
      exact Or.inl ⟨(hothers u hu).2, by omega⟩
  · simp only [critical, hpc] at h1
    dsimp only [critical] at hlock ⊢
    omega
  · refine (Finset.sum_eq_zero fun u _ => ?_).symm
    by_cases hu : u = t
    · simp [hu, arrived]
    · simp only [Function.update_of_ne hu, arrived, (hothers u hu).1, (hothers u hu).2]
      exact if_neg (by omega)
  · rw [hlast, hpend] at h3
    rw [hwt, show (BarrierThread.mk (s.threads t).calls .unlockLast).waiting (R + 1) = 0
      from rfl] at h4
    dsimp only at h3 h4 ⊢
    omega

omit [DecidableEq T] in
/-- Whoever finds a post of `__sem` in its `R + 1`-th call overtakes a thread of round `R`. -/
theorem Barrier.Inv.calls_of_post (hi : s.Inv R) (hpc : (s.threads t).pc = .waitSem)
    (hok : NoOvertake s t) (hpost : s.words.sem ≠ 0) : (s.threads t).calls = R := by
  have hlocal : ((s.threads t).calls = R ∧ 0 < R) ∨ (s.threads t).calls = R + 1 := by
    simpa only [Local, hpc] using hi.threads t
  refine (hlocal.resolve_right fun hcalls => hpost ?_).1
  have hwait : ∑ u, (s.threads u).waiting R = 0 := by
    refine Finset.sum_eq_zero fun u _ => ?_
    have hret := hok hpc u
    unfold waiting
    split
    · rename_i hu
      refine if_neg fun hR => ?_
      have hlu := hi.threads u
      simp only [Local, hu] at hlu
      rw [BarrierThread.returns, hu, if_neg (by simp)] at hret
      omega
    · rfl
  have := hi.sem
  omega

/-- **One step without overtaking keeps the invariant.** -/
theorem Barrier.Inv.next {s' : Barrier T} (hT : Fintype.card T < 2 ^ 32) (hi : s.Inv R)
    (hok : NoOvertake s t) (h : s.next t = some s') : ∃ R, s'.Inv R := by
  have hpos : 0 < Fintype.card T := Fintype.card_pos_iff.mpr ⟨t⟩
  have hlast := lastArrival_eq hpos hT
  have hl := hi.threads t
  have hlk := @Barrier.Inv.lock_eq_zero T _ s R t hi
  have hlock := hi.lock
  have harr := hi.counter_le t
  have hpost := hi.posts_le t
  have hcalls := fun hpc hne => @Barrier.Inv.calls_of_post T _ s R t hi hpc hok hne
  generalize hth : s.threads t = th at *
  obtain ⟨calls, pc⟩ := th
  unfold Barrier.next at h
  rw [hth] at h
  cases pc with
  | returned =>
    cases h
    refine ⟨R, hi.update ?_ (Or.inl rfl) ?_ ?_ ?_⟩
    · exact congrArg (· + 1) hl
    all_goals rw [hth]; rfl
  | waitLock =>
    obtain ⟨⟨pc', w'⟩, hb, h⟩ := Option.map_eq_some_iff.mp h
    obtain ⟨v, hv, hb⟩ := Option.map_eq_some_iff.mp hb
    rw [sem_wait_eq_some] at hv
    cases hb
    cases h
    refine ⟨R, hi.update hl (Or.inl rfl) ?_ ?_ ?_⟩
    · rw [hth, hv]; rfl
    all_goals rw [hth]; rfl
  | test =>
    cases h
    refine ⟨R, hi.update ?_ (Or.inl rfl) ?_ ?_ ?_⟩
    · rw [hlast]
      split
      · exact ⟨hl, by assumption⟩
      · exact ⟨hl, by assumption⟩
    all_goals rw [hth]; dsimp only; split <;> rfl
  | reset =>
    cases h
    have hcl : (s.threads t).calls = calls := by rw [hth]
    have hreset := hi.reset (show (s.threads t).pc = .reset by rw [hth])
    rw [hcl] at hreset
    exact ⟨R + 1, hreset⟩
  | unlockLast =>
    cases h
    refine ⟨R, hi.update ⟨hl, Nat.zero_le _⟩ (Or.inl rfl) ?_ ?_ ?_⟩
    · rw [hth, hlk rfl]; rfl
    all_goals rw [hth]; rfl
  | release j =>
    simp only [barrier, hlast, reduceCtorEq, if_false] at h
    split at h
    · rename_i hj
      cases h
      have hp : s.words.sem + (Fintype.card T - 1 - j) ≤ Fintype.card T := hpost
      have hsem : sem_post s.words.sem = s.words.sem + 1 := sem_post_of_lt (by omega)
      refine ⟨R, hi.update ⟨hl.1, hj⟩ (Or.inl rfl) ?_ ?_ ?_⟩
      · rw [hth]; rfl
      · rw [hth]; rfl
      · rw [hth, hsem]
        dsimp only [pending, waiting]
        omega
    · cases h
      refine ⟨R, hi.update hl.1 (Or.inl rfl) ?_ ?_ ?_⟩
      · rw [hth]; rfl
      · rw [hth]; rfl
      · rw [hth]
        dsimp only [pending, waiting]
        omega
  | incr =>
    cases h
    refine ⟨R, hi.update ⟨hl.1, hl.2, rfl⟩ (Or.inl rfl) ?_ ?_ ?_⟩
    all_goals rw [hth]; rfl
  | incrStore v =>
    cases h
    obtain ⟨hR, hne, rfl⟩ := hl
    have hlt : s.words.counter + 1 < 2 ^ 32 := by
      have : s.words.counter + 1 ≤ Fintype.card T := harr rfl
      omega
    have hle : (s.words.counter + 1) % 2 ^ 32 ≤ Fintype.card T - 1 := by
      have := hi.counter_last
      rw [Nat.mod_eq_of_lt hlt]
      omega
    refine ⟨R, hi.update hR (Or.inr ⟨by rw [hth]; rfl, hle⟩) ?_ ?_ ?_⟩
    · rw [hth]; rfl
    · rw [hth]
      exact congrArg (· + 0) (Nat.mod_eq_of_lt hlt)
    · rw [hth]; rfl
  | unlockFirst =>
    cases h
    have hl : calls = R + 1 := hl
    refine ⟨R, hi.update (Or.inr hl) (Or.inl rfl) ?_ ?_ ?_⟩
    · rw [hth, hlk rfl]; rfl
    · rw [hth]
      exact congrArg (s.words.counter + ·) (if_pos hl).symm
    · rw [hth]
      exact congrArg (s.words.sem + 0 + ·) (if_neg (by simp [hl])).symm
  | waitSem =>
    obtain ⟨⟨pc', w'⟩, hb, h⟩ := Option.map_eq_some_iff.mp h
    obtain ⟨v, hv, hb⟩ := Option.map_eq_some_iff.mp hb
    rw [sem_wait_eq_some] at hv
    cases hb
    cases h
    have hR : calls = R := hcalls rfl (by omega)
    refine ⟨R, hi.update hR (Or.inl rfl) ?_ ?_ ?_⟩
    · rw [hth]; rfl
    · rw [hth]
      exact congrArg (s.words.counter + ·) (if_neg (by simp [hR]))
    · rw [hth, hv]
      exact congrArg (v + 0 + ·) (if_pos hR)

end Step

/-- **The invariant of runs without overtaking.** -/
theorem barrier_inv (hT : Fintype.card T < 2 ^ 32) {s : Barrier T}
    (h : (barrierMachine T).ReachBy NoOvertake s) : ∃ R, s.Inv R := by
  refine h.invariant (motive := fun s => ∃ R, s.Inv R) (fun s h0 => ⟨0, barrier_init h0⟩) ?_
  rintro s t s' ⟨R, hi⟩ hok hn
  exact hi.next hT hok hn

/-! ### Waiting -/

/-- A thread that cannot step waits for a word that is zero. -/
theorem barrier_eq_none {n : Nat} {pc : BarrierPc} {w : BarrierWords} (h : barrier n pc w = none)
    (hpc : pc ≠ .returned) : (pc = .waitLock ∧ w.lock = 0) ∨ (pc = .waitSem ∧ w.sem = 0) := by
  unfold barrier at h
  cases pc with
  | waitLock => exact Or.inl ⟨rfl, sem_wait_eq_none.mp (Option.map_eq_none_iff.mp h)⟩
  | waitSem => exact Or.inr ⟨rfl, sem_wait_eq_none.mp (Option.map_eq_none_iff.mp h)⟩
  | release j =>
    dsimp only at h
    split at h <;> cases h
  | returned => exact absurd rfl hpc
  | _ => cases h

omit [DecidableEq T] in
/-- **Where threads are stuck**: when no thread inside `barrier` can step, every such thread waits
for a thread that has not entered the call. -/
theorem Barrier.Inv.stuck {s : Barrier T} {R : Nat} (hi : s.Inv R)
    (hb : ∀ u, (s.threads u).pc ≠ .returned →
      barrier (Fintype.card T) (s.threads u).pc s.words = none) {t : T}
    (ht : (s.threads t).pc ≠ .returned) :
    ∃ u, (s.threads u).pc = .returned ∧ (s.threads u).calls < (s.threads t).calls := by
  have hwhere : ∀ u, (s.threads u).pc = .returned ∨
      ((s.threads u).pc = .waitLock ∧ s.words.lock = 0) ∨
      ((s.threads u).pc = .waitSem ∧ s.words.sem = 0) := fun u =>
    Classical.or_iff_not_imp_left.mpr fun hu => barrier_eq_none (hb u hu) hu
  have hlock : s.words.lock = 1 := by
    have hsum : ∑ u, (s.threads u).critical = 0 := by
      refine Finset.sum_eq_zero fun u _ => ?_
      unfold critical
      rcases hwhere u with hu | ⟨hu, -⟩ | ⟨hu, -⟩ <;> rw [hu]
    have := hi.lock
    omega
  have hwhere : ∀ u, (s.threads u).pc = .returned ∨
      ((s.threads u).pc = .waitSem ∧ s.words.sem = 0) := fun u =>
    (hwhere u).imp_right fun hu => hu.resolve_left fun hu => by omega
  obtain ⟨htpc, hsem0⟩ := (hwhere t).resolve_left ht
  have hwait : ∑ u, (s.threads u).waiting R = 0 := by
    have hsum : ∑ u, (s.threads u).pending (Fintype.card T - 1) = 0 := by
      refine Finset.sum_eq_zero fun u _ => ?_
      unfold pending
      rcases hwhere u with hu | ⟨hu, -⟩ <;> rw [hu]
    have := hi.sem
    omega
  -- nobody is left of round `R`, so everyone who waits has arrived
  have hcalls : ∀ u, (s.threads u).pc = .waitSem → (s.threads u).calls = R + 1 := by
    intro u hu
    have hlocal := hi.threads u
    have hle := le_sum_univ (fun v => (s.threads v).waiting R) u
    simp only [Local, hu] at hlocal
    refine hlocal.resolve_left fun hR => ?_
    have h1 : (s.threads u).waiting R = 1 := by simp only [waiting, hu, hR.1, if_true]
    omega
  by_contra hno
  have hall : ∀ u, (s.threads u).pc = .waitSem := by
    intro u
    rcases hwhere u with hu | ⟨hu, -⟩
    · refine absurd ⟨u, hu, ?_⟩ hno
      have hlocal := hi.threads u
      simp only [Local, hu] at hlocal
      rw [hlocal, hcalls t htpc]
      exact Nat.lt_succ_self R
    · exact hu
  have hcounter : s.words.counter = Fintype.card T := by
    rw [hi.counter, Finset.sum_congr rfl fun u _ => show (s.threads u).arrived R = 1 by
      simp only [arrived, hall u, hcalls u (hall u), if_true], ← Finset.card_eq_sum_ones,
      Finset.card_univ]
  have hpos : 0 < Fintype.card T := Fintype.card_pos_iff.mpr ⟨t⟩
  have := hi.counter_last
  omega

omit [Fintype T] in
/-- A thread that overtakes has returned from a call that another thread has not entered. -/
theorem noOvertake_of_separated [Fintype T] {s s' : Barrier T} {t : T} (h : s.next t = some s')
    (hsep : Separated s') : NoOvertake s t := by
  intro hpc u
  have hne : ¬ BarrierPc.waitSem = .returned := by simp
  simp only [Barrier.next, hpc, if_neg hne, barrier, Option.map_map] at h
  obtain ⟨v, -, rfl⟩ := Option.map_eq_some_iff.mp h
  by_cases hu : u = t
  · subst hu
    rw [BarrierThread.returns, hpc, if_neg hne]
    omega
  · have := hsep t u
    simp only [Function.comp_apply, Function.update_self, Function.update_of_ne hu,
      BarrierThread.returns, if_true] at this
    rw [BarrierThread.returns]
    split <;> omega

/-- **Barrier separation over repeated use**: every state of a run is separated exactly when in
every step that takes `__sem` the thread has been preceded by all others out of the previous
call. -/
theorem separated_iff (T : Type) [Fintype T] [DecidableEq T] (_h2 : 2 ≤ Fintype.card T)
    (hT : Fintype.card T < 2 ^ 32) (tr : List (Barrier T × T)) (s : Barrier T)
    (h : (barrierMachine T).Path tr s) :
    ((∀ p ∈ tr, Separated p.1) ∧ Separated s) ↔ ∀ p ∈ tr, NoOvertake p.1 p.2 := by
  refine h.forall_iff (fun s h0 => (barrier_init h0).separated) ?_
  intro s t s' hs hn
  refine ⟨noOvertake_of_separated hn, fun hok => ?_⟩
  obtain ⟨R, hi⟩ := barrier_inv hT (hs.step hok hn)
  exact hi.separated

/-! ### Two threads -/

/-- Two threads before their first call. -/
def twoThreads : Barrier (Fin 2) := ⟨⟨1, 0, 0⟩, fun _ => ⟨0, .returned⟩⟩

theorem twoThreads_init : (barrierMachine (Fin 2)).init twoThreads := ⟨rfl, fun _ => rfl⟩

/-- Thread 0 arrives first, thread 1 releases it. -/
def firstRound : List (Fin 2) := [0, 0, 0, 0, 0, 0, 1, 1, 1, 1, 1, 1, 1]

/-- A round in which everybody returns. -/
theorem separated_iff_firstRound : ∃ tr s, (barrierMachine (Fin 2)).Path tr s ∧
    tr.map Prod.snd = firstRound ++ [0] ∧ (s.threads 0).returns = 1 ∧ (s.threads 1).returns = 1 ∧
    (((∀ p ∈ tr, Separated p.1) ∧ Separated s) ↔ ∀ p ∈ tr, NoOvertake p.1 p.2) := by
  have hrun : ((barrierMachine (Fin 2)).exec twoThreads (firstRound ++ [0])).map
      (fun s => ((s.threads 0).returns, (s.threads 1).returns)) = some (1, 1) := by decide
  obtain ⟨s, hs, hret⟩ := Option.map_eq_some_iff.mp hrun
  obtain ⟨tr, hp, htr⟩ := Machine.path_exec (.init twoThreads_init) hs
  exact ⟨tr, s, hp, htr, congrArg Prod.fst hret, congrArg Prod.snd hret,
    separated_iff (Fin 2) (by decide) (by decide) tr s hp⟩

/-- Thread 1 runs ahead and takes the post meant for thread 0: it has returned twice while
thread 0 is in its first call. -/
theorem stolen_post : ∃ s, (barrierMachine (Fin 2)).Reach s ∧ (s.threads 1).returns = 2 ∧
    (s.threads 0).calls = 1 ∧ ¬ Separated s := by
  have hrun : ((barrierMachine (Fin 2)).exec twoThreads (firstRound ++ [1, 1, 1, 1, 1, 1, 1])).map
      (fun s => ((s.threads 1).returns, (s.threads 0).calls)) = some (2, 1) := by decide
  obtain ⟨s, hs, hret⟩ := Option.map_eq_some_iff.mp hrun
  have h1 : (s.threads 1).returns = 2 := congrArg Prod.fst hret
  have h0 : (s.threads 0).calls = 1 := congrArg Prod.snd hret
  refine ⟨s, Machine.reach_exec (.init twoThreads_init) hs, h1, h0, fun hsep => ?_⟩
  have := hsep 1 0
  omega

end Machine

end SortPlatform.Sw

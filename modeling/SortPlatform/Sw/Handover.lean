import SortPlatform.Sw.Harts

/-!
# The hand-over between the harts

Principal result: `handover` — the order of the stores to the DMA, of the initialisation, of the
accesses to `out1` and of the exit, and no deadlock.
-/

set_option autoImplicit false

namespace SortPlatform.Sw

variable {p : Program} {s s' : Harts}

/-! ## The barrier

Seen from the barrier, the harts are two threads that call it once. Before hart 0 has initialised
`barrier_lock` nobody looks at it, so it may be taken as 1 from the start. -/

/-- What the barrier sees of a hart. -/
def barrierThread (pc : HartPc) : BarrierThread :=
  match pc with
  | .barrier b => ⟨1, b⟩
  | _ => ⟨if pc.stage < 7 then 0 else 1, .returned⟩

def barrierView (pc0 : HartPc) (mem : Memory) : BarrierWords :=
  if pc0 = .init 0 then { mem.barrierWords with lock := 1 } else mem.barrierWords

def Harts.barrier (s : Harts) : Barrier Hart where
  words := barrierView (s.pc .hart0) s.mem
  threads h := barrierThread (s.pc h)

theorem barrierThread_of_lt {pc : HartPc} (hlt : pc.stage < 7) :
    barrierThread pc = ⟨0, .returned⟩ := by
  unfold barrierThread
  split
  · simp at hlt
  · rw [if_pos hlt]

theorem barrierThread_of_gt {pc : HartPc} (hlt : 7 < pc.stage) :
    barrierThread pc = ⟨1, .returned⟩ := by
  unfold barrierThread
  split
  · simp at hlt
  · rw [if_neg (by omega)]

theorem barrierThread_calls {pc : HartPc} (hle : 7 ≤ pc.stage) : (barrierThread pc).calls = 1 := by
  unfold barrierThread
  split
  · rfl
  · exact if_neg (by omega)

theorem barrierThread_calls_le (pc : HartPc) : (barrierThread pc).calls ≤ 1 := by
  unfold barrierThread
  split
  · exact Nat.le_refl 1
  · dsimp only
    split <;> omega

theorem noOvertake_barrier (s : Harts) (h : Hart) : NoOvertake s.barrier h := by
  intro _ u
  exact Nat.le_trans (barrierThread_calls_le _) (Nat.le_add_left 1 _)

theorem barrierView_of_ne {pc0 : HartPc} (hne : pc0 ≠ .init 0) (mem : Memory) :
    barrierView pc0 mem = mem.barrierWords := if_neg hne

theorem hart_card_lt : Fintype.card Hart < 2 ^ 32 := by decide

/-- Before anybody has entered, `barrier_sem` is zero. -/
theorem barrier_sem_eq_zero {b : Barrier Hart} (hb : (barrierMachine Hart).ReachBy NoOvertake b)
    (ht : ∀ h, b.threads h = ⟨0, .returned⟩) : b.words.sem = 0 := by
  obtain ⟨R, hi⟩ := barrier_inv hart_card_lt hb
  have hsum : ∑ h, (b.threads h).waiting R = 0 := by
    refine Finset.sum_eq_zero fun h _ => ?_
    rw [ht h]
    rfl
  have := hi.sem
  omega

/-- What `sem_init` does to the words of the barrier. -/
theorem sem_inits_barrier {k count : Nat} {w : Word} (hk : sem_inits[k]? = some (w, count)) :
    (k = 0 ∧ w = .barrier_lock ∧ count = 1) ∨ (k ≠ 0 ∧ w = .barrier_sem ∧ count = 0) ∨
      (k ≠ 0 ∧ w ≠ .barrier_lock ∧ w ≠ .barrier_sem ∧ w ≠ .barrier_counter) := by
  have hall : ∀ k : Fin sem_inits.length,
      (k.val = 0 ∧ sem_inits[k].1 = .barrier_lock ∧ sem_inits[k].2 = 1) ∨
      (k.val ≠ 0 ∧ sem_inits[k].1 = .barrier_sem ∧ sem_inits[k].2 = 0) ∨
      (k.val ≠ 0 ∧ sem_inits[k].1 ≠ .barrier_lock ∧ sem_inits[k].1 ≠ .barrier_sem ∧
        sem_inits[k].1 ≠ .barrier_counter) := by decide
  obtain ⟨hlt, heq⟩ := List.getElem?_eq_some_iff.mp hk
  have := hall ⟨k, hlt⟩
  simp only [Fin.getElem_fin, heq] at this
  exact this

theorem barrierWords_setWord {mem : Memory} {w : Word} {v : Nat} (h1 : w ≠ .barrier_lock)
    (h2 : w ≠ .barrier_sem) (h3 : w ≠ .barrier_counter) :
    (mem.setWord w v).barrierWords = mem.barrierWords := by
  simp only [Memory.barrierWords, Memory.setWord_word, Function.update_of_ne h1.symm,
    Function.update_of_ne h2.symm, Function.update_of_ne h3.symm]

section Step

variable {h : Hart} {pc' : HartPc} {mem' : Memory} {ev : List Event}

/-- The barrier after a step, from the step of one thread. -/
theorem barrier_update {pc : Hart → HartPc} {tr : List Event} (hh : pc h = pc')
    (ho : pc h.other = s.pc h.other) {w : BarrierWords} {th : BarrierThread}
    (hw : barrierView (pc .hart0) mem' = w) (hth : barrierThread pc' = th) :
    Harts.barrier ⟨pc, mem', tr⟩ = ⟨w, Function.update s.barrier.threads h th⟩ := by
  unfold Harts.barrier
  rw [Barrier.mk.injEq]
  refine ⟨hw, funext ((Hart.forall_iff h).mpr ⟨?_, ?_⟩)⟩
  · rw [Function.update_self, ← hth, ← hh]
  · rw [Function.update_of_ne h.ne_other.symm]
    exact congrArg barrierThread ho

/-- A step that keeps the thread and the words. -/
theorem barrier_congr {pc : Hart → HartPc} {tr : List Event} (hh : pc h = pc')
    (ho : pc h.other = s.pc h.other) (hth : barrierThread pc' = barrierThread (s.pc h))
    (hw : barrierView (pc .hart0) mem' = barrierView (s.pc .hart0) s.mem) :
    Harts.barrier ⟨pc, mem', tr⟩ = s.barrier := by
  rw [barrier_update hh ho hw hth]
  exact congrArg (Barrier.mk _) (Function.update_eq_self h s.barrier.threads)

theorem barrierView_congr {pc : Hart → HartPc} (hh : pc h = pc')
    (ho : pc h.other = s.pc h.other) (hne : s.pc h ≠ .init 0) (hne' : pc' ≠ .init 0)
    (hw : mem'.barrierWords = s.mem.barrierWords) :
    barrierView (pc .hart0) mem' = barrierView (s.pc .hart0) s.mem := by
  cases h with
  | hart0 => rw [hh, barrierView_of_ne hne', barrierView_of_ne hne, hw]
  | hart1 =>
    have ho : pc .hart0 = s.pc .hart0 := ho
    rw [ho]
    unfold barrierView
    rw [hw]

/-- **A step of a hart is at most one step of a thread of the barrier.** -/
theorem Harts.Inv.barrier_step (hi : s.Inv p)
    (hb : (barrierMachine Hart).ReachBy NoOvertake s.barrier)
    (hm : Move p h s.mem (s.pc h) pc' mem' ev) {pc : Hart → HartPc} {tr : List Event}
    (hh : pc h = pc') (ho : pc h.other = s.pc h.other) :
    Harts.barrier ⟨pc, mem', tr⟩ = s.barrier ∨
      s.barrier.next h = some (Harts.barrier ⟨pc, mem', tr⟩) := by
  have hplace := hi.place h
  have hstages := hi.stages
  have hthread : s.barrier.threads h = barrierThread (s.pc h) := rfl
  have quiet : barrierThread pc' = barrierThread (s.pc h) → s.pc h ≠ .init 0 → pc' ≠ .init 0 →
      mem'.barrierWords = s.mem.barrierWords → Harts.barrier ⟨pc, mem', tr⟩ = s.barrier :=
    fun hth hne hne' hw => barrier_congr hh ho hth (barrierView_congr hh ho hne hne' hw)
  generalize hpc : s.pc h = pc₀ at *
  cases hm with
  | @init k w count hk =>
    left
    cases (show h = .hart0 from hplace)
    refine barrier_congr hh ho (by rw [hpc]; rfl) ?_
    rw [hh, hpc, barrierView_of_ne (by simp)]
    rcases sem_inits_barrier hk with ⟨rfl, rfl, rfl⟩ | ⟨hk0, rfl, rfl⟩ | ⟨hk0, h1, h2, h3⟩
    · rfl
    · -- nobody has entered, so `barrier_sem` is zero already
      have hsem : s.mem.word .barrier_sem = 0 := by
        have h0 := barrier_sem_eq_zero hb (Hart.forall_iff .hart0 |>.mpr ⟨?_, ?_⟩)
        · have hw : s.barrier.words = s.mem.barrierWords := by
            refine barrierView_of_ne ?_ _
            rw [hpc]
            simpa using hk0
          rw [hw] at h0
          exact h0
        · rw [hthread]
          rfl
        · exact barrierThread_of_lt (by
            have : (s.pc .hart0).stage = 0 := by rw [hpc]; rfl
            show (s.pc .hart1).stage < 7
            omega)
      rw [barrierView_of_ne (by simpa using hk0)]
      simp only [Memory.barrierWords, Memory.setWord_word, Function.update_self, hsem,
        Function.update_of_ne (show Word.barrier_lock ≠ .barrier_sem by simp),
        Function.update_of_ne (show Word.barrier_counter ≠ .barrier_sem by simp)]
    · rw [barrierView_of_ne (by simpa using hk0), barrierWords_setWord h1 h2 h3]
  | start hk =>
    refine Or.inl (quiet rfl ?_ (by simp) rfl)
    rintro ⟨⟩
    cases hk
  | @wait ph =>
    exact Or.inl (quiet (by cases ph <;> rfl) (by simp) (by simp)
      (barrierWords_setWord (by simp) (by simp) (by simp)))
  | @dmaStore ph | @sent ph =>
    exact Or.inl (quiet (by cases ph <;> rfl) (by simp) (by simp) rfl)
  | @post ph =>
    exact Or.inl (quiet (by cases ph <;> rfl) (by simp) (by cases ph <;> simp [Phase.next])
      (barrierWords_setWord (by simp) (by simp) (by simp)))
  | pass h6 h6' hw =>
    refine Or.inl (quiet ?_ ?_ ?_ ?_)
    · rw [barrierThread_of_lt (by omega), barrierThread_of_lt (by omega)]
    · rintro rfl
      cases h6
    · rintro rfl
      cases h6'
    · unfold Memory.barrierWords
      rw [hw]
  | enter =>
    right
    have hview := barrierView_congr hh ho (by rw [hpc]; simp) (by simp) (rfl : s.mem.barrierWords = _)
    rw [barrier_update hh ho hview rfl]
    unfold Barrier.next
    rw [hthread]
    rfl
  | @barrier b r hne hr =>
    right
    have h0 : s.pc .hart0 ≠ .init 0 := by
      intro h0
      have h0s : (s.pc .hart0).stage = 0 := by rw [h0]; rfl
      cases h with
      | hart0 => rw [hpc] at h0; cases h0
      | hart1 =>
        have h1s : (s.pc .hart1).stage = 7 := by rw [hpc]; rfl
        omega
    have h0' : pc .hart0 ≠ .init 0 := by
      cases h with
      | hart0 => rw [hh]; simp
      | hart1 =>
        have ho : pc .hart0 = s.pc .hart0 := ho
        rwa [ho]
    have hwords : s.barrier.words = s.mem.barrierWords := barrierView_of_ne h0 _
    rw [barrier_update hh ho (barrierView_of_ne h0' _) rfl]
    unfold Barrier.next
    rw [hthread, hwords, card_hart]
    refine (if_neg hne).trans ?_
    exact congrArg (Option.map _) hr
  | leave hpc' =>
    refine Or.inl (quiet (barrierThread_of_gt (by omega)) (by simp) ?_ rfl)
    rintro rfl
    cases hpc'
  | final h8 h8' hw =>
    refine Or.inl (quiet ?_ ?_ ?_ ?_)
    · rw [barrierThread_of_gt (by omega), barrierThread_of_gt (by omega)]
    · rintro rfl
      cases h8
    · rintro rfl
      cases h8'
    · unfold Memory.barrierWords
      rw [hw]
  | ret | unspin | exit => exact Or.inl (quiet rfl (by simp) (by simp) rfl)
  | amoadd =>
    exact Or.inl (quiet rfl (by simp) (by simp)
      (barrierWords_setWord (by simp) (by simp) (by simp)))

end Step

/-- Every step of a hart is a `Move`; other steps leave harts and words alone. -/
theorem harts_next {a : HartsAct} (h : (harts p).next s a = some s') :
    (∃ g pc' mem' ev, ¬ s.Exited ∧ Move p g s.mem (s.pc g) pc' mem' ev ∧
      s' = ⟨Function.update s.pc g pc', mem', s.trace ++ ev⟩) ∨
    (s'.pc = s.pc ∧ s'.mem.word = s.mem.word ∧ s'.trace = s.trace) := by
  cases a with
  | hart g stray =>
    simp only [harts, Harts.next] at h
    split at h
    · cases h
    · rename_i hex
      obtain ⟨⟨pc', mem', ev⟩, hs, rfl⟩ := Option.map_eq_some_iff.mp h
      exact Or.inl ⟨g, pc', mem', ev, hex, hartStep_move hs, rfl⟩
  | dma a bytes =>
    simp only [harts, Harts.next] at h
    split at h
    · cases h
    · cases h
      exact Or.inr ⟨rfl, rfl, rfl⟩

/-- **The barrier of the program is a run of the barrier.** -/
theorem harts_barrier (h : (harts p).Reach s) :
    (barrierMachine Hart).ReachBy NoOvertake s.barrier := by
  refine h.simulate Harts.barrier ?_ ?_
  · rintro s ⟨hpc, -, hword, -⟩
    refine ⟨?_, fun h => ?_⟩
    · show barrierView (s.pc .hart0) s.mem = _
      rw [hpc]
      refine (if_pos rfl).trans ?_
      simp only [Memory.barrierWords, hword]
    · show barrierThread (s.pc h) = _
      rw [hpc]
      cases h <;> rfl
  · intro s a s' hs hb _ hn
    rcases harts_next hn with ⟨g, pc', mem', ev, -, hm, rfl⟩ | ⟨hpc, hword, -⟩
    · have hi := harts_inv hs
      rcases hi.barrier_step hb hm (Function.update_self ..)
        (Function.update_of_ne g.ne_other.symm ..) with heq | hnext
      · exact Or.inl heq
      · exact Or.inr ⟨g, noOvertake_barrier s g, hnext⟩
    · left
      unfold Harts.barrier
      simp only [barrierView, Memory.barrierWords, hpc, hword]

/-! ## `out1` -/

/-- **Nobody leaves the barrier before both have entered it.** -/
theorem harts_separated (h : (harts p).Reach s) (g : Hart) (hg : 8 ≤ (s.pc g).stage) :
    7 ≤ (s.pc g.other).stage := by
  obtain ⟨R, hi⟩ := barrier_inv hart_card_lt (harts_barrier h)
  have hsep : (barrierThread (s.pc g)).returns ≤ (barrierThread (s.pc g.other)).calls :=
    hi.separated g g.other
  by_contra hlt
  rw [barrierThread_of_gt hg, barrierThread_of_lt (by omega)] at hsep
  exact absurd hsep (by decide)

section Step

variable {h : Hart} {pc pc' : HartPc} {mem mem' : Memory} {ev : List Event}

/-- Hart 0 loads from `out1` in the final merge only. -/
theorem Move.load_out1 (hm : Move p h mem pc pc' mem' ev) {i : Nat}
    (he : .load .hart0 .out1 i ∈ ev) : h = .hart0 ∧ 8 ≤ pc'.stage := by
  cases hm with
  | pass _ _ _ _ _ hev =>
    obtain ⟨a, j, ⟨heq, ha⟩ | ⟨heq, -⟩⟩ := hev _ he
    · cases heq
      rcases ha with ha | ha <;> cases ha
    · cases heq
  | final _ hpc' _ _ _ hev =>
    obtain ⟨a, j, ⟨heq, -⟩ | ⟨heq, -⟩⟩ := hev _ he
    · cases heq
      exact ⟨rfl, by omega⟩
    · cases heq
  | barrier =>
    obtain ⟨w, he⟩ := mem_barrierPosts he
    cases he
  | _ => simp at he

/-- Hart 1 alone stores to `out1`, before the barrier. -/
theorem Move.store_out1 (hm : Move p h mem pc pc' mem' ev) {g : Hart} {i : Nat}
    (he : .store g .out1 i ∈ ev) : h = .hart1 ∧ pc.stage = 6 := by
  cases hm with
  | pass hpc _ _ _ _ hev =>
    obtain ⟨a, j, ⟨heq, -⟩ | ⟨heq, ha⟩⟩ := hev _ he
    · cases heq
    · cases heq
      refine ⟨?_, hpc⟩
      cases h with
      | hart0 => rcases ha with ha | ha <;> cases ha
      | hart1 => rfl
  | final _ _ _ _ _ hev =>
    obtain ⟨a, j, ⟨heq, -⟩ | ⟨heq, ha⟩⟩ := hev _ he
    · cases heq
    · cases heq
      cases ha
  | barrier =>
    obtain ⟨w, he⟩ := mem_barrierPosts he
    cases he
  | _ => simp at he

end Step

/-- **`out1` is complete before hart 0 reads it.** -/
theorem harts_out1 (h : (harts p).Reach s) :
    ((s.pc .hart0).stage < 8 → ∀ i, .load .hart0 .out1 i ∉ s.trace) ∧
    s.trace.Pairwise fun e e' =>
      ∀ g i j, e = .load .hart0 .out1 i → e' ≠ .store g .out1 j := by
  induction h with
  | init h0 =>
    obtain ⟨-, -, -, htr⟩ := h0
    simp [htr]
  | @step s s' a hs _ hn ih =>
    obtain ⟨hno, hpair⟩ := ih
    rcases harts_next hn with ⟨g, pc', mem', ev, -, hm, rfl⟩ | ⟨hpc, -, htr⟩
    · refine ⟨fun hlt i hi => ?_, ?_⟩
      · rcases List.mem_append.mp hi with hi | hi
        · refine hno ?_ i hi
          cases g with
          | hart0 =>
            have := hm.stage_le
            dsimp only at hlt
            rw [Function.update_self] at hlt
            omega
          | hart1 =>
            dsimp only at hlt
            rwa [Function.update_of_ne (by simp)] at hlt
        · obtain ⟨rfl, hge⟩ := hm.load_out1 hi
          dsimp only at hlt
          rw [Function.update_self] at hlt
          omega
      · rw [List.pairwise_append]
        refine ⟨hpair, List.pairwise_of_forall_mem_list ?_, ?_⟩
        · rintro e he e' he' f i j rfl rfl
          obtain ⟨hg, -⟩ := hm.load_out1 he
          obtain ⟨hg', -⟩ := hm.store_out1 he'
          cases hg.symm.trans hg'
        · -- a store of hart 1 comes before the barrier, so hart 0 has not passed it
          rintro e he e' he' f i j rfl rfl
          obtain ⟨rfl, h6⟩ := hm.store_out1 he'
          refine hno ?_ i he
          by_contra hge
          have : 7 ≤ (s.pc .hart1).stage := harts_separated hs .hart0 (by omega)
          omega
    · rw [hpc, htr]
      exact ⟨hno, hpair⟩

/-! ## No deadlock -/

/-- While a hart waits for its flag the other is before its second post. -/
theorem Harts.Inv.waiting (hi : s.Inv p) {g : Hart} {ph : Phase} (hpc : s.pc g = .wait ph)
    (hflag : s.mem.word (.DMA_flag g) = 0) : (s.pc g.other).stage < 6 := by
  have hbal := hi.flags g
  rw [hpc, hflag] at hbal
  by_contra hge
  rw [posts_of_le (by omega)] at hbal
  cases g <;> cases ph <;> cases hbal

/-- Both harts do not wait for each other's post. -/
theorem Harts.Inv.not_both_wait (hi : s.Inv p) {ph0 ph1 : Phase} (h0 : s.pc .hart0 = .wait ph0)
    (hf0 : s.mem.word (.DMA_flag .hart0) = 0) (h1 : s.pc .hart1 = .wait ph1)
    (hf1 : s.mem.word (.DMA_flag .hart1) = 0) : False := by
  have hplace := hi.place .hart0
  have hb0 := hi.flags .hart0
  have hb1 := hi.flags .hart1
  simp only [Hart.other, h0, h1, hf0, hf1] at hplace hb0 hb1
  cases ph0 with
  | write => cases hplace
  | read =>
    cases ph1 with
    | write => cases hb1
    | read => cases hb0

/-- **Nobody is stuck in the barrier** once both harts have entered it. -/
theorem harts_not_stuck (h : (harts p).Reach s) (hstage : ∀ g, 7 ≤ (s.pc g).stage)
    (hblocked : ∀ g, (barrierThread (s.pc g)).pc ≠ .returned →
      Sw.barrier PROCESSORS (barrierThread (s.pc g)).pc s.mem.barrierWords = none) (g : Hart) :
    (barrierThread (s.pc g)).pc = .returned := by
  obtain ⟨R, hi⟩ := barrier_inv hart_card_lt (harts_barrier h)
  have hwords : s.barrier.words = s.mem.barrierWords := by
    refine barrierView_of_ne ?_ _
    intro h0
    have := hstage .hart0
    rw [h0] at this
    simp at this
  by_contra hne
  obtain ⟨u, -, hlt⟩ := hi.stuck (fun u hu => by rw [hwords]; exact hblocked u hu) hne
  have hlt : (barrierThread (s.pc u)).calls < (barrierThread (s.pc g)).calls := hlt
  rw [barrierThread_calls (hstage u), barrierThread_calls (hstage g)] at hlt
  exact Nat.lt_irrefl 1 hlt

/-- **No deadlock**: some hart can step, whatever a load outside an array finds. -/
theorem harts_progress (h : (harts p).Reach s) (hex : ¬ s.Exited) :
    ∃ g, ∀ stray, hartStep p g stray (s.pc g) s.mem ≠ none := by
  have hi := harts_inv h
  by_contra hno
  push Not at hno
  have hblocked : ∀ g, (∃ ph, s.pc g = .wait ph ∧ s.mem.word (.DMA_flag g) = 0) ∨
      (∃ b, s.pc g = .barrier b ∧ b ≠ .returned ∧
        Sw.barrier PROCESSORS b s.mem.barrierWords = none) ∨
      (∃ a0, s.pc g = .spin a0 ∧ won (s.pc g) = 0) := by
    intro g
    obtain ⟨stray, hs⟩ := hno g
    rcases hartStep_eq_none hi.length (hi.place g) hs with hw | hw | ⟨a0, hpc, ha⟩ | hw
    · exact Or.inl hw
    · exact Or.inr (Or.inl hw)
    · exact Or.inr (Or.inr ⟨a0, hpc, by rw [hpc, won, if_pos ha]⟩)
    · exact absurd ⟨g, hw⟩ hex
  -- a hart that waits for its flag has the other wait for its own
  have hnowait : ∀ g ph, s.pc g = .wait ph → s.mem.word (.DMA_flag g) ≠ 0 := by
    intro g ph hpc hflag
    have hlt := hi.waiting hpc hflag
    rcases hblocked g.other with ⟨ph', hpc', hflag'⟩ | ⟨b, hpc', -⟩ | ⟨a0, hpc', -⟩
    · cases g
      · exact hi.not_both_wait hpc hflag hpc' hflag'
      · exact hi.not_both_wait hpc' hflag' hpc hflag
    · rw [hpc'] at hlt
      simp at hlt
    · rw [hpc'] at hlt
      simp at hlt
  replace hblocked : ∀ g, (∃ b, s.pc g = .barrier b ∧ b ≠ .returned ∧
      Sw.barrier PROCESSORS b s.mem.barrierWords = none) ∨
      (∃ a0, s.pc g = .spin a0 ∧ won (s.pc g) = 0) := by
    intro g
    rcases hblocked g with ⟨ph, hpc, hflag⟩ | hb
    · exact absurd hflag (hnowait g ph hpc)
    · exact hb
  have hstage : ∀ g, 7 ≤ (s.pc g).stage := by
    intro g
    rcases hblocked g with ⟨b, hpc, -⟩ | ⟨a0, hpc, -⟩ <;> rw [hpc] <;> simp
  have hspin : ∀ g, ∃ a0, s.pc g = .spin a0 ∧ won (s.pc g) = 0 := by
    intro g
    refine (hblocked g).resolve_left ?_
    rintro ⟨b, hpc, hne, -⟩
    apply hne
    have hret := harts_not_stuck h hstage ?_ g
    · rw [hpc] at hret
      exact hret
    · intro u hu
      rcases hblocked u with ⟨b', hpc', -, hnone⟩ | ⟨a0, hpc', -⟩
      · rw [hpc']
        exact hnone
      · rw [hpc'] at hu
        exact absurd rfl hu
  -- both are counted, so one of them has won
  obtain ⟨a0, h0, hw0⟩ := hspin .hart0
  obtain ⟨a1, h1, hw1⟩ := hspin .hart1
  have hcounter := hi.counter
  have hwinner := hi.winner
  rw [hw0, hw1, hcounter, h0, h1] at hwinner
  cases hwinner

/-! ## The hand-over -/

theorem prefix_appended {α : Type} {as As bs Bs : List α} (ha : as <+: As) (hb : bs <+: Bs)
    (h : bs = [] ∨ as = As) : as ++ bs <+: As ++ Bs := by
  rcases h with rfl | rfl
  · rw [List.append_nil]
    exact ha.trans (List.prefix_append _ _)
  · exact (List.prefix_append_right_inj _).mpr hb

/-- **The stores to the DMA come call by call**, in the order of the hand-over. -/
theorem Harts.Inv.log_ordered (hi : s.Inv p) : dmaLog s.trace <+: stores p.calls := by
  obtain ⟨h10, h01, h11⟩ := hi.stages
  have hw0 : 1 < (s.pc .hart0).stage →
      made p .write .hart0 (s.pc .hart0) = stores (p.writes .hart0) := made_of_gt .hart0 .write
  have hw1 : 1 < (s.pc .hart1).stage →
      made p .write .hart1 (s.pc .hart1) = stores (p.writes .hart1) := made_of_gt .hart1 .write
  have hr0 : 4 < (s.pc .hart0).stage →
      made p .read .hart0 (s.pc .hart0) = stores (p.reads .hart0) := made_of_gt .hart0 .read
  have hnw1 : (s.pc .hart1).stage < 1 → made p .write .hart1 (s.pc .hart1) = [] :=
    made_of_lt .hart1 .write
  have hnr0 : (s.pc .hart0).stage < 4 → made p .read .hart0 (s.pc .hart0) = [] :=
    made_of_lt .hart0 .read
  have hnr1 : (s.pc .hart1).stage < 4 → made p .read .hart1 (s.pc .hart1) = [] :=
    made_of_lt .hart1 .read
  unfold Program.calls
  rw [hi.log, stores_append, stores_append, stores_append]
  refine prefix_appended (prefix_appended (prefix_appended (prefix_made _) (prefix_made _) ?_)
    (prefix_made _) ?_) (prefix_made _) ?_
  · by_cases h1 : 1 ≤ (s.pc .hart1).stage
    · exact Or.inr (hw0 (by omega))
    · exact Or.inl (hnw1 (by omega))
  · by_cases h0 : 4 ≤ (s.pc .hart0).stage
    · exact Or.inr (by rw [hw0 (by omega), hw1 (by omega)])
    · exact Or.inl (hnr0 (by omega))
  · by_cases h1 : 4 ≤ (s.pc .hart1).stage
    · exact Or.inr (by rw [hw0 (by omega), hw1 (by omega), hr0 (by omega)])
    · exact Or.inl (hnr1 (by omega))

/-- The hart executes `SYS_EXIT` next, or has executed it. -/
def Exiting (pc : HartPc) : Prop := pc = .sysExit ∨ pc = .exited

/-- **At most one hart exits**, and both have returned from `main` by then. -/
theorem Harts.Inv.exiting (hi : s.Inv p) {h : Hart} (he : Exiting (s.pc h)) :
    ¬ Exiting (s.pc h.other) ∧ ∀ g, .returned g ∈ s.trace := by
  have hwon : ∀ {pc : HartPc}, Exiting pc → won pc = 1 := by
    rintro pc (rfl | rfl) <;> rfl
  have hcounted := hi.counted_of_won (hwon he)
  refine ⟨fun ho => ?_, fun g => hi.returned g ?_⟩
  · have hsum : won (s.pc .hart0) + won (s.pc .hart1) = 2 := by
      cases h
      · exact congrArg₂ (· + ·) (hwon he) (hwon ho)
      · exact congrArg₂ (· + ·) (hwon ho) (hwon he)
    have hcounter := hi.counter
    have hwinner := hi.winner
    rw [counted, if_pos (hcounted _), counted, if_pos (hcounted _)] at hcounter
    omega
  · have := hcounted g
    omega

/-- **The hand-over protocol**, for every interleaving of the harts from reset:

* the stores to the DMA are made in the order of `Program.calls`, call by call,
* no `sem_init` of a word comes after a `sem_post` of it,
* no hart stores to `out1` after hart 0 has loaded from it,
* at most one hart exits, and only after both have returned from `main`,
* until `SYS_EXIT` some hart has a step that is not a retry. -/
theorem handover (p : Program) (s : Harts) (h : (harts p).Reach s) :
    dmaLog s.trace <+: stores p.calls ∧
    (s.trace.Pairwise fun e e' => ∀ w count, e = .semPost w → e' ≠ .semInit w count) ∧
    (s.trace.Pairwise fun e e' => ∀ g i j, e = .load .hart0 .out1 i → e' ≠ .store g .out1 j) ∧
    (∀ g, Exiting (s.pc g) → ¬ Exiting (s.pc g.other) ∧ ∀ f, .returned f ∈ s.trace) ∧
    (∀ g, .sysExit g ∈ s.trace → ∃ pre, s.trace = pre ++ [.sysExit g] ∧
      ∀ f, .returned f ∈ pre ∧ .sysExit f ∉ pre) ∧
    (¬ s.Exited → ∃ g, ∀ stray, (s.next p (.hart g stray)).isSome) := by
  have hi := harts_inv h
  refine ⟨hi.log_ordered, hi.inits, (harts_out1 h).2, fun g => hi.exiting,
    fun g hg => (hi.exit g hg).2, fun hex => ?_⟩
  obtain ⟨g, hg⟩ := harts_progress h hex
  refine ⟨g, fun stray => ?_⟩
  rw [Harts.next, if_neg hex, Option.isSome_map]
  exact Option.isSome_iff_ne_none.mpr (hg stray)

/-- Reset, with zeroed arrays. -/
def Harts.reset (p : Program) : Harts :=
  ⟨entry, ⟨fun a => List.replicate (p.length a) 0, fun _ => 0⟩, []⟩

theorem Harts.reset_init (p : Program) : (harts p).init (Harts.reset p) :=
  ⟨rfl, fun _ => List.length_replicate, fun _ => rfl, rfl⟩

/-- Two ascending blocks, the higher first. -/
def twoBlocks (lo hi : Nat) : List UInt8 :=
  (List.range 16).map (fun i => UInt8.ofNat (hi + i)) ++
    (List.range 16).map fun i => UInt8.ofNat (lo + i)

/-- Hart 0 initialises and writes, hart 1 writes, both read, run their passes in turns and meet at
the barrier; hart 0 merges and exits last. -/
def wholeHandover : List HartsAct :=
  List.replicate 18 (.hart .hart0 0) ++ List.replicate 11 (.hart .hart1 0) ++
    List.replicate 11 (.hart .hart0 0) ++ [.dma .tmp0 (twoBlocks 16 48)] ++
    List.replicate 11 (.hart .hart1 0) ++ [.dma .tmp1 (twoBlocks 0 32)] ++
    List.replicate 118 (.hart .hart0 0) ++ List.replicate 120 (.hart .hart1 0) ++
    List.replicate 118 (.hart .hart0 0) ++ List.replicate 120 (.hart .hart1 0) ++
    List.replicate 330 (.hart .hart0 0)

set_option maxRecDepth 10000 in
/-- A run to `SYS_EXIT`. -/
theorem handover_exit : ∃ s, (harts .main).Reach s ∧ s.Exited ∧
    dmaLog s.trace <+: stores Program.main.calls ∧ ∀ f, .returned f ∈ s.trace := by
  have hrun : ((harts .main).exec (Harts.reset .main) wholeHandover).map
      (fun s => decide s.Exited) = some true := by decide +kernel
  obtain ⟨s, hs, hret⟩ := Option.map_eq_some_iff.mp hrun
  have hreach : (harts .main).Reach s :=
    Machine.reach_exec (.init (Harts.reset_init .main)) hs
  have hexit : s.Exited := of_decide_eq_true hret
  obtain ⟨hlog, -, -, hreturned, -, -⟩ := handover .main s hreach
  refine ⟨s, hreach, hexit, hlog, ?_⟩
  obtain ⟨g, hg⟩ := hexit
  exact (hreturned g (Or.inr hg)).2

end SortPlatform.Sw

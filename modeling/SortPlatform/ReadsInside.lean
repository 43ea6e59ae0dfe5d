import SortPlatform.Completion
import SortPlatform.Sw.InBounds

/-!
# Which inputs are sorted without a read past an array

The merges of `src/sw/final/main.cpp` and `main128.cpp` compare with `y[l2]` before they test `l2`.
Here for whole runs of the platform, from what is in `in`.

* `Platform.Traced` — what the accesses so far tell of the runs in `tmp` and `out`.

Principal result: `reads_inside_iff` — a run accesses its arrays inside throughout exactly when in
`in` no right run at the end of an array ends first, and otherwise only goes one past an end.
-/

set_option autoImplicit false

namespace SortPlatform

open Sw RunMerge
open Vp hiding write_data_to_ACC read_data_from_ACC

variable {p : Program} {caps : List Nat} {input : List UInt8} {s s' : Platform} {h : Hart}

/-- The half of `in` that hart `h` sorts. -/
def inputHalf (p : Program) (input : List UInt8) (h : Hart) : List UInt8 :=
  slice input (base p h) (base p h + p.half)

/-! ## Runs of sorted blocks -/

theorem runsPerm_pow {xs ys : List UInt8} (hperm : RunsPerm 16 xs ys) (t : Nat) :
    RunsPerm (16 * 2 ^ t) xs ys := by
  induction t with
  | zero => exact hperm
  | succ t ih =>
    have hdouble := ih.double
    rwa [show 2 * (16 * 2 ^ t) = 16 * 2 ^ (t + 1) by rw [Nat.pow_succ]; omega] at hdouble

/-- Sorting the blocks leaves every later right run with its elements. -/
theorem lastPair_congr {xs ys : List UInt8} (hperm : RunsPerm 16 xs ys) {t : Nat}
    (hle : 32 * 2 ^ t ≤ p.half) : LastPair p xs (32 * 2 ^ t) ↔ LastPair p ys (32 * 2 ^ t) := by
  have hhalf := p.half_eq
  have ht : t ≤ p.level := by
    rw [hhalf] at hle
    exact (Nat.pow_le_pow_iff_right (by decide)).mp (Nat.le_of_mul_le_mul_left hle (by decide))
  have hruns := runsPerm_pow hperm t
  -- the two runs have the numbers `k` and `k + 1`
  obtain ⟨k, hk⟩ : ∃ k, 16 * 2 ^ t * k = p.half - 32 * 2 ^ t := by
    refine ⟨2 * (2 ^ (p.level - t) - 1), ?_⟩
    have hpow : 2 ^ t * 2 ^ (p.level - t) = 2 ^ p.level := by
      rw [← Nat.pow_add, Nat.add_sub_cancel' ht]
    have htwo : 16 * 2 ^ t * 2 = 32 * 2 ^ t := by omega
    rw [← Nat.mul_assoc, htwo, Nat.mul_sub_one, Nat.mul_assoc, hpow, ← hhalf]
  have h0 := hruns k
  have h1 := hruns (k + 1)
  rw [Nat.mul_succ, hk] at h1
  rw [hk] at h0
  unfold LastPair
  rw [show p.half - 32 * 2 ^ t / 2 = p.half - 32 * 2 ^ t + 16 * 2 ^ t by omega]
  rw [show p.half - 32 * 2 ^ t + 16 * 2 ^ t + 16 * 2 ^ t = p.half by omega] at h1
  exact rightEndsLast_congr h0 h1

/-- **The blocks that a hart has fetched** are those of its half. -/
theorem runsPerm_fetched {xs : List UInt8} (hin : input.length = p.total)
    (hlen : xs.length = p.half)
    (hblocks : ∀ k < p.half / 16, block xs (16 * k) = (block input (base p h + 16 * k)).mergeSort) :
    RunsPerm 16 xs (inputHalf p input h) := by
  have hbase := base_le p h
  have hhalf : (inputHalf p input h).length = p.half := by
    rw [inputHalf, slice_length (by omega)]
    omega
  intro k
  by_cases hk : k < p.half / 16
  · have hblock := hblocks k hk
    unfold block at hblock
    rw [hblock, inputHalf, slice_slice _ (by omega), ← Nat.add_assoc]
    exact List.mergeSort_perm _ _
  · have hpast : ∀ ys : List UInt8, ys.length = p.half → slice ys (16 * k) (16 * k + 16) = [] := by
      intro ys hys
      have heq := p.half_eq
      rw [slice_eq_take_drop, List.drop_of_length_le (by omega), List.take_nil]
    rw [hpast _ hlen, hpast _ hhalf]

/-! ## What the accesses tell -/

/-- The accesses so far were inside the arrays, and what that tells. -/
structure Platform.Traced (p : Program) (input : List UInt8) (s : Platform) : Prop where
  passes : ∀ h, 6 ≤ (s.harts.pc h).stage → ∃ xs, RunsPerm 16 xs (inputHalf p input h) ∧
    p.passed xs = sortedHalf p input h ∧
    Watched p xs (s.harts.pc h) (s.harts.mem.arr (tmp h)) (s.harts.mem.arr (out h))
  final : 8 ≤ (s.harts.pc .hart0).stage →
    FinalWatched p (sortedHalf p input .hart0) (sortedHalf p input .hart1) (s.harts.pc .hart0)

/-- A hart in its passes, with any array that has the same blocks sorted. -/
theorem passing (hs : (platform p caps input).ReachBy Prompt s) (h6 : 6 ≤ (s.harts.pc h).stage)
    {xs : List UInt8} (hxs : p.passed xs = sortedHalf p input h) :
    Passing p h xs (s.harts.pc h, s.harts.mem) := by
  have hi := harts_inv (platform_harts hs)
  refine ⟨hi.length, hi.place h, h6, ?_⟩
  rw [hxs]
  exact (merged hs).sorting h h6

/-- Hart 0 in the final merge. -/
theorem ending (hs : (platform p caps input).ReachBy Prompt s)
    (h8 : 8 ≤ (s.harts.pc .hart0).stage) :
    Ending p (sortedHalf p input .hart0) (sortedHalf p input .hart1)
      (s.harts.pc .hart0, s.harts.mem) := by
  have hi := harts_inv (platform_harts hs)
  have h7 : 7 ≤ (s.harts.pc .hart1).stage := harts_separated (platform_harts hs) .hart0 h8
  have hm := merged hs
  refine ⟨hi.length, hi.place .hart0, h8, ?_, ?_, hm.finishing (by omega)⟩
  · exact (sorting_of_le (by omega)).mp (hm.sorting .hart0 (by omega))
  · exact (sorting_of_le h7).mp (hm.sorting .hart1 (by omega))

/-- A step outside the merges accesses no array. -/
theorem inside_of_stage {stray : UInt8} {pc pc' : HartPc} {mem mem' : Memory} {ev : List Event}
    (h6 : pc.stage ≠ 6) (h8 : h = .hart0 → pc.stage ≠ 8) (hplace : Place p h pc)
    (hs : hartStep p h stray pc mem = some (pc', mem', ev)) : ∀ e ∈ ev, e.Inside p := by
  have hone : ∀ e : Event, ev = [e] → e.Inside p → ∀ e ∈ ev, e.Inside p := by
    rintro e rfl he e' he'
    rw [List.mem_singleton.mp he']
    exact he
  cases hartStep_move hs with
  | pass hpc => exact absurd hpc h6
  | final hpc =>
    -- only hart 0 merges the halves
    cases h with
    | hart0 => exact absurd hpc (h8 rfl)
    | hart1 =>
      cases pc with
      | finals i => cases hplace
      | final i m => cases hplace.1
      | ret =>
        cases hs
        exact hone _ rfl trivial
      | wait ph | transfer ph k | post ph => cases ph <;> simp at hpc
      | _ => simp at hpc
  | barrier =>
    intro e he
    obtain ⟨w, rfl⟩ := mem_barrierPosts he
    trivial
  | init | dmaStore | post | ret | exit => exact hone _ rfl trivial
  | _ => exact fun e he => by cases he

theorem watched_of_gt {xs xs' os : List UInt8} {pc : HartPc} (h7 : 7 ≤ pc.stage) :
    Watched p xs pc xs' os ↔ ∀ t, 32 * 2 ^ t ≤ p.half → LastPair p xs (32 * 2 ^ t) := by
  cases pc with
  | passes W | pairs W i | merge W i m | copy W k | copyStore W k v => simp at h7
  | _ => exact Iff.rfl

theorem finalWatched_of_gt {T0 T1 : List UInt8} {pc : HartPc} (h9 : 9 ≤ pc.stage) :
    FinalWatched p T0 T1 pc ↔ RightEndsLast T0 T1 := by
  cases pc with
  | finals i | final i m => simp at h9
  | _ => exact Iff.rfl

/-- Hart 0 begins the final merge with its first pair. -/
theorem begin_finals {stray : UInt8} {pc pc' : HartPc} {mem mem' : Memory} {ev : List Event}
    (h7 : pc.stage = 7) (h8 : 8 ≤ pc'.stage)
    (hs : hartStep p .hart0 stray pc mem = some (pc', mem', ev)) : pc' = .finals 1 := by
  cases pc with
  | barrier b =>
    simp only [hartStep] at hs
    split at hs
    · cases hs
      rfl
    · obtain ⟨r, -, hs⟩ := Option.map_eq_some_iff.mp hs
      cases hs
      simp at h8
  | wait ph | transfer ph k | post ph => cases ph <;> simp at h7
  | _ => simp at h7

namespace Platform.Traced

/-- **A step of the passes**, or into them. -/
theorem stepping (ht : s.Traced p input) (hs : (platform p caps input).ReachBy Prompt s) {g : Hart}
    {stray : UInt8} (hok : Prompt s (.hart g stray)) {pc' : HartPc} {mem' : Memory}
    {ev : List Event} (hstep : hartStep p g stray (s.harts.pc g) s.harts.mem = some (pc', mem', ev))
    (hev : ∀ e ∈ ev, e.Inside p) (hstage : 6 ≤ pc'.stage) :
    ∃ xs, RunsPerm 16 xs (inputHalf p input g) ∧ p.passed xs = sortedHalf p input g ∧
      Watched p xs pc' (mem'.arr (tmp g)) (mem'.arr (out g)) := by
  have hi := harts_inv (platform_harts hs)
  have hmove := hartStep_move hstep
  by_cases h6 : 6 ≤ (s.harts.pc g).stage
  · obtain ⟨xs, hruns, hpassed, hw⟩ := ht.passes g h6
    refine ⟨xs, hruns, hpassed, ?_⟩
    have hp := passing hs h6 hpassed
    by_cases heq : (s.harts.pc g).stage = 6
    · exact hartStep_watched hp heq hw ((hp.inside heq hstep).mp hev) hstep
    · have hle := hmove.stage_le
      exact (watched_of_gt (by omega)).mpr ((watched_of_gt (by omega)).mp hw)
  · obtain ⟨hpc, rfl, harr⟩ := hmove.begin_passes (by omega) hstage
    have hlen : (s.harts.mem.arr (tmp g)).length = p.half := (hi.length _).trans (length_tmp p g)
    have h5 : (s.harts.pc g).stage = 5 := by rw [hpc]; rfl
    have hblocks : ∀ k < p.half / 16, block (s.harts.mem.arr (tmp g)) (16 * k) =
        (block input (base p g + 16 * k)).mergeSort := by
      intro k hk
      obtain ⟨i, hmem⟩ := read_mem_reads p g k hk
      exact filled hs _ (served_of_reads hs hok (by omega) hmem rfl) _ rfl (show _ < 6 by
        rw [show (read_data_from_ACC g (.peRead i 0) (.arr (tmp g) (16 * k)) 16).hart = g from rfl]
        omega)
    refine ⟨s.harts.mem.arr (tmp g), runsPerm_fetched (input_length hs) hlen hblocks, ?_, ?_⟩
    · have hbase := base_le p g
      have hin := input_length hs
      refine passed_eq_mergeSort hlen (by rw [slice_length (by omega)]; omega) fun k hk => ?_
      rw [slice_slice _ (by omega), ← Nat.add_assoc]
      exact hblocks k hk
    · rw [harr]
      exact ⟨0, rfl, RunsPerm.refl _ _, fun u hu => absurd hu (Nat.not_lt_zero u)⟩

/-- **A step of a hart** that accesses its arrays inside. -/
theorem hart (ht : s.Traced p input) (hs : (platform p caps input).ReachBy Prompt s) {g : Hart}
    {stray : UInt8} (hok : Prompt s (.hart g stray)) {pc' : HartPc} {mem' : Memory}
    {ev : List Event} (hstep : hartStep p g stray (s.harts.pc g) s.harts.mem = some (pc', mem', ev))
    (hev : ∀ e ∈ ev, e.Inside p) :
    Platform.Traced p input
      { s with
        harts := ⟨Function.update s.harts.pc g pc', mem', s.harts.trace ++ ev⟩
        dma := storeAll s.dma (dmaLog ev) } := by
  have hmove := hartStep_move hstep
  refine ⟨(Hart.forall_iff g).mpr ⟨fun hstage => ?_, fun hstage => ?_⟩, fun hstage => ?_⟩
  · dsimp only at hstage ⊢
    rw [Function.update_self] at hstage ⊢
    exact ht.stepping hs hok hstep hev hstage
  · have hne : g.other ≠ g := g.ne_other.symm
    dsimp only at hstage ⊢
    rw [Function.update_of_ne hne] at hstage ⊢
    rw [hmove.tmp_eq fun h => absurd h hne, hmove.out_eq hne]
    exact ht.passes g.other hstage
  · dsimp only at hstage ⊢
    cases g with
    | hart0 =>
      rw [Function.update_self] at hstage ⊢
      have hle := hmove.stage_le
      by_cases h8 : 8 ≤ (s.harts.pc .hart0).stage
      · have he := ending hs h8
        by_cases heq : (s.harts.pc .hart0).stage = 8
        · exact hartStep_finalWatched he heq (ht.final h8) ((he.inside heq hstep).mp hev) hstep
        · exact (finalWatched_of_gt (by omega)).mpr
            ((finalWatched_of_gt (by omega)).mp (ht.final h8))
      · by_cases h7 : (s.harts.pc .hart0).stage = 7
        · rw [begin_finals h7 hstage hstep]
          exact Or.inl rfl
        · have := hmove.enter_barrier (by omega) (by omega)
          omega
    | hart1 =>
      rw [Function.update_of_ne (by simp)] at hstage ⊢
      exact ht.final hstage

/-- The DMA writes to the `tmp` of a hart in its phase. -/
theorem writeRam (ht : s.Traced p input) (hs : (platform p caps input).ReachBy Prompt s)
    {off n o : Nat} {a : Arr} {d : SimpleDMA} (hpc : s.dma.pc = .write off n (.arr a o))
    {bytes : List UInt8} :
    (Platform.enter { s with harts := { s.harts with
      mem := s.harts.mem.setArr a bytes } } d).Traced p input := by
  obtain ⟨-, -, -, g, i, rfl, -, -, -, ph, k, hph⟩ := prompt_writeRam hs hpc
  refine ⟨fun h hstage => ?_, ht.final⟩
  have hne : h ≠ g := by
    rintro rfl
    have h6 : 6 ≤ (s.harts.pc h).stage := hstage
    rw [hph] at h6
    cases ph <;> simp at h6
  show ∃ xs, _ ∧ _ ∧ Watched p xs (s.harts.pc h)
    (Function.update s.harts.mem.arr (tmp g) bytes (tmp h))
    (Function.update s.harts.mem.arr (tmp g) bytes (out h))
  rw [Function.update_of_ne fun heq => hne (tmp_injective heq),
    Function.update_of_ne (out_ne_tmp h g)]
  exact ht.passes h hstage

end Platform.Traced

theorem traced (hs : (platform p caps input).ReachBy Prompt s)
    (hin : ∀ e ∈ s.harts.trace, e.Inside p) : s.Traced p input := by
  induction hs with
  | @init s h0 =>
    obtain ⟨⟨hpc, -⟩, -⟩ := h0
    refine ⟨fun h h6 => ?_, fun h8 => ?_⟩
    · rw [hpc] at h6
      cases h <;> simp [entry] at h6
    · rw [hpc] at h8
      simp [entry] at h8
  | @step s s' a hs hok hn ih =>
    cases (platform_effect hn).2 with
    | hart hstep =>
      have hbefore := ih fun e he => hin e (List.mem_append_left _ he)
      exact hbefore.hart hs hok hstep fun e he => hin e (List.mem_append_right _ he)
    | writeRam hpc _ _ => exact (ih hin).writeRam hs hpc
    | _ => exact ⟨(ih hin).passes, (ih hin).final⟩

/-! ## Accesses outside -/

/-- The load of the element behind the last one of `tmp`, or of `out1`. -/
def Past (p : Program) (e : Event) : Prop :=
  (∃ g, e = .load g (tmp g) p.half) ∨ e = .load .hart0 .out1 p.half

/-- The passes leave a sorted half as it is. -/
theorem passed_sortedHalf (hin : input.length = p.total) :
    p.passed (sortedHalf p input h) = sortedHalf p input h := by
  have hbase := base_le p h
  have hlen : (sortedHalf p input h).length = p.half := by
    rw [sortedHalf, List.length_mergeSort, slice_length (by omega)]
    omega
  have hsorted : (sortedHalf p input h).Pairwise (· ≤ ·) := mergeSort_sorted _
  refine (passed_eq_mergeSort hlen hlen fun k _ => ?_).trans
    (eq_mergeSort hsorted (List.Perm.refl _)).symm
  refine eq_mergeSort (hsorted.sublist ?_) (List.Perm.refl _)
  exact (List.drop_sublist _ _).trans (List.take_sublist _ _)

/-- **What a step of a hart accesses** is inside its array, or `y[l2]` one past the end. -/
theorem inside_or_past (hs : (platform p caps input).ReachBy Prompt s) {g : Hart} {stray : UInt8}
    {pc' : HartPc} {mem' : Memory} {ev : List Event}
    (hstep : hartStep p g stray (s.harts.pc g) s.harts.mem = some (pc', mem', ev)) :
    (∀ e ∈ ev, e.Inside p) ∨
      ((s.harts.pc g).stage = 6 ∨ g = .hart0 ∧ (s.harts.pc g).stage = 8) ∧
        (s.harts.pc g).Beyond p ∧ ∃ e, ev = [e] ∧ Past p e := by
  by_cases h6 : (s.harts.pc g).stage = 6
  · have hp := passing (h := g) hs (by omega) (passed_sortedHalf (input_length hs))
    by_cases hb : (s.harts.pc g).Beyond p
    · exact Or.inr ⟨Or.inl h6, hb, _, hp.beyond h6 hb hstep, Or.inl ⟨g, rfl⟩⟩
    · exact Or.inl ((hp.inside h6 hstep).mpr hb)
  · by_cases h8 : g = .hart0 ∧ (s.harts.pc g).stage = 8
    · obtain ⟨rfl, h8⟩ := h8
      have hend := ending hs (by omega)
      by_cases hb : (s.harts.pc .hart0).Beyond p
      · exact Or.inr ⟨Or.inr ⟨rfl, h8⟩, hb, _, hend.beyond h8 hb hstep, Or.inr rfl⟩
      · exact Or.inl ((hend.inside h8 hstep).mpr hb)
    · have hplace := (harts_inv (platform_harts hs)).place g
      exact Or.inl (inside_of_stage h6 (fun hg h => h8 ⟨hg, h⟩) hplace hstep)

/-- In `in` no right run at the end of an array ends first. -/
structure EndsLast (p : Program) (input : List UInt8) : Prop where
  passes : ∀ h W, p.Width W → LastPair p (inputHalf p input h) W
  final : RightEndsLast (inputHalf p input .hart0) (inputHalf p input .hart1)

theorem EndsLast.sorted (he : EndsLast p input) :
    RightEndsLast (sortedHalf p input .hart0) (sortedHalf p input .hart1) :=
  (rightEndsLast_congr (List.mergeSort_perm _ _) (List.mergeSort_perm _ _)).mpr he.final

/-- **With every right run ending last** a run accesses its arrays inside. -/
theorem inside_of_endsLast (he : EndsLast p input)
    (hs : (platform p caps input).ReachBy Prompt s) : ∀ e ∈ s.harts.trace, e.Inside p := by
  induction hs with
  | init h0 =>
    obtain ⟨⟨-, -, -, htr⟩, -⟩ := h0
    rw [htr]
    exact fun e h => by cases h
  | @step s s' a hs hok hn ih =>
    cases (platform_effect hn).2 with
    | @hart g stray pc' mem' ev hstep =>
      have ht := traced hs ih
      have hev : ∀ e ∈ ev, e.Inside p := by
        rcases inside_or_past hs hstep with hin | ⟨h6 | ⟨rfl, h8⟩, hb, -⟩
        · exact hin
        · obtain ⟨xs, hruns, hpassed, hw⟩ := ht.passes g (by omega)
          have hall : ∀ t, 32 * 2 ^ t ≤ p.half → LastPair p xs (32 * 2 ^ t) := by
            intro t hle
            exact (lastPair_congr hruns hle).mpr (he.passes g _ ⟨hle, t, rfl⟩)
          exact absurd hb (hw.not_beyond (passing hs (by omega) hpassed) h6 hall)
        · have hend := ending hs (by omega)
          exact absurd hb ((ht.final (by omega)).not_beyond hend h8 he.sorted)
      intro e hmem
      rcases List.mem_append.mp hmem with hmem | hmem
      · exact ih e hmem
      · exact hev e hmem
    | _ => exact ih

/-- **Nothing else is accessed outside an array.** -/
theorem past_of_not_inside (hs : (platform p caps input).ReachBy Prompt s) :
    ∀ e ∈ s.harts.trace, ¬ e.Inside p → Past p e := by
  induction hs with
  | init h0 =>
    obtain ⟨⟨-, -, -, htr⟩, -⟩ := h0
    rw [htr]
    exact fun e h => by cases h
  | @step s s' a hs hok hn ih =>
    cases (platform_effect hn).2 with
    | @hart g stray pc' mem' ev hstep =>
      intro e hmem hno
      rcases List.mem_append.mp hmem with hmem | hmem
      · exact ih e hmem hno
      · rcases inside_or_past hs hstep with hin | ⟨-, -, e', rfl, hpast⟩
        · exact absurd (hin e hmem) hno
        · rwa [List.mem_singleton.mp hmem]
    | _ => exact ih

/-- **Which inputs are sorted without an access outside an array**: a run from reset to `SYS_EXIT`
has made none exactly when `in` has, in every pass of both halves, an element in the last right run
above all of the left run, and in its second half one above all of its first. The only other
accesses are loads of `y[l2]` one past the end. -/
theorem reads_inside_iff (p : Program) (caps : List Nat) (input : List UInt8) (s : Platform)
    (hs : (platform p caps input).ReachBy Prompt s) (hexit : s.harts.Exited) :
    ((∀ e ∈ s.harts.trace, e.Inside p) ↔ EndsLast p input) ∧
      ∀ e ∈ s.harts.trace, ¬ e.Inside p → Past p e := by
  refine ⟨⟨fun hin => ?_, fun he => inside_of_endsLast he hs⟩, past_of_not_inside hs⟩
  have ht := traced hs hin
  obtain ⟨g, hg⟩ := hexit
  have hpast : ∀ h, 9 ≤ (s.harts.pc h).stage := by
    intro h
    have := (harts_inv (platform_harts hs)).counted_of_won (h := g) (by rw [hg]; rfl) h
    omega
  refine ⟨fun h W hW => ?_, ?_⟩
  · obtain ⟨hle, t, rfl⟩ := hW
    obtain ⟨xs, hruns, -, hw⟩ := ht.passes h (by have := hpast h; omega)
    have hall := (watched_of_gt (by have := hpast h; omega)).mp hw
    exact (lastPair_congr hruns hle).mp (hall t hle)
  · have hfinal := (finalWatched_of_gt (hpast .hart0)).mp
      (ht.final (by have := hpast .hart0; omega))
    exact (rightEndsLast_congr (List.mergeSort_perm _ _) (List.mergeSort_perm _ _)).mp hfinal

/-- From 64, …, 1 a run gets to its end, and has by then compared with an element past an array. -/
theorem reads_inside_iff_descending : ∃ s,
    (platform .main [16, 16, 16, 16, 16] (Platform.resetInput .main)).ReachBy Prompt s ∧
      s.harts.Exited ∧ ∃ e ∈ s.harts.trace, ¬ e.Inside .main ∧ Past .main e := by
  have hinit := Platform.reset_init .main
  have hpos : ∀ c ∈ [16, 16, 16, 16, 16], 0 < c := by decide
  obtain ⟨s, hs, hexit⟩ := (Machine.ReachBy.init hinit).complete (Platform.down_wf .main)
    fun s hs hend => by
      obtain ⟨c, hc⟩ := platform_progress hpos hs hend
      obtain ⟨hok, hsome⟩ := hc c.act (by cases c <;> rfl)
      obtain ⟨s', hn⟩ := Option.isSome_iff_exists.mp hsome
      exact ⟨c.act, s', hok, hn, platform_down hs hn⟩
  obtain ⟨hiff, hpast⟩ := reads_inside_iff .main _ _ s hs hexit
  have hout : ¬ ∀ e ∈ s.harts.trace, e.Inside .main := by
    intro hin
    have hends := hiff.mp hin
    -- the right run of the first half's only pass holds 48, …, 33, its left run 64, …, 49
    have hlast := hends.passes .hart0 32 ⟨by decide, 0, rfl⟩
    have hnot : ¬ LastPair .main (inputHalf .main (Platform.resetInput .main) .hart0) 32 := by
      unfold LastPair RightEndsLast
      decide +kernel
    exact hnot hlast
  push Not at hout
  obtain ⟨e, he, hno⟩ := hout
  exact ⟨s, hs, hexit, e, he, hno, hpast e he hno⟩

end SortPlatform

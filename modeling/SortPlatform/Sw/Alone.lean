import Mathlib.Data.Prod.Lex
import SortPlatform.Sw.Passes

/-!
# A hart by itself

The passes of a hart and the final merge of `src/sw/final/main.cpp` and `main128.cpp`, run alone
from any contents of the arrays. Every load outside an array may find another stray byte.

* `alone` — the hart for as long as it is in one part of the program.
* `HartPc.rank` — what goes down in every step of these loops.
* `Completes` — none of these runs goes on for ever or stops inside.

Principal results:

* `passes_complete`, `finals_complete` — whatever the stray bytes, the loops come to their ends.
* `merges_ignore_stray` — and what they leave in `out0`, `out1` and `result` does not depend on
  the stray bytes.
-/

set_option autoImplicit false

namespace SortPlatform.Sw

open RunMerge

/-- Hart `h` by itself from `pc` and `mem`, as long as it is in the part `stage`; the label is
what a load outside an array finds. -/
def alone (p : Program) (h : Hart) (stage : Nat) (pc : HartPc) (mem : Memory) :
    Machine (HartPc × Memory) UInt8 where
  init s := s = (pc, mem)
  next s stray :=
    if s.1.stage = stage then (hartStep p h stray s.1 s.2).map fun r => (r.1, r.2.1) else none

theorem alone_next {p : Program} {h : Hart} {stage : Nat} {pc : HartPc} {mem : Memory}
    {s s' : HartPc × Memory} {stray : UInt8} :
    (alone p h stage pc mem).next s stray = some s' ↔
      s.1.stage = stage ∧ ∃ ev, hartStep p h stray s.1 s.2 = some (s'.1, s'.2, ev) := by
  by_cases hstage : s.1.stage = stage
  · simp only [alone, if_pos hstage, Option.map_eq_some_iff]
    constructor
    · rintro ⟨⟨pc', mem', ev⟩, hs, rfl⟩
      exact ⟨hstage, ev, hs⟩
    · rintro ⟨-, ev, hs⟩
      exact ⟨_, hs, rfl⟩
  · simp only [alone, if_neg hstage]
    exact ⟨nofun, fun h => absurd h.1 hstage⟩

/-! ## The loops end -/

/-- What goes down in every step of a merge. -/
def Merge.rank (b : Bounds) (m : Merge) : Nat :=
  6 * (b.last - m.index) +
    match m.pc with
    | .test => 5
    | .left => 4
    | .right _ => 3
    | .pick _ => 2
    | .put _ => 1
    | .done => 0

theorem Merge.rank_next {b : Bounds} {x y : List UInt8} {stray : UInt8} {m : Merge}
    (hb : m.Below b) (hpc : m.pc ≠ .done) : (m.next b x y stray).1.rank b < m.rank b := by
  obtain ⟨l1, l2, index, pc⟩ := m
  unfold Merge.next
  cases pc with
  | test =>
    dsimp only
    split
    · split <;> simp [Merge.rank]
    · simp [Merge.rank]
  | left => simp [Merge.rank]
  | right a => simp [Merge.rank]
  | pick left => cases left <;> simp [Merge.rank]
  | put v =>
    have hlt : index < b.last := hb
    simp only [Merge.rank]
    omega
  | done => exact absurd rfl hpc

/-- What goes down, most significant first: the widths and pairs to come, and what is to be done
for the present pair. -/
def HartPc.rank (p : Program) : HartPc → Nat × Nat × Nat × Nat
  | .passes W => (p.half + 1 - W, 3, 0, 0)
  | .pairs W i => (p.half + 1 - W, 2, p.half / W + 2 - i, 0)
  | .merge W i m => (p.half + 1 - W, 2, p.half / W + 1 - i, m.rank (passBounds W i) + 1)
  | .copy W k => (p.half + 1 - W, 1, p.half - k, 1)
  | .copyStore W k _ => (p.half + 1 - W, 1, p.half - k, 0)
  | .finals i => (0, 2, p.total / p.total + 2 - i, 0)
  | .final i m => (0, 2, p.total / p.total + 1 - i, m.rank (finalBounds p i) + 1)
  | .ret => (0, 1, 0, 0)
  | _ => (0, 0, 0, 0)

/-- The order of `rank`. -/
def Lower : Nat × Nat × Nat × Nat → Nat × Nat × Nat × Nat → Prop :=
  Prod.Lex (· < ·) (Prod.Lex (· < ·) (Prod.Lex (· < ·) (· < ·)))

theorem lower_wf : WellFounded Lower :=
  WellFounded.prod_lex Nat.lt_wfRel.wf (WellFounded.prod_lex Nat.lt_wfRel.wf
    (WellFounded.prod_lex Nat.lt_wfRel.wf Nat.lt_wfRel.wf))

theorem lower_iff {a b c d a' b' c' d' : Nat} : Lower (a, b, c, d) (a', b', c', d') ↔
    a < a' ∨ (a = a' ∧ (b < b' ∨ (b = b' ∧ (c < c' ∨ (c = c' ∧ d < d'))))) := by
  simp only [Lower, Prod.lex_def]

section Rank

variable {p : Program} {h : Hart} {stray : UInt8} {pc pc' : HartPc} {mem mem' : Memory}
  {ev : List Event}

/-- **Every step of the loops goes down.** -/
theorem hartStep_rank (hp : Place p h pc) (hcopy : ∀ W k, pc = .copy W k → 0 < W ∧ W ≤ p.half)
    (hstage : pc.stage = 6 ∨ pc.stage = 8) (hs : hartStep p h stray pc mem = some (pc', mem', ev)) :
    Lower (pc'.rank p) (pc.rank p) := by
  unfold hartStep at hs
  cases pc with
  | passes W =>
    cases hs
    split <;> refine lower_iff.mpr ?_ <;> omega
  | pairs W i =>
    cases hs
    split <;> refine lower_iff.mpr ?_ <;> omega
  | merge W i m =>
    obtain ⟨hi, hbelow⟩ := hp
    dsimp only at hs
    split at hs
    · cases hs
      refine lower_iff.mpr ?_
      omega
    · rename_i hpc
      obtain ⟨⟨m', r⟩, hm, hs⟩ := Option.map_eq_some_iff.mp hs
      cases hs
      have hlt : (m.next (passBounds W i) (mem.arr (tmp h)) (mem.arr (tmp h)) stray).1.rank
        (passBounds W i) < m.rank (passBounds W i) := Merge.rank_next hbelow hpc
      rw [← (mergeIn_eq_some hm).1] at hlt
      refine lower_iff.mpr ?_
      dsimp only
      omega
  | copy W k =>
    obtain ⟨hW, hle⟩ := hcopy W k rfl
    dsimp only at hs
    split at hs
    · cases hs
      refine lower_iff.mpr ?_
      omega
    · cases hs
      refine lower_iff.mpr ?_
      omega
  | copyStore W k v =>
    have hk : k < p.half := hp
    obtain ⟨mem₁, -, hs⟩ := Option.map_eq_some_iff.mp hs
    cases hs
    refine lower_iff.mpr ?_
    omega
  | finals i =>
    cases hs
    split <;> refine lower_iff.mpr ?_ <;> omega
  | final i m =>
    obtain ⟨-, hi, hbelow⟩ := hp
    dsimp only at hs
    split at hs
    · cases hs
      refine lower_iff.mpr ?_
      omega
    · rename_i hpc
      obtain ⟨⟨m', r⟩, hm, hs⟩ := Option.map_eq_some_iff.mp hs
      cases hs
      have hlt : (m.next (finalBounds p i) (mem.arr .out0) (mem.arr .out1) stray).1.rank
        (finalBounds p i) < m.rank (finalBounds p i) := Merge.rank_next hbelow hpc
      rw [← (mergeIn_eq_some hm).1] at hlt
      refine lower_iff.mpr ?_
      dsimp only
      omega
  | ret =>
    cases hs
    refine lower_iff.mpr ?_
    omega
  | wait ph | transfer ph k | post ph => cases ph <;> simp at hstage
  | _ => simp at hstage

/-- Inside the loops there always is a step. -/
theorem hartStep_of_stage (hlen : ∀ a, (mem.arr a).length = p.length a) (hp : Place p h pc)
    (hstage : pc.stage = 6 ∨ pc.stage = 8) (stray : UInt8) :
    ∃ r, hartStep p h stray pc mem = some r := by
  rw [← Option.ne_none_iff_exists']
  intro hnone
  rcases hartStep_eq_none hlen hp hnone with ⟨ph, rfl, -⟩ | ⟨b, rfl, -⟩ | ⟨a0, rfl, -⟩ | rfl
  · cases ph <;> simp at hstage
  all_goals simp at hstage

end Rank

/-- What the loops keep for every step to go down. -/
structure Looping (p : Program) (h : Hart) (s : HartPc × Memory) : Prop where
  length : ∀ a, (s.2.arr a).length = p.length a
  place : Place p h s.1
  copy : ∀ W k, s.1 = .copy W k → 0 < W ∧ W ≤ p.half

section Looping

variable {p : Program} {h : Hart} {stage : Nat} {start : HartPc} {mem : Memory}
  {s s' : HartPc × Memory} {stray : UInt8}

theorem Looping.down (hl : Looping p h s) (hstage : stage = 6 ∨ stage = 8)
    (hn : (alone p h stage start mem).next s stray = some s') :
    Lower (s'.1.rank p) (s.1.rank p) := by
  obtain ⟨rfl, ev, hstep⟩ := alone_next.mp hn
  exact hartStep_rank hl.place hl.copy hstage hstep

theorem Looping.isSome (hl : Looping p h s) (hstage : stage = 6 ∨ stage = 8)
    (heq : s.1.stage = stage) (stray : UInt8) :
    ∃ s', (alone p h stage start mem).next s stray = some s' := by
  subst heq
  obtain ⟨⟨pc', mem', ev⟩, hstep⟩ := hartStep_of_stage hl.length hl.place hstage stray
  exact ⟨(pc', mem'), alone_next.mpr ⟨rfl, ev, hstep⟩⟩

/-- **Every run comes to the end of the loops**: none goes on for ever, and none stops inside,
whatever the next load finds. -/
structure Completes (p : Program) (h : Hart) (stage : Nat) (start : HartPc) (mem : Memory) :
    Prop where
  endless : ∀ run, ¬ (alone p h stage start mem).Endless (fun _ _ => True) run
  isSome : ∀ s, (alone p h stage start mem).Reach s → s.1.stage = stage →
    ∀ stray, ∃ s', (alone p h stage start mem).next s stray = some s'

/-- **A hart in the loops comes to their end**: the rank goes down until it has left its part of the
program. -/
theorem alone_completes (hstage : stage = 6 ∨ stage = 8)
    (hinv : ∀ s, (alone p h stage start mem).Reach s → Looping p h s) :
    Completes p h stage start mem := by
  refine ⟨?_, fun s hs heq stray => (hinv s hs).isSome hstage heq stray⟩
  exact Machine.not_endless (InvImage.wf (fun s : HartPc × Memory => s.1.rank p) lower_wf)
    fun s _ _ hs _ hn => (hinv s hs).down hstage hn

/-- Some run whose stray bytes meet `ok` gets to the end, when there always is such a byte. -/
theorem alone_complete {ok : HartPc × Memory → UInt8 → Prop} (hstage : stage = 6 ∨ stage = 8)
    (hinv : ∀ s, (alone p h stage start mem).ReachBy ok s → Looping p h s)
    (hok : ∀ s, (alone p h stage start mem).ReachBy ok s → ∃ stray, ok s stray) :
    ∃ s, (alone p h stage start mem).ReachBy ok s ∧ s.1.stage ≠ stage := by
  refine Machine.ReachBy.complete (InvImage.wf (fun s : HartPc × Memory => s.1.rank p) lower_wf)
    (fun s hs hend => ?_) (.init rfl)
  have hl := hinv s hs
  obtain ⟨stray, hstray⟩ := hok s hs
  obtain ⟨s', hn⟩ := hl.isSome hstage (not_not.mp hend) stray
  exact ⟨stray, s', hstray, hn, hl.down hstage hn⟩

end Looping

/-! ## The passes -/

/-- A hart in its passes. -/
structure Passing (p : Program) (h : Hart) (xs : List UInt8) (s : HartPc × Memory) : Prop where
  length : ∀ a, (s.2.arr a).length = p.length a
  place : Place p h s.1
  stage : 6 ≤ s.1.stage
  sorting : Sorting p (p.passed xs) s.1 (s.2.arr (tmp h)) (s.2.arr (out h))

section Passing

variable {p : Program} {h : Hart} {mem : Memory} {ok : HartPc × Memory → UInt8 → Prop}
  {s : HartPc × Memory}

theorem Passing.next {xs : List UInt8} {stray : UInt8} {pc' : HartPc} {mem' : Memory}
    {ev : List Event} (hp : Passing p h xs s)
    (hs : hartStep p h stray s.1 s.2 = some (pc', mem', ev)) : Passing p h xs (pc', mem') := by
  obtain ⟨hlen, hplace, hstage, hsorting⟩ := hp
  have hm := hartStep_move hs
  refine ⟨fun a => (hm.length a).trans (hlen a), hartStep_place hplace hs,
    hstage.trans hm.stage_le, ?_⟩
  exact hartStep_sorting hlen hsorting hstage hs

theorem alone_passing (hlen : ∀ a, (mem.arr a).length = p.length a)
    (hs : (alone p h 6 (.passes 32) mem).ReachBy ok s) : Passing p h (mem.arr (tmp h)) s := by
  refine hs.invariant (motive := Passing p h (mem.arr (tmp h))) ?_ ?_
  · rintro s rfl
    exact ⟨hlen, trivial, Nat.le_refl 6, sorting_passed p _ _⟩
  · intro s stray s' hp _ hn
    obtain ⟨-, ev, hstep⟩ := alone_next.mp hn
    exact hp.next hstep

theorem Passing.copy {xs : List UInt8} (hp : Passing p h xs s) {W k : Nat}
    (hpc : s.1 = .copy W k) : 0 < W ∧ W ≤ p.half := by
  have hsorting := hp.sorting
  rw [hpc] at hsorting
  obtain ⟨j, hpassed, -⟩ := hsorting
  refine ⟨hpassed.pos, ?_⟩
  rw [hpassed.half]
  exact Nat.le_mul_of_pos_right _ (Nat.two_pow_pos j)

theorem Passing.looping {xs : List UInt8} (hp : Passing p h xs s) : Looping p h s :=
  ⟨hp.length, hp.place, fun _ _ hpc => hp.copy hpc⟩

/-- **The passes come to their end**, whatever the stray bytes. -/
theorem passes_complete (hlen : ∀ a, (mem.arr a).length = p.length a)
    (hok : ∀ s, (alone p h 6 (.passes 32) mem).ReachBy ok s → ∃ stray, ok s stray) :
    ∃ s, (alone p h 6 (.passes 32) mem).ReachBy ok s ∧ s.1.stage ≠ 6 :=
  alone_complete (Or.inl rfl) (fun _ hs => (alone_passing hlen hs).looping) hok

theorem Passing.result {xs : List UInt8} (hp : Passing p h xs s) (hend : s.1.stage ≠ 6) :
    s.2.arr (out h) = p.passed xs := by
  have hstage := hp.stage
  exact (sorting_of_le (by omega)).mp hp.sorting

end Passing

/-! ## The final merge -/

/-- Hart 0 behind the barrier. -/
structure Ending (p : Program) (T0 T1 : List UInt8) (s : HartPc × Memory) : Prop where
  length : ∀ a, (s.2.arr a).length = p.length a
  place : Place p .hart0 s.1
  stage : 8 ≤ s.1.stage
  out0 : s.2.arr .out0 = T0
  out1 : s.2.arr .out1 = T1
  finishing : Finishing p T0 T1 s.1 (s.2.arr .result)

section Ending

variable {p : Program} {mem : Memory} {ok : HartPc × Memory → UInt8 → Prop}
  {T0 T1 : List UInt8} {s : HartPc × Memory}

theorem Ending.next {stray : UInt8} {pc' : HartPc} {mem' : Memory} {ev : List Event}
    (he : Ending p T0 T1 s) (hs : hartStep p .hart0 stray s.1 s.2 = some (pc', mem', ev)) :
    Ending p T0 T1 (pc', mem') := by
  obtain ⟨hlen, hplace, hstage, h0, h1, hfin⟩ := he
  have hm := hartStep_move hs
  have hframe : ∀ a, a ≠ .result → mem'.arr a = s.2.arr a := by
    intro a ha
    rcases hm.arr a with heq | ⟨h6, -⟩ | ⟨-, heq⟩
    · exact heq
    · omega
    · exact absurd heq ha
  refine ⟨fun a => (hm.length a).trans (hlen a), hartStep_place hplace hs,
    hstage.trans hm.stage_le, (hframe _ (by simp)).trans h0, (hframe _ (by simp)).trans h1, ?_⟩
  exact hartStep_finishing hlen (fun _ => ⟨h0, h1⟩) hfin (by omega) hs

theorem alone_ending (hlen : ∀ a, (mem.arr a).length = p.length a)
    (hs : (alone p .hart0 8 (.finals 1) mem).ReachBy ok s) :
    Ending p (mem.arr .out0) (mem.arr .out1) s := by
  refine hs.invariant (motive := Ending p (mem.arr .out0) (mem.arr .out1)) ?_ ?_
  · rintro s rfl
    exact ⟨hlen, rfl, Nat.le_refl 8, rfl, rfl, Or.inl rfl⟩
  · intro s stray s' he _ hn
    obtain ⟨-, ev, hstep⟩ := alone_next.mp hn
    exact he.next hstep

theorem Ending.looping (he : Ending p T0 T1 s) : Looping p .hart0 s := by
  refine ⟨he.length, he.place, fun W k hpc => ?_⟩
  have hstage := he.stage
  rw [hpc] at hstage
  simp at hstage

/-- **The final merge comes to its end**, whatever the stray bytes. -/
theorem finals_complete (hlen : ∀ a, (mem.arr a).length = p.length a)
    (hok : ∀ s, (alone p .hart0 8 (.finals 1) mem).ReachBy ok s → ∃ stray, ok s stray) :
    ∃ s, (alone p .hart0 8 (.finals 1) mem).ReachBy ok s ∧ s.1.stage ≠ 8 :=
  alone_complete (Or.inr rfl) (fun _ hs => (alone_ending hlen hs).looping) hok

theorem Ending.result (he : Ending p T0 T1 s) (hend : s.1.stage ≠ 8) :
    s.2.arr .result = T0.merge T1 swLe := by
  obtain ⟨-, -, hstage, -, -, hfin⟩ := he
  cases hpc : s.1 with
  | finals i | final i m => rw [hpc] at hend; simp at hend
  | _ => rw [hpc] at hfin hstage; exact hfin hstage

end Ending

/-! ## Stray bytes -/

/-- **The merges do not depend on memory outside their arrays**: whatever each load outside an array
finds, the passes of both harts and the final merge come to their ends; and in any two complete runs
from the same arrays the passes of both harts leave the same `out`, the ascending rearrangement of
`tmp`, and the final merge of ascending `out0` and `out1` the same `result`, the ascending
rearrangement of both. -/
theorem merges_ignore_stray (p : Program) (mem mem' : Memory)
    (hlen : ∀ a, (mem.arr a).length = p.length a) (heq : mem'.arr = mem.arr) :
    (∀ h, Completes p h 6 (.passes 32) mem ∧
      ((∀ k < p.half / 16,
          (slice (mem.arr (tmp h)) (16 * k) (16 * k + 16)).Pairwise (· ≤ ·)) →
        ∀ s s', (alone p h 6 (.passes 32) mem).Reach s →
          (alone p h 6 (.passes 32) mem').Reach s' → s.1.stage ≠ 6 → s'.1.stage ≠ 6 →
            s'.2.arr (out h) = s.2.arr (out h) ∧ (s.2.arr (out h)).Pairwise (· ≤ ·) ∧
              (s.2.arr (out h)).Perm (mem.arr (tmp h)))) ∧
    Completes p .hart0 8 (.finals 1) mem ∧
    ((mem.arr .out0).Pairwise (· ≤ ·) → (mem.arr .out1).Pairwise (· ≤ ·) →
      ∀ s s', (alone p .hart0 8 (.finals 1) mem).Reach s →
        (alone p .hart0 8 (.finals 1) mem').Reach s' → s.1.stage ≠ 8 → s'.1.stage ≠ 8 →
          s'.2.arr .result = s.2.arr .result ∧ (s.2.arr .result).Pairwise (· ≤ ·) ∧
            (s.2.arr .result).Perm (mem.arr .out0 ++ mem.arr .out1)) := by
  have hlen' : ∀ a, (mem'.arr a).length = p.length a := fun a => by rw [heq]; exact hlen a
  refine ⟨fun h => ⟨?_, ?_⟩, ?_, ?_⟩
  · exact alone_completes (Or.inl rfl) fun _ hs => (alone_passing hlen hs).looping
  · intro hblocks s s' hs hs' hend hend'
    have hres := (alone_passing hlen hs).result hend
    have hres' := (alone_passing hlen' hs').result hend'
    rw [hres, hres', heq]
    refine ⟨rfl, passed_sorted ((hlen _).trans (length_tmp p h)) hblocks, ?_⟩
    exact passed_perm p _
  · exact alone_completes (Or.inr rfl) fun _ hs => (alone_ending hlen hs).looping
  · intro h0 h1 s s' hs hs' hend hend'
    have hres := (alone_ending hlen hs).result hend
    have hres' := (alone_ending hlen' hs').result hend'
    rw [hres, hres', heq]
    exact ⟨rfl, pairwise_merge picksLeast_lt _ _ h0 h1, List.merge_perm_append swLe⟩

/-- `tmp` as four ascending blocks, the highest first; `out0` and `out1` the even and the odd
numbers. -/
def blocksDescending : Memory where
  arr
    | .tmp0 | .tmp1 => (List.range 64).map fun i => UInt8.ofNat (48 - 16 * (i / 16) + i % 16)
    | .out0 => (List.range 64).map fun i => UInt8.ofNat (2 * i)
    | .out1 => (List.range 64).map fun i => UInt8.ofNat (2 * i + 1)
    | .in | .result => List.replicate 128 0
  word _ := 0

/-- Two runs of hart 1's passes in `main128.cpp` and two of the final merge, one finding 0 outside
the arrays and the other 255. -/
theorem merges_ignore_stray_blocks :
    (∃ s s', (alone .main128 .hart1 6 (.passes 32) blocksDescending).ReachBy
          (fun _ b => b = 0) s ∧
        (alone .main128 .hart1 6 (.passes 32) blocksDescending).ReachBy (fun _ b => b = 255) s' ∧
        s.1.stage ≠ 6 ∧ s'.1.stage ≠ 6 ∧
        s.2.arr .out1 = (List.range 64).map UInt8.ofNat ∧
        s'.2.arr .out1 = (List.range 64).map UInt8.ofNat) ∧
    ∃ s s', (alone .main128 .hart0 8 (.finals 1) blocksDescending).ReachBy
          (fun _ b => b = 0) s ∧
        (alone .main128 .hart0 8 (.finals 1) blocksDescending).ReachBy (fun _ b => b = 255) s' ∧
        s.1.stage ≠ 8 ∧ s'.1.stage ≠ 8 ∧
        s.2.arr .result = (List.range 128).map UInt8.ofNat ∧
        s'.2.arr .result = (List.range 128).map UInt8.ofNat := by
  have hlen : ∀ a, (blocksDescending.arr a).length = Program.main128.length a := by
    intro a
    cases a <;> rfl
  obtain ⟨hpasses, -, hfinals⟩ :=
    merges_ignore_stray .main128 blocksDescending blocksDescending hlen rfl
  constructor
  · have hrun : ∀ x : UInt8, ∃ s, (alone .main128 .hart1 6 (.passes 32)
        blocksDescending).ReachBy (fun _ b => b = x) s ∧ s.1.stage ≠ 6 :=
      fun x => passes_complete hlen fun _ _ => ⟨x, rfl⟩
    obtain ⟨s, hs, hend⟩ := hrun 0
    obtain ⟨s', hs', hend'⟩ := hrun 255
    obtain ⟨heq, hsorted, hperm⟩ := (hpasses .hart1).2 (by decide +kernel) s s'
      (hs.mono fun _ _ _ _ => trivial) (hs'.mono fun _ _ _ _ => trivial) hend hend'
    have hout : s.2.arr .out1 = (List.range 64).map UInt8.ofNat :=
      (hperm.trans (by decide +kernel)).eq_of_pairwise' hsorted (by decide +kernel)
    exact ⟨s, s', hs, hs', hend, hend', hout, heq.trans hout⟩
  · have hrun : ∀ x : UInt8, ∃ s, (alone .main128 .hart0 8 (.finals 1)
        blocksDescending).ReachBy (fun _ b => b = x) s ∧ s.1.stage ≠ 8 :=
      fun x => finals_complete hlen fun _ _ => ⟨x, rfl⟩
    obtain ⟨s, hs, hend⟩ := hrun 0
    obtain ⟨s', hs', hend'⟩ := hrun 255
    obtain ⟨heq, hsorted, hperm⟩ := hfinals (by decide +kernel) (by decide +kernel) s s'
      (hs.mono fun _ _ _ _ => trivial) (hs'.mono fun _ _ _ _ => trivial) hend hend'
    have hout : s.2.arr .result = (List.range 128).map UInt8.ofNat :=
      (hperm.trans (by decide +kernel)).eq_of_pairwise' hsorted (by decide +kernel)
    exact ⟨s, s', hs, hs', hend, hend', hout, heq.trans hout⟩

end SortPlatform.Sw

import SortPlatform.Stratus.Merge
import SortPlatform.Vp.Pe

/-!
# The accesses of a merge pass

The loop of `MergePass` once more, with the accesses to `A` and `C` noted in the order in which
C++ evaluates them. The condition reads `A[l1]` before it tests `l1 >= second`, and the `else`
branch advances `l1` without any test: both stay in the run because `l1 + l2` counts the
iterations, whatever the comparisons answer.

* `tracedLoop`, `tracedPass` — the loops with their accesses; without them they are `mergeLoop`
  and `mergePass`.
* `PairTrace.Safe` — what a merge of one pair of half runs may touch, and what it leaves in `C`.

Principal results: `tracedLoop_spec` (the cursors and the accesses of every iteration) and
`pass_safe` (no pass of either design leaves its run or loses an element).
-/

set_option autoImplicit false

namespace SortPlatform

open RunMerge

variable {α : Type} {n m : Nat}

/-! ## The loops with their accesses -/

/-- One iteration of the merge loop: the cursors in front of it, the indices at which it reads
`A`, in order, and the index at which it writes `C`. -/
structure Iteration where
  l1 : Nat
  l2 : Nat
  reads : List Nat
  write : Nat
  deriving DecidableEq, Repr

/-- The iterations over one pair of half runs, and where the cursors end. -/
structure PairTrace where
  first : Nat
  iterations : List Iteration
  l1 : Nat
  l2 : Nat
  deriving DecidableEq, Repr

/-- The entries of `C` written, in order. -/
def PairTrace.writes (p : PairTrace) : List Nat := p.iterations.map fun it => it.write

section Traced

variable [LT α] [DecidableLT α]

/-- The condition with the elements it reads; `&&` reads none of them when `l2 > end`. -/
def tracedCondition (A : Vector α n) (second «end» l1 l2 : Nat) : Option (Bool × List Nat) :=
  if l2 ≤ «end» then
    A[l1]?.bind fun a => A[l2]?.map fun b => (decide (a > b) || decide (l1 ≥ second), [l1, l2])
  else some (false, [])

/-- The loop body. -/
def tracedStep (A : Vector α n) (second «end» : Nat) (s : Cursor α m) :
    Option (Iteration × Cursor α m) :=
  (tracedCondition A second «end» s.l1 s.l2).bind fun c =>
    if c.1 then
      A[s.l2]?.bind fun x => (store s.C s.index x).map fun C =>
        ({ l1 := s.l1, l2 := s.l2, reads := c.2 ++ [s.l2], write := s.index },
          { l1 := s.l1, l2 := s.l2 + 1, index := s.index + 1, C := C })
    else
      A[s.l1]?.bind fun x => (store s.C s.index x).map fun C =>
        ({ l1 := s.l1, l2 := s.l2, reads := c.2 ++ [s.l1], write := s.index },
          { l1 := s.l1 + 1, l2 := s.l2, index := s.index + 1, C := C })

/-- `for (int i = 0; i < count; i++)`. -/
def tracedLoop (A : Vector α n) (second «end» : Nat) :
    Nat → Cursor α m → Option (List Iteration × Cursor α m)
  | 0, s => some ([], s)
  | i + 1, s => (tracedStep A second «end» s).bind fun p =>
      (tracedLoop A second «end» i p.2).map fun q => (p.1 :: q.1, q.2)

/-- The body of the loop over `first`. -/
def tracedPair (W : Nat) (A : Vector α n) (C : Vector α m) (first : Nat) :
    Option (PairTrace × Vector α m) :=
  let second := first + W
  let «end» := second + W - 1
  (tracedLoop A second «end» (W * 2) { l1 := first, l2 := second, index := first, C := C }).map
    fun r => ({ first := first, iterations := r.1, l1 := r.2.l1, l2 := r.2.l2 }, r.2.C)

/-- The loop over the values of `first`. -/
def tracedPairs (W : Nat) (A : Vector α n) :
    List Nat → Vector α m → Option (List PairTrace × Vector α m)
  | [], C => some ([], C)
  | first :: firsts, C => (tracedPair W A C first).bind fun p =>
      (tracedPairs W A firsts p.2).map fun q => (p.1 :: q.1, q.2)

/-- The pass. -/
def tracedPass (W : Nat) (A C : Vector α 16) : Option (List PairTrace × Vector α 16) :=
  tracedPairs W A (List.range' 0 (16 / (W * 2)) (W * 2)) C

/-! ### Without the accesses -/

theorem tracedStep_erase (A : Vector α n) (second «end» : Nat) (s : Cursor α m) :
    (tracedStep A second «end» s).map Prod.snd = mergeStep A second «end» s := by
  have hcond : (tracedCondition A second «end» s.l1 s.l2).map Prod.fst =
      takesRight A second «end» s.l1 s.l2 := by
    unfold tracedCondition takesRight
    split
    · simp only [Option.map_bind, Function.comp_def, Option.map_map]
    · rfl
  rw [tracedStep, mergeStep, ← hcond]
  simp only [Option.map_bind, Option.bind_map, Function.comp_def]
  congr 1
  funext c
  split <;> simp only [Option.map_bind, Function.comp_def, Option.map_map]

/-- **The loop with its accesses is the loop.** -/
theorem tracedLoop_erase (A : Vector α n) (second «end» count : Nat) (s : Cursor α m) :
    (tracedLoop A second «end» count s).map Prod.snd = mergeLoop A second «end» count s := by
  induction count generalizing s with
  | zero => rfl
  | succ count ih =>
    rw [tracedLoop, mergeLoop, ← tracedStep_erase, Option.map_bind, Option.bind_map]
    congr 1
    funext p
    simp only [Function.comp_def, ← ih, Option.map_map]

theorem tracedPair_erase (W : Nat) (A : Vector α n) (C : Vector α m) (first : Nat) :
    (tracedPair W A C first).map Prod.snd = mergePair W A C first := by
  simp only [tracedPair, mergePair, ← tracedLoop_erase, Option.map_map, Function.comp_def]

theorem tracedPairs_erase (W : Nat) (A : Vector α n) (firsts : List Nat) (C : Vector α m) :
    (tracedPairs W A firsts C).map Prod.snd = firsts.foldlM (mergePair W A) C := by
  induction firsts generalizing C with
  | nil => rfl
  | cons first firsts ih =>
    rw [tracedPairs, List.foldlM_cons, ← tracedPair_erase, Option.map_bind]
    show _ = ((tracedPair W A C first).map Prod.snd).bind _
    rw [Option.bind_map]
    congr 1
    funext p
    simp only [Function.comp_def, ← ih, Option.map_map]

/-! ## The cursors and the accesses -/

/-- The iteration is over the run `first, …, stop - 1` with halves that meet at `second`: neither
cursor has passed the end of its half, and every element read is in the run. -/
structure Iteration.InRun (first second stop : Nat) (it : Iteration) : Prop where
  l1 : first ≤ it.l1 ∧ it.l1 ≤ second
  l2 : second ≤ it.l2 ∧ it.l2 ≤ stop
  reads : ∀ i ∈ it.reads, first ≤ i ∧ i < stop

/-- **What an iteration accesses.** The right half is only looked at while `l2 <= end`; once it
is exhausted the element at `l1` is taken without a comparison. -/
theorem tracedStep_cases {A : Vector α n} {second «end» : Nat} {s s' : Cursor α m} {it : Iteration}
    (h : tracedStep A second «end» s = some (it, s')) :
    it.l1 = s.l1 ∧ it.l2 = s.l2 ∧ it.write = s.index ∧ s.l1 ≤ s'.l1 ∧
      ((s.l2 ≤ «end» ∧ ∀ i ∈ it.reads, i = s.l1 ∨ i = s.l2) ∨
        («end» < s.l2 ∧ it.reads = [s.l1])) := by
  obtain ⟨⟨right, reads⟩, hc, h⟩ := Option.bind_eq_some_iff.mp h
  have hreads : (s.l2 ≤ «end» ∧ reads = [s.l1, s.l2]) ∨
      («end» < s.l2 ∧ right = false ∧ reads = []) := by
    unfold tracedCondition at hc
    split at hc
    · rename_i hle
      obtain ⟨a, -, hc⟩ := Option.bind_eq_some_iff.mp hc
      obtain ⟨b, -, hc⟩ := Option.map_eq_some_iff.mp hc
      cases hc
      exact Or.inl ⟨hle, rfl⟩
    · rename_i hle
      cases hc
      exact Or.inr ⟨by omega, rfl, rfl⟩
  cases right with
  | true =>
    obtain ⟨x, -, h⟩ := Option.bind_eq_some_iff.mp h
    obtain ⟨C, -, h⟩ := Option.map_eq_some_iff.mp h
    cases h
    rcases hreads with ⟨hle, rfl⟩ | ⟨-, hright, -⟩
    · exact ⟨rfl, rfl, rfl, Nat.le_refl _, Or.inl ⟨hle, by simp⟩⟩
    · cases hright
  | false =>
    obtain ⟨x, -, h⟩ := Option.bind_eq_some_iff.mp h
    obtain ⟨C, -, h⟩ := Option.map_eq_some_iff.mp h
    cases h
    rcases hreads with ⟨hle, rfl⟩ | ⟨hlt, -, rfl⟩
    · exact ⟨rfl, rfl, rfl, Nat.le_succ _, Or.inl ⟨hle, by simp⟩⟩
    · exact ⟨rfl, rfl, rfl, Nat.le_succ _, Or.inr ⟨hlt, rfl⟩⟩

/-- **One iteration stays in its run.** -/
theorem tracedStep_spec {A : Vector α n} {first second «end» : Nat} {s : Cursor α m}
    (hfirst : first ≤ s.l1) (hhalf : second ≤ «end»)
    (hrun : InRun second («end» + 1) s.l1 s.l2) (hn : «end» + 1 ≤ n) (hm : s.index < m) :
    ∃ it s', tracedStep A second «end» s = some (it, s') ∧ it.InRun first second («end» + 1) ∧
      it.write = s.index ∧ s'.index = s.index + 1 ∧ s'.l1 + s'.l2 = s.l1 + s.l2 + 1 ∧
      first ≤ s'.l1 ∧ s'.l1 ≤ second ∧ second ≤ s'.l2 ∧ s'.l2 ≤ «end» + 1 := by
  obtain ⟨s', x, hs, -, hindex, hsum, h1', h2', h3', -⟩ := mergeStep_spec hrun hn hm
  obtain ⟨h1, h2, h3, htodo⟩ := hrun
  rw [← tracedStep_erase, Option.map_eq_some_iff] at hs
  obtain ⟨⟨it, s₁⟩, hs, rfl⟩ := hs
  obtain ⟨hl1, hl2, hwrite, hmono, hreads⟩ := tracedStep_cases hs
  refine ⟨it, _, hs, ⟨?_, ?_, ?_⟩, hwrite, hindex, hsum, Nat.le_trans hfirst hmono, h1', h2', h3'⟩
  · rw [hl1]
    exact ⟨hfirst, h1⟩
  · rw [hl2]
    exact ⟨h2, h3⟩
  · intro i hi
    rcases hreads with ⟨hle, hreads⟩ | ⟨hlt, hreads⟩
    · rcases hreads i hi with rfl | rfl
      · -- `A[l1]` is read with `l1` up to `second`, which is still in the run
        omega
      · omega
    · rw [hreads, List.mem_singleton] at hi
      subst hi
      omega

/-- **The loop stays in its run, ends with both halves used up and writes one entry after the
other.** -/
theorem tracedLoop_spec (A : Vector α n) {first second «end» : Nat} (hhalf : second ≤ «end»)
    (hn : «end» + 1 ≤ n) (count : Nat) (s : Cursor α m) (hfirst : first ≤ s.l1)
    (h1 : s.l1 ≤ second) (h2 : second ≤ s.l2) (h3 : s.l2 ≤ «end» + 1)
    (hcount : s.l1 + s.l2 + count = second + («end» + 1)) (hm : s.index + count ≤ m) :
    ∃ its s', tracedLoop A second «end» count s = some (its, s') ∧ its.length = count ∧
      (∀ it ∈ its, it.InRun first second («end» + 1)) ∧
      (its.map fun it => it.write) = List.range' s.index count ∧
      s'.l1 = second ∧ s'.l2 = «end» + 1 := by
  induction count generalizing s with
  | zero =>
    exact ⟨[], s, rfl, rfl, fun it hit => absurd hit List.not_mem_nil, rfl, by omega, by omega⟩
  | succ count ih =>
    obtain ⟨it, s₁, hs, hit, hwrite, hindex, hsum, hf', h1', h2', h3'⟩ :=
      tracedStep_spec (A := A) hfirst hhalf ⟨h1, h2, h3, by omega⟩ hn (by omega)
    obtain ⟨its, s', hs', hlen, hits, hwrites, hend⟩ :=
      ih s₁ hf' h1' h2' h3' (by omega) (by omega)
    refine ⟨it :: its, s', ?_, ?_, ?_, ?_, hend⟩
    · rw [tracedLoop, hs, Option.bind_some, hs']
      rfl
    · rw [List.length_cons, hlen]
    · exact List.forall_mem_cons.mpr ⟨hit, hits⟩
    · rw [List.map_cons, hwrites, hwrite, hindex, List.range'_succ]

/-- What the iterations over a pair of half runs of width `W` access, with `index` the first
entry written. -/
structure PairTrace.InBounds (W index : Nat) (p : PairTrace) : Prop where
  rounds : p.iterations.length = 2 * W
  inRun : ∀ it ∈ p.iterations, it.InRun p.first (p.first + W) (p.first + 2 * W)
  l1_end : p.l1 = p.first + W
  l2_end : p.l2 = p.first + 2 * W
  writes : p.writes = List.range' index (2 * W)

theorem tracedPair_spec {W : Nat} (hW : 0 < W) (A : Vector α n) (C : Vector α m) (first : Nat)
    (hn : first + 2 * W ≤ n) (hm : first + 2 * W ≤ m) :
    ∃ p C', tracedPair W A C first = some (p, C') ∧ p.first = first ∧ p.InBounds W first := by
  have hstop : first + W + W - 1 + 1 = first + 2 * W := by omega
  obtain ⟨its, s', hs, hlen, hits, hwrites, hl1, hl2⟩ := tracedLoop_spec A
    (show first + W ≤ first + W + W - 1 by omega) (by omega) (W * 2)
    { l1 := first, l2 := first + W, index := first, C := C } (Nat.le_refl first)
    (Nat.le_add_right first W) (Nat.le_refl _) (by dsimp only; omega) (by dsimp only; omega)
    (by dsimp only; omega)
  refine ⟨⟨first, its, s'.l1, s'.l2⟩, s'.C, by simp only [tracedPair, hs, Option.map_some], rfl,
    ?_⟩
  rw [hstop] at hits hl2
  rw [Nat.mul_comm W 2] at hlen hwrites
  exact ⟨hlen, hits, hl1, hl2, hwrites⟩

theorem tracedPairs_spec {W : Nat} (hW : 0 < W) (A : Vector α n) (firsts : List Nat)
    (C : Vector α n) (hfirsts : ∀ first ∈ firsts, first + 2 * W ≤ n) :
    ∃ ps C', tracedPairs W A firsts C = some (ps, C') ∧ (ps.map fun p => p.first) = firsts ∧
      ∀ p ∈ ps, p.InBounds W p.first := by
  induction firsts generalizing C with
  | nil => exact ⟨[], C, rfl, rfl, fun p hp => absurd hp List.not_mem_nil⟩
  | cons first firsts ih =>
    obtain ⟨hhead, htail⟩ := List.forall_mem_cons.mp hfirsts
    obtain ⟨p, C₁, hp, hpf, hpb⟩ := tracedPair_spec hW A C first hhead hhead
    obtain ⟨ps, C', hps, hpsf, hpsb⟩ := ih C₁ htail
    refine ⟨p :: ps, C', ?_, ?_, List.forall_mem_cons.mpr ⟨by rw [hpf]; exact hpb, hpsb⟩⟩
    · rw [tracedPairs, hp, Option.bind_some, hps]
      rfl
    · rw [List.map_cons, hpf, hpsf]

end Traced

/-! ## The runs that are left -/

/-- The merge of the pair of half runs of width `W` that starts at `p.first` of `xs`, into the run
of `ys` that starts at `index`: it stays in its run, and the run it leaves has the elements of both
halves, each half in its order. -/
structure PairTrace.Safe (W index : Nat) (xs ys : List α) (p : PairTrace) : Prop
    extends p.InBounds W index where
  inArray : p.first + 2 * W ≤ xs.length
  perm : (slice ys index (index + 2 * W)).Perm (slice xs p.first (p.first + 2 * W))
  order : Interleaving (slice xs p.first (p.first + W)) (slice xs (p.first + W) (p.first + 2 * W))
    (slice ys index (index + 2 * W))

/-- A merge of the two halves is safe. -/
theorem PairTrace.InBounds.safe {W index : Nat} {xs ys : List α} {p : PairTrace}
    (le : α → α → Bool) (h : p.InBounds W index) (hlen : p.first + 2 * W ≤ xs.length)
    (hmerge : slice ys index (index + 2 * W) =
      (slice xs p.first (p.first + W)).merge (slice xs (p.first + W) (p.first + 2 * W)) le) :
    p.Safe W index xs ys := by
  have horder := merge_interleaving le (slice xs p.first (p.first + W))
    (slice xs (p.first + W) (p.first + 2 * W))
  rw [← hmerge] at horder
  have hperm := horder.perm
  rw [slice_append_slice xs (by omega) (by omega)] at hperm
  exact ⟨h, hlen, hperm, horder⟩

/-- Consecutive runs make up the whole range. -/
theorem flatMap_range' (w k a : Nat) :
    ((List.range' a k w).flatMap fun first => List.range' first w) = List.range' a (w * k) := by
  induction k generalizing a with
  | zero => rfl
  | succ k ih =>
    rw [List.range'_succ, List.flatMap_cons, ih, List.range'_append_1, Nat.mul_succ,
      Nat.add_comm w]

/-- **A pass of width `W` from `A` to `C`** that leaves `C'` and does `ps` on its way: it never
leaves its arrays, every pair of half runs is merged within its run, and every entry of `C` is
written once. -/
structure PassSafe [LT α] [DecidableLT α] (W : Nat) (A C : Vector α 16) (ps : List PairTrace)
    (C' : Vector α 16) : Prop where
  traced : tracedPass W A C = some (ps, C')
  untraced : mergePass W A C = some C'
  firsts : (ps.map fun p => p.first) = List.range' 0 (16 / (W * 2)) (W * 2)
  pairs : ∀ p ∈ ps, p.Safe W p.first A.toList C'.toList
  once : ps.flatMap PairTrace.writes = List.range 16

/-- **A pass is safe on any contents**, for any comparison. -/
theorem mergePass_safe [LT α] [DecidableLT α] {W : Nat} (hW : IsWidth W) (A C : Vector α 16) :
    ∃ ps C', PassSafe W A C ps C' := by
  obtain ⟨hpos, hcovers⟩ := hW
  have hrun : ∀ first ∈ List.range' 0 (16 / (W * 2)) (W * 2),
      ∃ i < 16 / (W * 2), first = 2 * W * i := by
    intro first hfirst
    obtain ⟨i, hi, rfl⟩ := List.mem_range'.mp hfirst
    exact ⟨i, hi, by rw [Nat.zero_add, Nat.mul_comm W 2]⟩
  have hfits : ∀ first ∈ List.range' 0 (16 / (W * 2)) (W * 2), first + 2 * W ≤ 16 := by
    intro first hfirst
    obtain ⟨i, hi, rfl⟩ := hrun first hfirst
    have := Nat.mul_le_mul_left (2 * W) hi
    rw [Nat.mul_succ] at this
    omega
  obtain ⟨ps, C', hps, hfirsts, hbounds⟩ := tracedPairs_spec hpos A _ C hfits
  obtain ⟨C'', hC'', hpass⟩ := mergePass_spec ⟨hpos, hcovers⟩ A C
  have heq : mergePass W A C = some C' := by
    rw [mergePass, ← tracedPairs_erase, hps]
    rfl
  cases hC''.symm.trans heq
  have hmem : ∀ p ∈ ps, p.first ∈ List.range' 0 (16 / (W * 2)) (W * 2) := by
    intro p hp
    rw [← hfirsts]
    exact List.mem_map_of_mem hp
  refine ⟨ps, _, hps, heq, hfirsts, ?_, ?_⟩
  · intro p hp
    obtain ⟨i, hi, hfirst⟩ := hrun p.first (hmem p hp)
    have hmerge : slice C'.toList p.first (p.first + 2 * W) =
        (slice A.toList p.first (p.first + W)).merge
          (slice A.toList (p.first + W) (p.first + 2 * W)) hwLe := by
      rw [hfirst, hpass]
      exact mergeRuns_slice W _ A.toList (by rw [Vector.length_toList]; exact hcovers.symm) i hi
    exact (hbounds p hp).safe hwLe (by rw [Vector.length_toList]; exact hfits _ (hmem p hp)) hmerge
  · have hwrites : ps.flatMap PairTrace.writes =
        (ps.map fun p => p.first).flatMap fun first => List.range' first (2 * W) := by
      rw [List.flatMap_map]
      exact List.flatMap_congr fun p hp => (hbounds p hp).writes
    rw [Nat.mul_comm W 2] at hcovers hfirsts
    rw [hwrites, hfirsts, flatMap_range', hcovers, List.range_eq_range']

/-! ## The two halves of `MergeW4` -/

namespace Stratus

/-- One of the two loops of `MergeW4`, over `A1` or `A2`, with its accesses. -/
def tracedHalf (A : Vector UInt8 8) (C : Vector UInt8 16) (index : Nat) :
    Option (PairTrace × Vector UInt8 16) :=
  (tracedLoop A 4 7 8 { l1 := 0, l2 := 4, index := index, C := C }).map fun r =>
    ({ first := 0, iterations := r.1, l1 := r.2.l1, l2 := r.2.l2 }, r.2.C)

theorem tracedHalf_spec (A : Vector UInt8 8) (C : Vector UInt8 16) {index : Nat}
    (h : index + 8 ≤ 16) :
    ∃ p s', tracedHalf A C index = some (p, s'.C) ∧
      mergeLoop A 4 7 8 { l1 := 0, l2 := 4, index := index, C := C } = some s' ∧ p.first = 0 ∧
      p.InBounds 4 index ∧ s'.C.toList.take index = C.toList.take index ∧
      slice s'.C.toList index (index + 8) =
        (slice A.toList 0 4).merge (slice A.toList 4 8) hwLe := by
  obtain ⟨its, s', hs, hlen, hits, hwrites, hl1, hl2⟩ := tracedLoop_spec A
    (show 4 ≤ 7 by omega) (show 7 + 1 ≤ 8 by omega) 8
    { l1 := 0, l2 := 4, index := index, C := C } (Nat.le_refl 0) (Nat.zero_le 4) (Nat.le_refl 4)
    (show 4 ≤ 7 + 1 by omega) rfl h
  have hloop : mergeLoop A 4 7 8 { l1 := 0, l2 := 4, index := index, C := C } = some s' := by
    rw [← tracedLoop_erase, hs]
    rfl
  obtain ⟨s'', hs'', hC⟩ := half_spec A C h
  obtain rfl : s'' = s' := Option.some.inj (hs''.symm.trans hloop)
  have hpre : (C.toList.take index).length = index := by
    rw [List.length_take, Vector.length_toList]; omega
  have hmerge : (slice A.toList 0 4).merge (slice A.toList 4 8) hwLe =
      (A.toList.take 4).merge ((A.toList.drop 4).take 4) hwLe := by
    rw [← slice_eq_take_drop A.toList 4 4]
    rfl
  have hmlen : ((A.toList.take 4).merge ((A.toList.drop 4).take 4) hwLe).length = 8 := by
    rw [List.length_merge]; simp
  refine ⟨⟨0, its, s''.l1, s''.l2⟩, s'', by rw [tracedHalf, hs]; rfl, hloop, rfl,
    ⟨hlen, hits, hl1, hl2, hwrites⟩, ?_, ?_⟩
  · rw [hC, List.take_left' hpre]
  · unfold slice at hmerge ⊢
    rw [hC, hmerge, ← List.append_assoc,
      List.take_left' (by rw [List.length_append, hpre, hmlen]), List.drop_left' hpre]

/-- **`MergeW4` is safe on its two arrays**: each loop merges its array into its half of `C`. -/
theorem mergeW4_safe (array : Word) (C : Vector UInt8 16) : ∃ p₁ p₂ C₁ C₂,
    tracedHalf (unpack 8 array 0) C 0 = some (p₁, C₁) ∧
    tracedHalf (unpack 8 array 64) C₁ 8 = some (p₂, C₂) ∧
    MergeW4.do_merge array C = some (pack C₂, C₂) ∧
    p₁.Safe 4 0 (unpack 8 array 0).toList C₂.toList ∧
    p₂.Safe 4 8 (unpack 8 array 64).toList C₂.toList ∧
    p₁.writes ++ p₂.writes = List.range 16 := by
  obtain ⟨p₁, s₁, h₁, hs₁, hf₁, hb₁, -, hm₁⟩ :=
    tracedHalf_spec (unpack 8 array 0) C (show 0 + 8 ≤ 16 by omega)
  obtain ⟨p₂, s₂, h₂, hs₂, hf₂, hb₂, hkeep, hm₂⟩ :=
    tracedHalf_spec (unpack 8 array 64) s₁.C (show 8 + 8 ≤ 16 by omega)
  have hlow : slice s₂.C.toList 0 (0 + 2 * 4) = slice s₁.C.toList 0 (0 + 8) := hkeep
  refine ⟨p₁, p₂, s₁.C, s₂.C, h₁, h₂, ?_, hb₁.safe hwLe ?_ ?_, hb₂.safe hwLe ?_ ?_, ?_⟩
  · simp only [MergeW4.do_merge, hs₁, hs₂, Option.bind_some, Option.map_some]
  · rw [hf₁, Vector.length_toList]
  · rw [hlow, hm₁, hf₁]
  · rw [hf₂, Vector.length_toList]
  · rw [hf₂]
    exact hm₂
  · rw [hb₁.writes, hb₂.writes]
    rfl

end Stratus

/-! ## Both designs -/

open Dataflow Vp in
/-- A thread that has completed a block has run the pass from `A` to `C`. -/
theorem do_merge_completes {W : Nat} {t t' : MergeThread} {i o i' o' : Fifo UInt8}
    (h : do_merge W t i o = some (t', i', o')) (hpc : t'.pc = .output 0) :
    mergePass W t'.A t.C = some t'.C := by
  obtain ⟨pc, A, C⟩ := t
  cases pc with
  | wait => cases h; cases hpc
  | input j =>
    obtain ⟨⟨x, q⟩, -, h⟩ := Option.bind_eq_some_iff.mp h
    obtain ⟨A', -, h⟩ := Option.bind_eq_some_iff.mp h
    split at h
    · cases h; cases hpc
    · obtain ⟨C', hC', he⟩ := Option.map_eq_some_iff.mp h
      cases he
      exact hC'
  | output j =>
    obtain ⟨x, -, h⟩ := Option.bind_eq_some_iff.mp h
    obtain ⟨q, -, he⟩ := Option.map_eq_some_iff.mp h
    cases he
    dsimp only at hpc
    split at hpc <;> cases hpc

open Dataflow Vp Stratus in
/-- **No merge pass of either design leaves its run or loses an element**, whatever its array
holds. In the virtual platform: for every contents of the `int` arrays, and in every step in which
a thread completes its block. In the high-level-synthesis design: for every word and every
contents of `C`, in the modules with one array, and in `MergeW4` with its two. -/
theorem pass_safe :
    (∀ W ∈ [1, 2, 4, 8], ∀ A C : Vector Int 16, ∃ ps C', PassSafe W A C ps C') ∧
    (∀ W ∈ [1, 2, 4, 8], ∀ (t t' : MergeThread) (i_array o_array i' o' : Fifo UInt8),
      Vp.do_merge W t i_array o_array = some (t', i', o') → t'.pc = .output 0 →
      ∃ ps, PassSafe W t'.A t.C ps t'.C) ∧
    (∀ m : Module, m ≠ .mergeW4 → ∀ (array : Word) (C : Vector UInt8 16), ∃ ps C',
      m.do_merge array C = some (pack C', C') ∧ PassSafe m.width (unpack 16 array 0) C ps C') ∧
    (∀ (array : Word) (C : Vector UInt8 16), ∃ p₁ p₂ C₁ C₂,
      tracedHalf (unpack 8 array 0) C 0 = some (p₁, C₁) ∧
      tracedHalf (unpack 8 array 64) C₁ 8 = some (p₂, C₂) ∧
      MergeW4.do_merge array C = some (pack C₂, C₂) ∧
      p₁.Safe 4 0 (unpack 8 array 0).toList C₂.toList ∧
      p₂.Safe 4 8 (unpack 8 array 64).toList C₂.toList ∧
      p₁.writes ++ p₂.writes = List.range 16) := by
  have hwidth : ∀ W ∈ [1, 2, 4, 8], IsWidth W := by
    simp only [List.forall_mem_cons, isWidth_1, isWidth_2, isWidth_4, isWidth_8, true_and]
    exact fun W hW => absurd hW List.not_mem_nil
  refine ⟨fun W hW A C => mergePass_safe (hwidth W hW) A C, ?_, ?_, mergeW4_safe⟩
  · intro W hW t t' i o i' o' h hpc
    obtain ⟨ps, C', hsafe⟩ := mergePass_safe (hwidth W hW) t'.A t.C
    cases hsafe.untraced.symm.trans (do_merge_completes h hpc)
    exact ⟨ps, hsafe⟩
  · intro m hm array C
    have hpass : ∀ W, IsWidth W → ∃ ps C', mergeWord W array C = some (pack C', C') ∧
        PassSafe W (unpack 16 array 0) C ps C' := by
      intro W hW
      obtain ⟨ps, C', hsafe⟩ := mergePass_safe hW (unpack 16 array 0) C
      exact ⟨ps, C', by rw [mergeWord, hsafe.untraced]; rfl, hsafe⟩
    cases m with
    | mergeW1 => exact hpass 1 isWidth_1
    | mergeW2 => exact hpass 2 isWidth_2
    | mergeW4 => exact absurd rfl hm
    | mergeW8 => exact hpass 8 isWidth_8

open Dataflow Vp in
/-- A pass of width 4 over an array that descends throughout, and the step in which a thread of
width 2 reads the last byte of its block. -/
theorem pass_safe_descending :
    (∃ ps C', PassSafe 4 (Vector.ofFn fun i : Fin 16 => (16 - i.val : Int)) (Vector.replicate 16 0)
      ps C') ∧
    ∃ t' i' o', Vp.do_merge 2 ⟨.input 15, Vector.replicate 16 7, Vector.replicate 16 0⟩
      ⟨16, [3], by decide⟩ (.empty 16) = some (t', i', o') ∧
      ∃ ps, PassSafe 2 t'.A (Vector.replicate 16 0) ps t'.C := by
  have hstep : (Vp.do_merge 2 ⟨.input 15, Vector.replicate 16 7, Vector.replicate 16 0⟩
      ⟨16, [3], by decide⟩ (.empty 16)).map (fun r => r.1.pc) = some (.output 0) := by
    decide +kernel
  obtain ⟨⟨t', i', o'⟩, h, hpc⟩ := Option.map_eq_some_iff.mp hstep
  exact ⟨pass_safe.1 4 (by decide) _ _, t', i', o', h,
    pass_safe.2.1 2 (by decide) _ t' _ _ i' o' h hpc⟩

end SortPlatform

import Mathlib.Algebra.Group.Nat.Defs
import Mathlib.Data.List.Sort

/-!
# Merging neighbouring runs of a list

The mathematics of bottom-up merge sort, over any linear order:

* `slice` — the elements of a list between two indices, consumed from the front.
* `PicksLeast` — a comparator that, whichever way it breaks ties, always picks a least head.
* `Interleaving` — a list put together from two others, each in its own order.
* `mergeRuns` — one pass: every pair of neighbouring runs of length `W` is merged.
* `bottomUp` — the passes for `W, 2 W, 4 W, …`.

Principal results: `pairwise_merge` (a merge of ascending lists ascends),
`mergeRuns_sortedRuns` (a pass doubles the length of the ascending runs) and
`bottomUp_eq_mergeSort` (the passes from `W = 1` compute the ascending rearrangement).
-/

set_option autoImplicit false

namespace RunMerge

variable {α β : Type*}

/-! ## Slices -/

/-- `xs[a], …, xs[b-1]`. -/
def slice (xs : List α) (a b : Nat) : List α := (xs.take b).drop a

theorem slice_of_le {xs : List α} {a b : Nat} (h : b ≤ a) : slice xs a b = [] := by
  unfold slice
  rw [List.drop_eq_nil_iff, List.length_take]
  omega

theorem slice_cons {xs : List α} {a b : Nat} {x : α} (hx : xs[a]? = some x) (h : a < b) :
    slice xs a b = x :: slice xs (a + 1) b := by
  obtain ⟨ha, rfl⟩ := List.getElem?_eq_some_iff.mp hx
  unfold slice
  rw [List.drop_eq_getElem_cons (by rw [List.length_take]; omega), List.getElem_take]

theorem slice_length {xs : List α} {a b : Nat} (h : b ≤ xs.length) :
    (slice xs a b).length = b - a := by
  unfold slice
  rw [List.length_drop, List.length_take]
  omega

theorem slice_eq_take_drop (xs : List α) (a w : Nat) :
    slice xs a (a + w) = (xs.drop a).take w := by
  unfold slice
  rw [List.drop_take, Nat.add_sub_cancel_left]

theorem slice_drop (xs : List α) (c a b : Nat) :
    slice (xs.drop c) a b = slice xs (c + a) (c + b) := by
  unfold slice
  rw [List.take_drop, List.drop_drop]

theorem slice_slice (xs : List α) {a b i j : Nat} (h : a + j ≤ b) :
    slice (slice xs a b) i j = slice xs (a + i) (a + j) := by
  unfold slice
  rw [List.take_drop, List.take_take, Nat.min_eq_left h, List.drop_drop]

theorem drop_cons {xs : List α} {a : Nat} {x : α} (hx : xs[a]? = some x) :
    xs.drop a = x :: xs.drop (a + 1) := by
  obtain ⟨ha, rfl⟩ := List.getElem?_eq_some_iff.mp hx
  exact List.drop_eq_getElem_cons ha

theorem take_set_succ {xs : List α} {i : Nat} (h : i < xs.length) (x : α) :
    (xs.set i x).take (i + 1) = xs.take i ++ [x] := by
  rw [List.take_add_one, List.take_set_of_le (Nat.le_refl _), List.getElem?_set_self h]
  rfl

/-! ## Lists of blocks -/

/-- If the bytes of equally long blocks are a prefix, so are the blocks. -/
theorem prefix_of_flatten_prefix {w : Nat} (hw : 0 < w) : ∀ {as bs : List (List α)},
    (∀ a ∈ as, a.length = w) → (∀ b ∈ bs, b.length = w) → as.flatten <+: bs.flatten → as <+: bs
  | [], bs, _, _, _ => List.nil_prefix
  | a :: as, [], ha, _, h => by
    have := ha a List.mem_cons_self
    rw [List.flatten_nil, List.prefix_nil, List.flatten_cons, List.append_eq_nil_iff] at h
    rw [h.1, List.length_nil] at this
    omega
  | a :: as, b :: bs, ha, hb, h => by
    have hlen : a.length = b.length := by
      rw [ha a List.mem_cons_self, hb b List.mem_cons_self]
    obtain ⟨t, ht⟩ := h
    rw [List.flatten_cons, List.flatten_cons, List.append_assoc] at ht
    obtain ⟨rfl, htail⟩ := List.append_inj ht hlen
    rw [List.cons_prefix_cons]
    exact ⟨rfl, prefix_of_flatten_prefix hw (fun c hc => ha c (List.mem_cons_of_mem _ hc))
      (fun c hc => hb c (List.mem_cons_of_mem _ hc)) ⟨t, htail⟩⟩

/-! ## Interleavings -/

/-- `zs` is put together from `xs` and `ys`, each in its own order. -/
inductive Interleaving : List α → List α → List α → Prop
  | nil : Interleaving [] [] []
  | left (x : α) {xs ys zs : List α} (h : Interleaving xs ys zs) :
      Interleaving (x :: xs) ys (x :: zs)
  | right (y : α) {xs ys zs : List α} (h : Interleaving xs ys zs) :
      Interleaving xs (y :: ys) (y :: zs)

theorem Interleaving.nil_left (ys : List α) : Interleaving [] ys ys := by
  induction ys with
  | nil => exact .nil
  | cons y ys ih => exact .right y ih

theorem Interleaving.nil_right (xs : List α) : Interleaving xs [] xs := by
  induction xs with
  | nil => exact .nil
  | cons x xs ih => exact .left x ih

/-- Nothing is lost and nothing is made up. -/
theorem Interleaving.perm {xs ys zs : List α} (h : Interleaving xs ys zs) :
    zs.Perm (xs ++ ys) := by
  induction h with
  | nil => exact List.Perm.refl _
  | left x _ ih => exact ih.cons x
  | right y _ ih => exact (ih.cons y).trans List.perm_middle.symm

/-- **A merge interleaves its lists**, whatever the comparator answers. -/
theorem merge_interleaving (le : α → α → Bool) (xs ys : List α) :
    Interleaving xs ys (xs.merge ys le) := by
  fun_induction List.merge xs ys le with
  | case1 ys => exact .nil_left ys
  | case2 xs => exact .nil_right xs
  | case3 x xs y ys _ ih => exact .left x ih
  | case4 x xs y ys _ ih => exact .right y ih

/-! ## Merging two ascending lists -/

/-- `le` decides which head to take next and never passes over a strictly smaller one. -/
structure PicksLeast [LE α] (le : α → α → Bool) : Prop where
  left : ∀ a b, le a b = true → a ≤ b
  right : ∀ a b, le a b = false → b ≤ a

section Order

variable [LE α] [LT α] [DecidableLT α] [Std.IsLinearOrder α] [Std.LawfulOrderLT α]

/-- `!(a > b)`: equal heads are taken from the left. -/
theorem picksLeast_notGt : PicksLeast (fun a b : α => !decide (a > b)) where
  left a b h := by
    have : ¬ b < a := by simpa using h
    exact Std.not_lt.mp this
  right a b h := by
    have : b < a := by simpa using h
    exact Std.le_of_lt this

/-- `a < b`: equal heads are taken from the right. -/
theorem picksLeast_lt : PicksLeast (fun a b : α => decide (a < b)) where
  left a b h := Std.le_of_lt (by simpa using h)
  right a b h := by
    have : ¬ a < b := by simpa using h
    exact Std.not_lt.mp this

end Order

section Merge

variable [LE α] [Std.IsLinearOrder α] {le : α → α → Bool}

/-- **A merge of two ascending lists is ascending**, whichever way ties are broken. -/
theorem pairwise_merge (hle : PicksLeast le) (xs ys : List α) (hx : xs.Pairwise (· ≤ ·))
    (hy : ys.Pairwise (· ≤ ·)) : (xs.merge ys le).Pairwise (· ≤ ·) := by
  fun_induction List.merge xs ys le with
  | case1 ys => exact hy
  | case2 xs => exact hx
  | case3 x xs y ys hxy ih =>
    have hxy' := hle.left x y hxy
    obtain ⟨hx0, hx1⟩ := List.pairwise_cons.mp hx
    obtain ⟨hy0, _⟩ := List.pairwise_cons.mp hy
    refine List.pairwise_cons.mpr ⟨fun z hz => ?_, ih hx1 hy⟩
    rcases List.mem_merge.mp hz with hz | hz
    · exact hx0 z hz
    · rcases List.mem_cons.mp hz with rfl | hz
      · exact hxy'
      · exact Std.le_trans hxy' (hy0 z hz)
  | case4 x xs y ys hxy ih =>
    have hyx := hle.right x y (by simpa using hxy)
    obtain ⟨hx0, _⟩ := List.pairwise_cons.mp hx
    obtain ⟨hy0, hy1⟩ := List.pairwise_cons.mp hy
    refine List.pairwise_cons.mpr ⟨fun z hz => ?_, ih hx hy1⟩
    rcases List.mem_merge.mp hz with hz | hz
    · rcases List.mem_cons.mp hz with rfl | hz
      · exact hyx
      · exact Std.le_trans hyx (hx0 z hz)
    · exact hy0 z hz

theorem mergeSort_sorted [DecidableLE α] (xs : List α) : (xs.mergeSort).Pairwise (· ≤ ·) := by
  have h := @List.pairwise_mergeSort α (fun a b => decide (a ≤ b))
    (fun _ _ _ hab hbc => by
      simp only [decide_eq_true_eq] at *
      exact Std.le_trans hab hbc)
    (fun _ _ => by
      simp only [Bool.or_eq_true, decide_eq_true_eq]
      exact Std.le_total) xs
  simpa using h

/-- An ascending rearrangement of `xs` is `xs.mergeSort`. -/
theorem eq_mergeSort [DecidableLE α] {xs ys : List α} (hs : ys.Pairwise (· ≤ ·))
    (hp : ys.Perm xs) : ys = xs.mergeSort :=
  List.Perm.eq_of_pairwise (fun _ _ _ _ hab hba => Std.le_antisymm hab hba) hs
    (mergeSort_sorted xs) (hp.trans (List.mergeSort_perm xs _).symm)

end Merge

/-! ## One pass -/

/-- One pass over `k` pairs of runs of length `W`; what follows the last pair is kept. -/
def mergeRuns (le : α → α → Bool) (W : Nat) : Nat → List α → List α
  | 0, xs => xs
  | k + 1, xs => (xs.take W).merge ((xs.drop W).take W) le ++ mergeRuns le W k (xs.drop (2 * W))

variable {le : α → α → Bool}

theorem mergeRuns_perm (W : Nat) : ∀ (k : Nat) (xs : List α), (mergeRuns le W k xs).Perm xs
  | 0, _ => List.Perm.refl _
  | k + 1, xs => by
    have hsplit : xs = xs.take W ++ ((xs.drop W).take W ++ xs.drop (2 * W)) := by
      rw [Nat.two_mul, ← List.drop_drop, List.take_append_drop, List.take_append_drop]
    have hpair : ((xs.take W).merge ((xs.drop W).take W) le).Perm
      (xs.take W ++ (xs.drop W).take W) := List.merge_perm_append le
    have hmerge := hpair.append (mergeRuns_perm W k (xs.drop (2 * W)))
    rw [List.append_assoc, ← hsplit] at hmerge
    exact hmerge

theorem mergeRuns_length (W k : Nat) (xs : List α) : (mergeRuns le W k xs).length = xs.length :=
  (mergeRuns_perm W k xs).length_eq

/-- A pass commutes with a map that respects the comparator. -/
theorem map_mergeRuns {le' : β → β → Bool} {f : α → β} (hf : ∀ a b, le a b = le' (f a) (f b))
    (W : Nat) : ∀ (k : Nat) (xs : List α),
      (mergeRuns le W k xs).map f = mergeRuns le' W k (xs.map f)
  | 0, _ => rfl
  | k + 1, xs => by
    simp only [mergeRuns, List.map_append]
    rw [List.map_merge (s := le') (fun a _ b _ => hf a b), map_mergeRuns hf W k]
    simp only [List.map_take, List.map_drop]

/-! ## Runs and their elements -/

/-- Every run of length `W` of `ys` is a rearrangement of the same run of `xs`. -/
def RunsPerm (W : Nat) (ys xs : List α) : Prop :=
  ∀ k, (slice ys (W * k) (W * k + W)).Perm (slice xs (W * k) (W * k + W))

theorem RunsPerm.refl (W : Nat) (xs : List α) : RunsPerm W xs xs := fun _ => List.Perm.refl _

theorem RunsPerm.trans {W : Nat} {xs ys zs : List α} (h : RunsPerm W zs ys)
    (h' : RunsPerm W ys xs) : RunsPerm W zs xs := fun k => (h k).trans (h' k)

theorem slice_append_slice (xs : List α) {a b c : Nat} (hab : a ≤ b) (hbc : b ≤ c) :
    slice xs a b ++ slice xs b c = slice xs a c := by
  obtain ⟨d, rfl⟩ := Nat.exists_eq_add_of_le hab
  obtain ⟨e, rfl⟩ := Nat.exists_eq_add_of_le hbc
  rw [Nat.add_assoc, slice_eq_take_drop, slice_eq_take_drop, ← Nat.add_assoc, slice_eq_take_drop,
    List.take_add, List.drop_drop]

/-- Runs of length `W` make up runs of length `2 W`. -/
theorem RunsPerm.double {W : Nat} {xs ys : List α} (h : RunsPerm W ys xs) :
    RunsPerm (2 * W) ys xs := by
  intro k
  have hk : 2 * W * k = W * (2 * k) := by rw [Nat.mul_comm 2 W, Nat.mul_assoc]
  have hk' : W * (2 * k + 1) = W * (2 * k) + W := Nat.mul_succ W (2 * k)
  have hperm := (h (2 * k)).append (h (2 * k + 1))
  rw [hk', slice_append_slice _ (by omega) (by omega),
    slice_append_slice _ (by omega) (by omega)] at hperm
  rw [hk, show W * (2 * k) + 2 * W = W * (2 * k) + W + W by omega]
  exact hperm

/-- **The `i`-th run of a pass is the merge of the `i`-th pair of runs.** -/
theorem mergeRuns_slice (W : Nat) : ∀ (k : Nat) (xs : List α), xs.length = 2 * W * k → ∀ i < k,
    slice (mergeRuns le W k xs) (2 * W * i) (2 * W * i + 2 * W) =
      (slice xs (2 * W * i) (2 * W * i + W)).merge
        (slice xs (2 * W * i + W) (2 * W * i + 2 * W)) le
  | 0, _, _, i, hi => absurd hi (Nat.not_lt_zero i)
  | k + 1, xs, hlen, i, hi => by
    rw [Nat.mul_succ] at hlen
    have hhead : ((xs.take W).merge ((xs.drop W).take W) le).length = 2 * W := by
      rw [List.length_merge, List.length_take, List.length_take, List.length_drop]
      omega
    cases i with
    | zero =>
      rw [mergeRuns, Nat.mul_zero, Nat.zero_add, Nat.zero_add, show 2 * W = W + W by omega,
        slice_eq_take_drop, ← Nat.two_mul]
      unfold slice
      rw [List.take_left' hhead, List.drop_zero, List.drop_zero]
    | succ i =>
      have hrest := mergeRuns_slice W k (xs.drop (2 * W)) (by rw [List.length_drop]; omega) i
        (by omega)
      rw [slice_drop, slice_drop] at hrest
      rw [mergeRuns, Nat.mul_succ, Nat.add_comm (2 * W * i) (2 * W), Nat.add_assoc, Nat.add_assoc,
        ← slice_drop, List.drop_left' hhead, hrest]

/-- **A pass rearranges runs of length `2 W`.** -/
theorem mergeRuns_runsPerm (W k : Nat) (xs : List α) (hlen : xs.length = 2 * W * k) :
    RunsPerm (2 * W) (mergeRuns le W k xs) xs := by
  intro i
  by_cases hi : i < k
  · rw [mergeRuns_slice W k xs hlen i hi]
    have hperm : ((slice xs (2 * W * i) (2 * W * i + W)).merge
        (slice xs (2 * W * i + W) (2 * W * i + 2 * W)) le).Perm
        (slice xs (2 * W * i) (2 * W * i + W) ++
          slice xs (2 * W * i + W) (2 * W * i + 2 * W)) := List.merge_perm_append le
    rwa [slice_append_slice _ (by omega) (by omega)] at hperm
  · -- both lists have ended
    have hle : 2 * W * k ≤ 2 * W * i := Nat.mul_le_mul_left _ (by omega)
    unfold slice
    rw [List.drop_of_length_le (by rw [List.length_take, mergeRuns_length]; omega),
      List.drop_of_length_le (by rw [List.length_take]; omega)]

theorem RunsPerm.mergeRuns {W k : Nat} {xs ys : List α} (h : RunsPerm W ys xs)
    (hlen : ys.length = 2 * W * k) : RunsPerm (2 * W) (mergeRuns le W k ys) xs :=
  (mergeRuns_runsPerm W k ys hlen).trans h.double

/-! ## Ascending runs -/

/-- The first `k` runs of length `W` ascend. -/
def SortedRuns [LE α] (W : Nat) : Nat → List α → Prop
  | 0, _ => True
  | k + 1, xs => (xs.take W).Pairwise (· ≤ ·) ∧ SortedRuns W k (xs.drop W)

/-- Runs of length one ascend. -/
theorem sortedRuns_one [LE α] : ∀ (k : Nat) (xs : List α), SortedRuns 1 k xs
  | 0, _ => trivial
  | k + 1, xs => by
    refine ⟨?_, sortedRuns_one k _⟩
    cases xs with
    | nil => exact List.Pairwise.nil
    | cons x xs => exact List.pairwise_singleton _ _

section Order

variable [LE α] [Std.IsLinearOrder α]

/-- Blocks of length `W` that are rearranged one by one. -/
theorem sortedRuns_of_blocks [DecidableLE α] {W : Nat} : ∀ (k : Nat) (xs ys : List α),
    xs.length = W * k → ys.length = W * k →
    (∀ i < k, slice ys (W * i) (W * i + W) = (slice xs (W * i) (W * i + W)).mergeSort) →
      SortedRuns W k ys ∧ ys.Perm xs
  | 0, xs, ys, hx, hy, _ => by
    rw [List.length_eq_zero_iff.mp hx, List.length_eq_zero_iff.mp hy]
    exact ⟨trivial, List.Perm.refl _⟩
  | k + 1, xs, ys, hx, hy, h => by
    rw [Nat.mul_succ] at hx hy
    have hhead : ys.take W = (xs.take W).mergeSort := by simpa [slice] using h 0 (by omega)
    obtain ⟨hruns, hperm⟩ := sortedRuns_of_blocks (W := W) k (xs.drop W) (ys.drop W)
      (by rw [List.length_drop]; omega) (by rw [List.length_drop]; omega) fun i hi => by
        have hblock := h (i + 1) (by omega)
        rw [slice_drop, slice_drop]
        rw [Nat.mul_succ, Nat.add_comm (W * i) W, Nat.add_assoc] at hblock
        exact hblock
    refine ⟨⟨?_, hruns⟩, ?_⟩
    · rw [hhead]
      exact mergeSort_sorted _
    · have hp : (ys.take W).Perm (xs.take W) := hhead ▸ List.mergeSort_perm _ _
      have := hp.append hperm
      rwa [List.take_append_drop, List.take_append_drop] at this

/-- **A pass doubles the ascending runs.** -/
theorem mergeRuns_sortedRuns (hle : PicksLeast le) (W : Nat) : ∀ (k : Nat) (xs : List α),
    xs.length = 2 * W * k → SortedRuns W (2 * k) xs → SortedRuns (2 * W) k (mergeRuns le W k xs)
  | 0, _, _, _ => trivial
  | k + 1, xs, hlen, hs => by
    rw [Nat.mul_succ] at hs
    obtain ⟨h0, h1, hs⟩ := hs
    rw [List.drop_drop, ← Nat.two_mul] at hs
    have hle2 : 2 * W ≤ xs.length := by rw [hlen]; exact Nat.le_mul_of_pos_right _ (by omega)
    have hhead : ((xs.take W).merge ((xs.drop W).take W) le).length = 2 * W := by
      rw [List.length_merge, List.length_take, List.length_take, List.length_drop]
      omega
    have hrest : (xs.drop (2 * W)).length = 2 * W * k := by
      rw [List.length_drop, hlen, Nat.mul_succ]; omega
    rw [mergeRuns, SortedRuns, List.take_left' hhead, List.drop_left' hhead]
    exact ⟨pairwise_merge hle _ _ h0 h1, mergeRuns_sortedRuns hle W k _ hrest hs⟩

/-! ## All passes -/

/-- The passes for `W, 2 W, …` over a list of `W * 2 ^ j` elements. -/
def bottomUp (le : α → α → Bool) : Nat → Nat → List α → List α
  | 0, _, xs => xs
  | j + 1, W, xs => bottomUp le j (2 * W) (mergeRuns le W (2 ^ j) xs)

omit [LE α] [Std.IsLinearOrder α] in
theorem bottomUp_perm : ∀ (j W : Nat) (xs : List α), (bottomUp le j W xs).Perm xs
  | 0, _, _ => List.Perm.refl _
  | j + 1, W, xs => (bottomUp_perm j (2 * W) _).trans (mergeRuns_perm W (2 ^ j) xs)

/-- **The passes turn ascending runs into one ascending list.** -/
theorem bottomUp_sorted (hle : PicksLeast le) : ∀ (j W : Nat) (xs : List α),
    xs.length = W * 2 ^ j → SortedRuns W (2 ^ j) xs → (bottomUp le j W xs).Pairwise (· ≤ ·)
  | 0, W, xs, hlen, hs => by
    obtain ⟨h, -⟩ := hs
    rwa [List.take_of_length_le (by omega)] at h
  | j + 1, W, xs, hlen, hs => by
    have hlen' : xs.length = 2 * W * 2 ^ j := by
      rw [hlen, Nat.pow_succ, Nat.mul_comm (2 ^ j) 2, ← Nat.mul_assoc, Nat.mul_comm W 2]
    refine bottomUp_sorted hle j (2 * W) _ (by rw [mergeRuns_length]; exact hlen') ?_
    exact mergeRuns_sortedRuns hle W (2 ^ j) xs hlen' (by rwa [Nat.pow_succ, Nat.mul_comm] at hs)

/-- **From runs of length one the passes compute the ascending rearrangement.** -/
theorem bottomUp_eq_mergeSort [DecidableLE α] (hle : PicksLeast le) (j : Nat) (xs : List α)
    (hlen : xs.length = 2 ^ j) : bottomUp le j 1 xs = xs.mergeSort :=
  eq_mergeSort (bottomUp_sorted hle j 1 xs (by rw [hlen, Nat.one_mul]) (sortedRuns_one _ _))
    (bottomUp_perm j 1 xs)

end Order

end RunMerge

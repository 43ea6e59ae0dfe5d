import SortPlatform.Lib.RunMerge

/-!
# The merge pass of the sorting hardware

`src/vp/basic-final/Merge_W*.h` and `src/stratus/*.cpp` share one loop over two cursors:

    for (int i = 0; i < W * 2; i++) {
        if (l2 <= end && (A[l1] > A[l2] || l1 >= second)) C[index++] = A[l2++];
        else                                              C[index++] = A[l1++];
    }

Every array access is checked: an index outside the array makes the pass `none`.

Principal results: `mergeLoop_spec` (the loop merges the two half runs, whatever they contain)
and `mergePass_spec` (a pass for width `W` is `RunMerge.mergeRuns`, and never leaves the arrays).
-/

set_option autoImplicit false

namespace SortPlatform

open RunMerge

variable {α : Type} {n m : Nat}

/-- The locals of the merge loop with the output array. -/
structure Cursor (α : Type) (m : Nat) where
  l1 : Nat
  l2 : Nat
  index : Nat
  C : Vector α m

/-- `C[i] = x`. -/
def store (C : Vector α m) (i : Nat) (x : α) : Option (Vector α m) :=
  if h : i < m then some (C.set i x h) else none

theorem store_of_lt (C : Vector α m) {i : Nat} (h : i < m) (x : α) :
    ∃ C', store C i x = some C' ∧ C'.toList = C.toList.set i x :=
  ⟨C.set i x h, by rw [store, dif_pos h], Vector.toList_set h⟩

theorem getElem?_of_lt (A : Vector α n) {i : Nat} (h : i < n) :
    ∃ x, A[i]? = some x ∧ A.toList[i]? = some x :=
  ⟨A[i], by simp [h], by simp [h]⟩

variable [LT α] [DecidableLT α]

/-- `l2 <= end && (A[l1] > A[l2] || l1 >= second)`, with both elements read when `l2 <= end`. -/
def takesRight (A : Vector α n) (second «end» l1 l2 : Nat) : Option Bool :=
  if l2 ≤ «end» then
    A[l1]?.bind fun a => A[l2]?.map fun b => decide (a > b) || decide (l1 ≥ second)
  else some false

/-- The loop body. -/
def mergeStep (A : Vector α n) (second «end» : Nat) (s : Cursor α m) : Option (Cursor α m) :=
  (takesRight A second «end» s.l1 s.l2).bind fun right =>
    if right then
      A[s.l2]?.bind fun x => (store s.C s.index x).map fun C =>
        { l1 := s.l1, l2 := s.l2 + 1, index := s.index + 1, C := C }
    else
      A[s.l1]?.bind fun x => (store s.C s.index x).map fun C =>
        { l1 := s.l1 + 1, l2 := s.l2, index := s.index + 1, C := C }

/-- `for (int i = 0; i < count; i++)`. -/
def mergeLoop (A : Vector α n) (second «end» : Nat) : Nat → Cursor α m → Option (Cursor α m)
  | 0, s => some s
  | i + 1, s => (mergeStep A second «end» s).bind (mergeLoop A second «end» i)

/-- The body of the loop over `first`: one pair of runs. -/
def mergePair (W : Nat) (A : Vector α n) (C : Vector α m) (first : Nat) : Option (Vector α m) :=
  let second := first + W
  let «end» := second + W - 1
  (mergeLoop A second «end» (W * 2) { l1 := first, l2 := second, index := first, C := C }).map
    fun s => s.C

/-- `for (int first = 0; first < 16; first += W * 2)`. -/
def mergePass (W : Nat) (A C : Vector α 16) : Option (Vector α 16) :=
  (List.range' 0 (16 / (W * 2)) (W * 2)).foldlM (mergePair W A) C

/-! ## The loop body -/

/-- The comparator of the hardware: equal heads are taken from the left run. -/
abbrev hwLe : α → α → Bool := fun a b => !decide (a > b)

/-- The cursors are inside their halves of the run and something is left to merge. -/
structure InRun (second stop l1 l2 : Nat) : Prop where
  left : l1 ≤ second
  right : second ≤ l2
  right_le : l2 ≤ stop
  todo : l1 < second ∨ l2 < stop

/-- **One iteration appends the head of the merge of what is left of both halves.** -/
theorem mergeStep_spec {A : Vector α n} {second «end» : Nat} {s : Cursor α m}
    (hrun : InRun second («end» + 1) s.l1 s.l2) (hn : «end» + 1 ≤ n) (hm : s.index < m) :
    ∃ s' x, mergeStep A second «end» s = some s' ∧ s'.C.toList = s.C.toList.set s.index x ∧
      s'.index = s.index + 1 ∧ s'.l1 + s'.l2 = s.l1 + s.l2 + 1 ∧
      s'.l1 ≤ second ∧ second ≤ s'.l2 ∧ s'.l2 ≤ «end» + 1 ∧
      (slice A.toList s.l1 second).merge (slice A.toList s.l2 («end» + 1)) hwLe =
        x :: (slice A.toList s'.l1 second).merge (slice A.toList s'.l2 («end» + 1)) hwLe := by
  obtain ⟨h1, h2, h3, h4⟩ := hrun
  by_cases hright : s.l2 ≤ «end»
  · obtain ⟨a, ha, ha'⟩ := getElem?_of_lt A (i := s.l1) (by omega)
    obtain ⟨b, hb, hb'⟩ := getElem?_of_lt A (i := s.l2) (by omega)
    have hcond : takesRight A second «end» s.l1 s.l2 =
        some (decide (a > b) || decide (s.l1 ≥ second)) := by
      rw [takesRight, if_pos hright, ha, hb]
      rfl
    rw [slice_cons hb' (show s.l2 < «end» + 1 by omega)]
    by_cases hleft : s.l1 < second
    · rw [slice_cons ha' hleft]
      by_cases hab : a > b
      · -- both halves are live and the right head is smaller
        obtain ⟨C', hC, hl⟩ := store_of_lt s.C hm b
        refine ⟨⟨s.l1, s.l2 + 1, s.index + 1, C'⟩, b, ?_, hl, rfl, by dsimp only; omega,
          h1, by dsimp only; omega, by dsimp only; omega, ?_⟩
        · simp [mergeStep, hcond, hab, hb, hC]
        · rw [List.cons_merge_cons_neg hwLe _ _ (by simpa using hab), ← slice_cons ha' hleft]
      · -- both halves are live and the left head is not larger
        obtain ⟨C', hC, hl⟩ := store_of_lt s.C hm a
        refine ⟨⟨s.l1 + 1, s.l2, s.index + 1, C'⟩, a, ?_, hl, rfl, by dsimp only; omega,
          by dsimp only; omega, h2, h3, ?_⟩
        · simp [mergeStep, hcond, hab, show ¬ second ≤ s.l1 by omega, ha, hC]
        · rw [List.cons_merge_cons_pos hwLe _ _ (by simpa using hab),
            ← slice_cons hb' (show s.l2 < «end» + 1 by omega)]
    · -- the left half is exhausted
      obtain ⟨C', hC, hl⟩ := store_of_lt s.C hm b
      refine ⟨⟨s.l1, s.l2 + 1, s.index + 1, C'⟩, b, ?_, hl, rfl, by dsimp only; omega,
        h1, by dsimp only; omega, by dsimp only; omega, ?_⟩
      · simp [mergeStep, hcond, show second ≤ s.l1 by omega, hb, hC]
      · rw [slice_of_le (show second ≤ s.l1 by omega), List.nil_merge, List.nil_merge]
  · -- the right half is exhausted
    have hleft : s.l1 < second := by omega
    obtain ⟨a, ha, ha'⟩ := getElem?_of_lt A (i := s.l1) (by omega)
    obtain ⟨C', hC, hl⟩ := store_of_lt s.C hm a
    refine ⟨⟨s.l1 + 1, s.l2, s.index + 1, C'⟩, a, ?_, hl, rfl, by dsimp only; omega,
      by dsimp only; omega, h2, h3, ?_⟩
    · simp [mergeStep, takesRight, hright, ha, hC]
    · rw [slice_cons ha' hleft, slice_of_le (show «end» + 1 ≤ s.l2 by omega), List.merge_right,
        List.merge_right]

/-- **The loop merges the two halves of the run** and leaves the rest of `C` alone. -/
theorem mergeLoop_spec (A : Vector α n) {second «end» : Nat} (hn : «end» + 1 ≤ n) :
    ∀ (count : Nat) (s : Cursor α m), s.l1 ≤ second → second ≤ s.l2 → s.l2 ≤ «end» + 1 →
      s.l1 + s.l2 + count = second + («end» + 1) → s.index + count ≤ m →
      ∃ s', mergeLoop A second «end» count s = some s' ∧
        s'.C.toList = s.C.toList.take s.index ++
          ((slice A.toList s.l1 second).merge (slice A.toList s.l2 («end» + 1)) hwLe ++
            s.C.toList.drop (s.index + count))
  | 0, s, h1, h2, h3, hc, _ => by
    refine ⟨s, rfl, ?_⟩
    rw [slice_of_le (show second ≤ s.l1 by omega), slice_of_le (show «end» + 1 ≤ s.l2 by omega),
      List.nil_merge, List.nil_append, Nat.add_zero, List.take_append_drop]
  | count + 1, s, h1, h2, h3, hc, hm => by
    obtain ⟨s₁, x, hs, hC, hi, hl, h1', h2', h3', hmerge⟩ :=
      mergeStep_spec (A := A) ⟨h1, h2, h3, by omega⟩ hn (by omega)
    obtain ⟨s', hs', hC'⟩ := mergeLoop_spec A hn count s₁ h1' h2' h3' (by omega) (by omega)
    refine ⟨s', by rw [mergeLoop, hs]; exact hs', ?_⟩
    rw [hC', hmerge, hC, hi, take_set_succ (by rw [Vector.length_toList]; omega),
      List.drop_set_of_lt (by omega), Nat.add_right_comm, Nat.add_assoc, List.append_assoc]
    rfl

/-! ## The pass -/

theorem mergePair_spec {W : Nat} (hW : 0 < W) (A : Vector α n) (C : Vector α m) (first : Nat)
    (hn : first + 2 * W ≤ n) (hm : first + 2 * W ≤ m) :
    ∃ C', mergePair W A C first = some C' ∧
      C'.toList = C.toList.take first ++
        (((A.toList.drop first).take W).merge (((A.toList.drop first).drop W).take W) hwLe ++
          C.toList.drop (first + 2 * W)) := by
  have hrun : first + W + W - 1 + 1 ≤ n := by omega
  obtain ⟨s', hs', hC'⟩ := mergeLoop_spec A hrun (W * 2)
    { l1 := first, l2 := first + W, index := first, C := C }
    (Nat.le_add_right first W) (Nat.le_refl _) (by dsimp only; omega) (by dsimp only; omega)
    (by dsimp only; omega)
  refine ⟨s'.C, by simp only [mergePair, hs', Option.map_some], ?_⟩
  rw [hC', show first + W + W - 1 + 1 = first + W + W by omega, slice_eq_take_drop,
    slice_eq_take_drop, List.drop_drop, Nat.mul_comm W 2]

/-- `k` pairs of runs from `first` to the end of the arrays. -/
theorem mergePairs_spec {W : Nat} (hW : 0 < W) (A : Vector α n) :
    ∀ (k first : Nat) (C : Vector α n), first + 2 * W * k = n →
      ∃ C', (List.range' first k (W * 2)).foldlM (mergePair W A) C = some C' ∧
        C'.toList = C.toList.take first ++ mergeRuns hwLe W k (A.toList.drop first)
  | 0, first, C, h => by
    refine ⟨C, rfl, ?_⟩
    rw [mergeRuns, List.take_of_length_le (by rw [Vector.length_toList]; omega),
      List.drop_of_length_le (by rw [Vector.length_toList]; omega), List.append_nil]
  | k + 1, first, C, h => by
    rw [Nat.mul_succ] at h
    obtain ⟨C₁, hC₁, hl₁⟩ := mergePair_spec hW A C first (by omega) (by omega)
    obtain ⟨C', hC', hl'⟩ := mergePairs_spec hW A k (first + W * 2) C₁ (by omega)
    refine ⟨C', ?_, ?_⟩
    · rw [List.range'_succ, List.foldlM_cons, hC₁]
      exact hC'
    · have hmerge : (((A.toList.drop first).take W).merge
          (((A.toList.drop first).drop W).take W) hwLe).length = 2 * W := by
        rw [List.length_merge]
        simp only [List.length_take, List.length_drop, Vector.length_toList]
        omega
      have hpre : (C.toList.take first).length = first := by
        rw [List.length_take, Vector.length_toList]; omega
      rw [hl', hl₁, mergeRuns, ← List.append_assoc,
        List.take_left' (by rw [List.length_append, hpre, hmerge, Nat.mul_comm]),
        List.append_assoc, List.drop_drop (i := 2 * W), Nat.mul_comm W 2]

/-- The pass of width `W` on a block of sixteen. -/
def pass (W : Nat) (b : List α) : List α := mergeRuns hwLe W (16 / (W * 2)) b

theorem pass_length (W : Nat) (b : List α) : (pass W b).length = b.length :=
  mergeRuns_length W _ b

theorem pass_perm (W : Nat) (b : List α) : (pass W b).Perm b := mergeRuns_perm W _ b

/-- **The four passes are the ascending rearrangement.** -/
theorem passes_eq_mergeSort [LE α] [DecidableLE α] [Std.IsLinearOrder α] [Std.LawfulOrderLT α]
    {b : List α} (hb : b.length = 16) : pass 8 (pass 4 (pass 2 (pass 1 b))) = b.mergeSort :=
  bottomUp_eq_mergeSort picksLeast_notGt 4 b hb

/-- The widths of the modules. -/
structure IsWidth (W : Nat) : Prop where
  pos : 0 < W
  covers : 2 * W * (16 / (W * 2)) = 16

theorem isWidth_1 : IsWidth 1 := ⟨by omega, rfl⟩
theorem isWidth_2 : IsWidth 2 := ⟨by omega, rfl⟩
theorem isWidth_4 : IsWidth 4 := ⟨by omega, rfl⟩
theorem isWidth_8 : IsWidth 8 := ⟨by omega, rfl⟩

/-- **A pass merges every pair of runs of width `W`** of any contents, inside its arrays. -/
theorem mergePass_spec {W : Nat} (hW : IsWidth W) (A C : Vector α 16) :
    ∃ C', mergePass W A C = some C' ∧ C'.toList = pass W A.toList := by
  obtain ⟨hW, hdiv⟩ := hW
  obtain ⟨C', h, hl⟩ := mergePairs_spec hW A (16 / (W * 2)) 0 C (by omega)
  exact ⟨C', h, by rw [hl]; rfl⟩

end SortPlatform

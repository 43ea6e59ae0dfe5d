import SortPlatform.Lib.RunMerge
import Mathlib.Data.List.GetD

/-!
# The merge loop of the software

The loop that `src/sw/final/main.cpp` and `main128.cpp` use six times, over two arrays `x` and `y`
(the same array in the passes, `out0` and `out1` in the final merge):

    for (int index = l1; index < last; index++) {
        if (l1 < mid && (x[l1] < y[l2]) || l2 >= stop) out[index] = x[l1++];
        else                                           out[index] = y[l2++];
    }

One step makes at most one access to memory. A load outside an array finds a stray byte, since
the guard compares before it tests `l2`.

Principal result: `Merge.Inv.next` — whatever the stray bytes, what is in `out` and what is left
of the two runs make up the merge of the runs.
-/

set_option autoImplicit false

namespace SortPlatform.Sw

open RunMerge

/-- The limits of the two runs and of `index`. -/
structure Bounds where
  mid : Nat
  stop : Nat
  last : Nat
  deriving DecidableEq, Repr

/-- Where a hart is inside the loop. -/
inductive MergePc where
  /-- `index < last`, then `l1 < mid` -/
  | test
  /-- the load of `x[l1]` for the comparison -/
  | left
  /-- the load of `y[l2]` for the comparison with `a` -/
  | right (a : UInt8)
  /-- the load of `x[l1++]` or `y[l2++]` -/
  | pick (left : Bool)
  /-- the store to `out[index]` -/
  | put (v : UInt8)
  | done
  deriving DecidableEq, Repr

structure Merge where
  l1 : Nat
  l2 : Nat
  index : Nat
  pc : MergePc
  deriving DecidableEq, Repr

/-- The access to memory of a step. -/
inductive Access where
  | left (i : Nat)
  | right (i : Nat)
  | out (i : Nat) (v : UInt8)
  deriving DecidableEq, Repr

/-- `xs[i]` -/
def load (xs : List UInt8) (stray : UInt8) (i : Nat) : UInt8 := xs.getD i stray

theorem load_eq {xs : List UInt8} {i : Nat} (h : i < xs.length) (stray : UInt8) :
    xs[i]? = some (load xs stray i) := by
  unfold load
  rw [List.getD_eq_getElem _ _ h, List.getElem?_eq_getElem h]

/-- One step of the loop with the access it makes. -/
def Merge.next (b : Bounds) (x y : List UInt8) (stray : UInt8) (m : Merge) :
    Merge × Option Access :=
  match m.pc with
  | .test =>
    if m.index < b.last then
      if m.l1 < b.mid then ({ m with pc := .left }, none)
      else ({ m with pc := .pick (decide (b.stop ≤ m.l2)) }, none)
    else ({ m with pc := .done }, none)
  | .left => ({ m with pc := .right (load x stray m.l1) }, some (.left m.l1))
  | .right a =>
    ({ m with pc := .pick (decide (a < load y stray m.l2) || decide (b.stop ≤ m.l2)) },
      some (.right m.l2))
  | .pick true => ({ m with l1 := m.l1 + 1, pc := .put (load x stray m.l1) }, some (.left m.l1))
  | .pick false => ({ m with l2 := m.l2 + 1, pc := .put (load y stray m.l2) }, some (.right m.l2))
  | .put v => ({ m with index := m.index + 1, pc := .test }, some (.out m.index v))
  | .done => (m, none)

/-- Inside an iteration `index` is below its limit. -/
def Merge.Below (b : Bounds) (m : Merge) : Prop :=
  match m.pc with
  | .test | .done => True
  | _ => m.index < b.last

theorem Merge.Below.next {b : Bounds} {x y : List UInt8} {stray : UInt8} {m : Merge}
    (h : m.Below b) : (m.next b x y stray).1.Below b := by
  obtain ⟨l1, l2, index, pc⟩ := m
  unfold Merge.next
  cases pc with
  | test =>
    dsimp only
    split
    · split <;> assumption
    · trivial
  | left => exact h
  | right a => exact h
  | pick left => cases left <;> exact h
  | put v => trivial
  | done => trivial

/-- A store goes to `index`, below its limit. -/
theorem Merge.Below.store {b : Bounds} {x y : List UInt8} {stray : UInt8} {m : Merge} {i : Nat}
    {v : UInt8} (h : m.Below b) (ha : (m.next b x y stray).2 = some (.out i v)) : i < b.last := by
  obtain ⟨l1, l2, index, pc⟩ := m
  unfold Merge.next at ha
  cases pc with
  | test =>
    dsimp only at ha
    split at ha
    · split at ha <;> cases ha
    · cases ha
  | left => cases ha
  | right a => cases ha
  | pick left => cases left <;> cases ha
  | put v =>
    cases ha
    exact h
  | done => cases ha

/-! ## What the loop computes -/

/-- The comparator of the software: equal heads are taken from the right run. -/
abbrev swLe : UInt8 → UInt8 → Bool := fun a b => decide (a < b)

/-- What is left of the runs, merged. -/
def Merge.rest (b : Bounds) (x y : List UInt8) (m : Merge) : List UInt8 :=
  (slice x m.l1 b.mid).merge (slice y m.l2 b.stop) swLe

/-- What a hart inside an iteration knows. -/
def Merge.Local (b : Bounds) (x y : List UInt8) (m : Merge) : Prop :=
  match m.pc with
  | .test => m.l1 + m.l2 + b.last = b.mid + b.stop + m.index
  | .left => m.l1 + m.l2 + b.last = b.mid + b.stop + m.index ∧ m.index < b.last ∧ m.l1 < b.mid
  | .right a => m.l1 + m.l2 + b.last = b.mid + b.stop + m.index ∧ m.index < b.last ∧
      m.l1 < b.mid ∧ x[m.l1]? = some a
  | .pick true => m.l1 + m.l2 + b.last = b.mid + b.stop + m.index ∧ m.index < b.last ∧
      m.l1 < b.mid ∧
      ∀ a c, x[m.l1]? = some a → y[m.l2]? = some c → m.l2 < b.stop → swLe a c = true
  | .pick false => m.l1 + m.l2 + b.last = b.mid + b.stop + m.index ∧ m.index < b.last ∧
      m.l2 < b.stop ∧
      ∀ a c, x[m.l1]? = some a → y[m.l2]? = some c → m.l1 < b.mid → swLe a c = false
  | .put _ => m.l1 + m.l2 + b.last = b.mid + b.stop + m.index + 1 ∧ m.index < b.last
  | .done => m.l1 = b.mid ∧ m.l2 = b.stop ∧ m.index = b.last

/-- The element on its way to `out[index]`. -/
def Merge.carried (m : Merge) : List UInt8 :=
  match m.pc with
  | .put v => [v]
  | _ => []

/-- **The invariant of the loop**: what is in `out`, what is carried and what is left is `goal`. -/
structure Merge.Inv (b : Bounds) (x y out goal : List UInt8) (m : Merge) : Prop where
  l1_le : m.l1 ≤ b.mid
  l2_le : m.l2 ≤ b.stop
  index_le : m.index ≤ b.last
  mine : m.Local b x y
  content : out.take m.index ++ (m.carried ++ m.rest b x y) = goal

section Step

variable {b : Bounds} {x y out goal : List UInt8} {m : Merge}

theorem Merge.rest_left {l1 l2 index index' : Nat} {pc pc' : MergePc} {a : UInt8}
    (ha : x[l1]? = some a) (hlt : l1 < b.mid)
    (hle : ∀ c, y[l2]? = some c → l2 < b.stop → swLe a c = true) (hy : b.stop ≤ y.length) :
    Merge.rest b x y ⟨l1, l2, index, pc⟩ = a :: Merge.rest b x y ⟨l1 + 1, l2, index', pc'⟩ := by
  unfold Merge.rest
  rw [slice_cons ha hlt]
  by_cases hl2 : l2 < b.stop
  · have hc : y[l2]? = some y[l2] := List.getElem?_eq_getElem (by omega)
    rw [slice_cons hc hl2, List.cons_merge_cons_pos swLe _ _ (hle _ hc hl2)]
  · rw [slice_of_le (show b.stop ≤ l2 by omega), List.merge_right, List.merge_right]

theorem Merge.rest_right {l1 l2 index index' : Nat} {pc pc' : MergePc} {c : UInt8}
    (hc : y[l2]? = some c) (hlt : l2 < b.stop)
    (hle : ∀ a, x[l1]? = some a → l1 < b.mid → swLe a c = false) (hx : b.mid ≤ x.length) :
    Merge.rest b x y ⟨l1, l2, index, pc⟩ = c :: Merge.rest b x y ⟨l1, l2 + 1, index', pc'⟩ := by
  unfold Merge.rest
  rw [slice_cons hc hlt]
  by_cases hl1 : l1 < b.mid
  · have ha : x[l1]? = some x[l1] := List.getElem?_eq_getElem (by omega)
    rw [slice_cons ha hl1, List.cons_merge_cons_neg swLe _ _ (by simp [hle _ ha hl1])]
  · rw [slice_of_le (show b.mid ≤ l1 by omega), List.nil_merge, List.nil_merge]

/-- **One step keeps the invariant**, with `out` changed at most by the store of the step. -/
theorem Merge.Inv.next (hi : m.Inv b x y out goal) (hx : b.mid ≤ x.length)
    (hy : b.stop ≤ y.length) (hout : b.last ≤ out.length) (stray : UInt8) {m' : Merge}
    {access : Option Access} (h : m.next b x y stray = (m', access)) :
    m'.Inv b x y (match access with | some (.out i v) => out.set i v | _ => out) goal := by
  obtain ⟨l1, l2, index, pc⟩ := m
  obtain ⟨h1, h2, h3, hl, hc⟩ := hi
  unfold Merge.next at h
  cases pc with
  | test =>
    have hl : l1 + l2 + b.last = b.mid + b.stop + index := hl
    dsimp only at h h1 h2 h3
    split at h
    · rename_i hindex
      split at h
      · rename_i hl1
        cases h
        exact ⟨h1, h2, h3, ⟨hl, hindex, hl1⟩, hc⟩
      · -- the left run is exhausted, so the right run is not
        rename_i hl1
        have hstop : ¬ b.stop ≤ l2 := by omega
        simp only [hstop, decide_false] at h
        cases h
        exact ⟨h1, h2, h3, ⟨hl, hindex, by dsimp only; omega, fun a c _ _ hlt => absurd hlt hl1⟩,
          hc⟩
    · cases h
      exact ⟨h1, h2, h3, ⟨by dsimp only; omega, by dsimp only; omega, by dsimp only; omega⟩, hc⟩
  | left =>
    obtain ⟨hsum, hindex, hlt⟩ := hl
    cases h
    exact ⟨h1, h2, h3, ⟨hsum, hindex, hlt, load_eq (Nat.lt_of_lt_of_le hlt hx) stray⟩, hc⟩
  | right a =>
    obtain ⟨hsum, hindex, hlt, ha⟩ := hl
    dsimp only at hsum hindex hlt ha h2
    cases h
    refine ⟨h1, h2, h3, ?_, ?_⟩
    · by_cases hl2 : b.stop ≤ l2
      · -- whatever the stray byte, the left run is picked
        simp only [hl2, decide_true, Bool.or_true]
        exact ⟨hsum, hindex, hlt, fun a c _ _ hlt' => absurd hl2 (Nat.not_le.mpr hlt')⟩
      · have hload := load_eq (Nat.lt_of_lt_of_le (Nat.not_le.mp hl2) hy) stray
        simp only [hl2, decide_false, Bool.or_false]
        have hac : ∀ a' c, x[l1]? = some a' → y[l2]? = some c →
            swLe a' c = decide (a < load y stray l2) := by
          intro a' c ha' hc'
          rw [Option.some.inj (ha.symm.trans ha'), Option.some.inj (hload.symm.trans hc')]
        cases hcmp : decide (a < load y stray l2) with
        | true => exact ⟨hsum, hindex, hlt, fun a' c ha' hc' _ => (hac a' c ha' hc').trans hcmp⟩
        | false => exact ⟨hsum, hindex, Nat.not_le.mp hl2,
            fun a' c ha' hc' _ => (hac a' c ha' hc').trans hcmp⟩
    · exact hc
  | pick left =>
    cases left with
    | true =>
      obtain ⟨hsum, hindex, hlt, hle⟩ := hl
      dsimp only at hsum hindex hlt hle h2
      have ha := load_eq (Nat.lt_of_lt_of_le hlt hx) stray
      cases h
      refine ⟨hlt, h2, h3, ⟨by dsimp only; omega, hindex⟩, ?_⟩
      rw [← hc, Merge.rest_left ha hlt (fun c hc' hlt' => hle _ c ha hc' hlt') hy]
      rfl
    | false =>
      obtain ⟨hsum, hindex, hlt, hle⟩ := hl
      dsimp only at hsum hindex hlt hle h1
      have hcc := load_eq (Nat.lt_of_lt_of_le hlt hy) stray
      cases h
      refine ⟨h1, hlt, h3, ⟨by dsimp only; omega, hindex⟩, ?_⟩
      rw [← hc, Merge.rest_right hcc hlt (fun a ha hlt' => hle a _ ha hcc hlt') hx]
      rfl
  | put v =>
    obtain ⟨hsum, hindex⟩ := hl
    dsimp only at hsum hindex
    cases h
    refine ⟨h1, h2, hindex, show _ = _ by omega, ?_⟩
    dsimp only
    rw [← hc, take_set_succ (by omega), List.append_assoc]
    rfl
  | done =>
    cases h
    exact ⟨h1, h2, h3, hl, hc⟩

/-- **When the loop is over `out` holds the goal.** -/
theorem Merge.Inv.done (hi : m.Inv b x y out goal) (hpc : m.pc = .done) :
    out.take b.last = goal := by
  obtain ⟨l1, l2, index, pc⟩ := m
  obtain ⟨-, -, -, hl, hc⟩ := hi
  cases hpc
  obtain ⟨rfl, rfl, rfl⟩ := hl
  rw [← hc]
  unfold Merge.rest Merge.carried
  rw [slice_of_le (Nat.le_refl _), slice_of_le (Nat.le_refl _)]
  simp

end Step

end SortPlatform.Sw

import SortPlatform.Sw.Alone

/-!
# Where the merges read

Which contents of the arrays keep every access of the merge loops of `src/sw/final/main.cpp` and
`main128.cpp` inside its array. The guard compares `x[l1]` with `y[l2]` before it tests `l2`, so a
run reads past the end of `y` exactly when the right run at the end of `y` is exhausted while an
element of the left run is left.

* `InBounds` — every access of a part of the program, run alone, is inside its array.
* `RightEndsLast` — every element of the left run is below some element of the right run.

Principal result: `merges_inBounds_iff`.
-/

set_option autoImplicit false

namespace SortPlatform.Sw

open RunMerge

/-! ## Statement -/

/-- An access inside its array. -/
def Event.Inside (p : Program) : Event → Prop
  | .load _ a i | .store _ a i => i < p.length a
  | _ => True

/-- Every access of hart `h` from `pc` and `mem` through the part `stage` is inside its array,
whatever the stray bytes; a store outside would have no step. -/
def InBounds (p : Program) (h : Hart) (stage : Nat) (pc : HartPc) (mem : Memory) : Prop :=
  ∀ s, (alone p h stage pc mem).Reach s → s.1.stage = stage → ∀ stray,
    ∃ pc' mem' ev, hartStep p h stray s.1 s.2 = some (pc', mem', ev) ∧ ∀ e ∈ ev, e.Inside p

/-- Every element of `left` is below some element of `right`. -/
def RightEndsLast (left right : List UInt8) : Prop := ∀ a ∈ left, ∃ c ∈ right, a < c

/-- `for (int W = 32; W <= half; W *= 2)` -/
def Program.Width (p : Program) (W : Nat) : Prop := W ≤ p.half ∧ ∃ t, W = 32 * 2 ^ t

/-- The last pair of runs of the pass `W`, in the array before all passes. -/
def LastPair (p : Program) (xs : List UInt8) (W : Nat) : Prop :=
  RightEndsLast (slice xs (p.half - W) (p.half - W / 2)) (slice xs (p.half - W / 2) p.half)

/-! ## One merge -/

/-- What is left of the right run ends last. -/
def Merge.Ahead (b : Bounds) (x y : List UInt8) (m : Merge) : Prop :=
  RightEndsLast (slice x m.l1 b.mid) (slice y m.l2 b.stop)

section Merge

variable {b : Bounds} {x y out goal : List UInt8} {m m' : Merge} {stray : UInt8}
  {access : Option Access}

theorem rightEndsLast_congr {left left' right right' : List UInt8} (hl : left.Perm left')
    (hr : right.Perm right') : RightEndsLast left right ↔ RightEndsLast left' right' := by
  unfold RightEndsLast
  simp only [hl.mem_iff, hr.mem_iff]

theorem exists_getElem {xs : List UInt8} {i : Nat} (h : i < xs.length) : ∃ a, xs[i]? = some a :=
  ⟨xs[i], List.getElem?_eq_getElem h⟩

/-- **As long as `y[l2]` is compared inside the right run, no step changes which run ends last.** -/
theorem Merge.Inv.ahead (hi : m.Inv b x y out goal) (hx : b.mid ≤ x.length)
    (hy : b.stop ≤ y.length) (hright : ∀ a, m.pc = .right a → m.l2 < b.stop)
    (hpick : m.pc = .pick true → m.l2 < b.stop) (h : m.next b x y stray = (m', access)) :
    (m'.Ahead b x y ↔ m.Ahead b x y) ∧ (m'.pc = .pick true → m'.l2 < b.stop) := by
  obtain ⟨l1, l2, index, pc⟩ := m
  obtain ⟨h1, h2, h3, hl, -⟩ := hi
  unfold Merge.next at h
  cases pc with
  | test =>
    have hl : l1 + l2 + b.last = b.mid + b.stop + index := hl
    dsimp only at h h1 h2 h3
    split at h
    · split at h
      · cases h
        exact ⟨Iff.rfl, nofun⟩
      · cases h
        exact ⟨Iff.rfl, fun _ => by dsimp only; omega⟩
    · cases h
      exact ⟨Iff.rfl, nofun⟩
  | left =>
    cases h
    exact ⟨Iff.rfl, nofun⟩
  | right a =>
    cases h
    exact ⟨Iff.rfl, fun _ => hright a rfl⟩
  | pick left =>
    cases left with
    | true =>
      obtain ⟨-, -, hlt, hle⟩ := hl
      have hl2 : l2 < b.stop := hpick rfl
      obtain ⟨a₀, ha⟩ := exists_getElem (Nat.lt_of_lt_of_le hlt hx)
      obtain ⟨c₀, hc⟩ := exists_getElem (Nat.lt_of_lt_of_le hl2 hy)
      have hac : a₀ < c₀ := of_decide_eq_true (hle _ _ ha hc hl2)
      cases h
      refine ⟨?_, nofun⟩
      unfold Merge.Ahead
      dsimp only
      rw [slice_cons ha hlt, slice_cons hc hl2]
      constructor
      · intro hahead a ha'
        rcases List.mem_cons.mp ha' with rfl | ha'
        · exact ⟨_, List.mem_cons_self, hac⟩
        · exact hahead a ha'
      · intro hahead a ha'
        exact hahead a (List.mem_cons_of_mem _ ha')
    | false =>
      obtain ⟨-, -, hlt, hle⟩ := hl
      obtain ⟨c₀, hc⟩ := exists_getElem (Nat.lt_of_lt_of_le hlt hy)
      cases h
      refine ⟨?_, nofun⟩
      unfold Merge.Ahead
      dsimp only
      rw [slice_cons hc hlt]
      constructor
      · intro hahead a ha'
        obtain ⟨c, hc', hlt'⟩ := hahead a ha'
        exact ⟨c, List.mem_cons_of_mem _ hc', hlt'⟩
      · intro hahead a ha'
        have hl1 : l1 < b.mid := by
          by_contra hge
          rw [slice_of_le (Nat.le_of_not_lt hge)] at ha'
          cases ha'
        obtain ⟨a₀, ha⟩ := exists_getElem (Nat.lt_of_lt_of_le hl1 hx)
        -- what is put away is not above the head of the left run, so a later element is above both
        have hge : c₀ ≤ a₀ := UInt8.not_lt.mp (of_decide_eq_false (hle _ _ ha hc hl1))
        have hmem : a₀ ∈ slice x l1 b.mid := by
          rw [slice_cons ha hl1]
          exact List.mem_cons_self
        obtain ⟨d, hd, hxd⟩ := hahead _ hmem
        have hd' : d ∈ slice y (l2 + 1) b.stop := by
          rcases List.mem_cons.mp hd with rfl | hd
          · exact absurd (UInt8.lt_of_lt_of_le hxd hge) (UInt8.lt_irrefl _)
          · exact hd
        obtain ⟨c, hc', hlt'⟩ := hahead a ha'
        rcases List.mem_cons.mp hc' with rfl | hc'
        · exact ⟨d, hd', UInt8.lt_trans hlt' (UInt8.lt_of_le_of_lt hge hxd)⟩
        · exact ⟨c, hc', hlt'⟩
  | put v =>
    cases h
    exact ⟨Iff.rfl, nofun⟩
  | done =>
    cases h
    exact ⟨Iff.rfl, nofun⟩

/-- When the loop is over, nothing of the left run is left. -/
theorem Merge.Inv.ahead_of_done (hi : m.Inv b x y out goal) (hpc : m.pc = .done) :
    m.Ahead b x y := by
  have hl := hi.mine
  rw [Merge.Local, hpc] at hl
  intro a ha
  rw [slice_of_le (Nat.le_of_eq hl.1.symm)] at ha
  cases ha

/-- While the right run ends last it is not exhausted before the comparison. -/
theorem Merge.Inv.lt_of_ahead (hi : m.Inv b x y out goal) (hahead : m.Ahead b x y) {a : UInt8}
    (hpc : m.pc = .right a) : m.l2 < b.stop := by
  have hl := hi.mine
  rw [Merge.Local, hpc] at hl
  obtain ⟨-, -, hlt, ha⟩ := hl
  by_contra hge
  have hmem : a ∈ slice x m.l1 b.mid := by
    rw [slice_cons ha hlt]
    exact List.mem_cons_self
  obtain ⟨c, hc, -⟩ := hahead a hmem
  rw [slice_of_le (Nat.le_of_not_lt hge)] at hc
  cases hc

end Merge

/-! ## The accesses of a step -/

/-- The next access compares with `y[l2]` past the end of `y`. -/
def HartPc.Beyond (p : Program) : HartPc → Prop
  | .merge _ _ m | .final _ m => (∃ a, m.pc = .right a) ∧ p.half ≤ m.l2
  | _ => False

section Step

variable {p : Program} {h : Hart} {stray : UInt8} {pc' : HartPc} {mem mem' : Memory}
  {ev : List Event}

/-- Only the load of `y[l2]` for the comparison can be outside its array. -/
theorem mergeIn_inside {x y o : Arr} {b : Bounds} {m m' : Merge} {goal : List UInt8}
    (hs : mergeIn h x y o b stray m mem = some (m', mem', ev))
    (hi : m.Inv b (mem.arr x) (mem.arr y) (mem.arr o) goal) (hx : b.mid ≤ p.length x)
    (hy : b.stop ≤ p.length y) (ho : b.last ≤ p.length o) :
    (∀ e ∈ ev, e.Inside p) ↔ ∀ a, m.pc = .right a → m.l2 < p.length y := by
  obtain ⟨l1, l2, index, pc⟩ := m
  obtain ⟨-, -, -, hl, -⟩ := hi
  unfold mergeIn Merge.next at hs
  cases pc with
  | test =>
    refine ⟨nofun, fun _ => ?_⟩
    by_cases hindex : index < b.last
    · by_cases hl1 : l1 < b.mid <;> simp only [hindex, hl1, if_true, if_false] at hs <;>
        cases hs <;> simp
    · simp only [hindex, if_false] at hs
      cases hs
      simp
  | left =>
    obtain ⟨-, -, hlt⟩ := hl
    cases hs
    refine ⟨nofun, fun _ e he => ?_⟩
    rw [List.mem_singleton.mp he]
    exact Nat.lt_of_lt_of_le hlt hx
  | right a =>
    cases hs
    constructor
    · intro hev a' _
      exact hev _ (List.mem_singleton_self _)
    · intro hlt e he
      rw [List.mem_singleton.mp he]
      exact hlt a rfl
  | pick left =>
    cases left with
    | true =>
      obtain ⟨-, -, hlt, -⟩ := hl
      cases hs
      refine ⟨nofun, fun _ e he => ?_⟩
      rw [List.mem_singleton.mp he]
      exact Nat.lt_of_lt_of_le hlt hx
    | false =>
      obtain ⟨-, -, hlt, -⟩ := hl
      cases hs
      refine ⟨nofun, fun _ e he => ?_⟩
      rw [List.mem_singleton.mp he]
      exact Nat.lt_of_lt_of_le hlt hy
  | put v =>
    obtain ⟨-, hlt⟩ := hl
    obtain ⟨mem₁, -, hs⟩ := Option.map_eq_some_iff.mp hs
    cases hs
    refine ⟨nofun, fun _ e he => ?_⟩
    rw [List.mem_singleton.mp he]
    exact Nat.lt_of_lt_of_le hlt ho
  | done =>
    cases hs
    exact ⟨nofun, fun _ => by simp⟩

/-- The comparison loads `y[l2]`. -/
theorem mergeIn_right {x y o : Arr} {b : Bounds} {m m' : Merge} {a : UInt8} (hpc : m.pc = .right a)
    (hs : mergeIn h x y o b stray m mem = some (m', mem', ev)) : ev = [.load h y m.l2] := by
  obtain ⟨l1, l2, index, pc⟩ := m
  cases hpc
  cases hs
  rfl

/-- The limits of the pairs of a pass are inside the arrays. -/
theorem Passing.limits {xs : List UInt8} {W i : Nat} {m : Merge}
    (hp : Passing p h xs (.merge W i m, mem)) :
    (i - 1) * W + W / 2 ≤ i * W ∧ i * W ≤ p.half ∧ 1 ≤ i ∧ (i ≠ p.half / W → i * W + W ≤ p.half) := by
  obtain ⟨j, goal, hl, h1, hij, -⟩ := hp.sorting
  have hW := hl.even
  have hhalf := hl.half
  have hle : i * W ≤ p.half := by
    rw [hhalf, Nat.mul_comm]
    exact Nat.mul_le_mul_left W hij
  refine ⟨?_, hle, h1, fun hne => ?_⟩
  · obtain ⟨i, rfl⟩ := Nat.exists_eq_add_of_le' h1
    rw [Nat.add_sub_cancel, Nat.succ_mul]
    omega
  · rw [hl.pairs] at hne
    rw [hhalf, ← Nat.succ_mul, Nat.mul_comm W]
    exact Nat.mul_le_mul_right W (by omega)

/-- **A step of the passes** stays inside the arrays unless it is that load. -/
theorem Passing.inside {xs : List UInt8} {s : HartPc × Memory} (hp : Passing p h xs s)
    (h6 : s.1.stage = 6) (hs : hartStep p h stray s.1 s.2 = some (pc', mem', ev)) :
    (∀ e ∈ ev, e.Inside p) ↔ ¬ s.1.Beyond p := by
  obtain ⟨pc, mem⟩ := s
  have hlim := fun W i m (hpc : pc = .merge W i m) => (hpc ▸ hp).limits
  obtain ⟨hlen, hplace, -, hsorting⟩ := hp
  dsimp only at hs hlen hplace hsorting hlim h6
  have htmp := length_tmp p h
  have hout := length_out p h
  unfold hartStep at hs
  cases pc with
  | passes W | pairs W i =>
    cases hs
    simp [HartPc.Beyond]
  | merge W i m =>
    obtain ⟨j, goal, hl, h1, hij, hinv, -⟩ := hsorting
    obtain ⟨hmid, hle, -⟩ := hlim W i m rfl
    dsimp only at hs
    split at hs
    · rename_i hdone
      cases hs
      simp [HartPc.Beyond, hdone]
    · obtain ⟨⟨m', mem₁, ev₁⟩, hm, hs⟩ := Option.map_eq_some_iff.mp hs
      cases hs
      rw [mergeIn_inside (p := p) hm hinv (show (i - 1) * W + W / 2 ≤ _ by omega)
        (show i * W ≤ _ by omega) (show i * W ≤ _ by omega), htmp]
      simp only [HartPc.Beyond, not_and, not_le, forall_exists_index]
  | copy W k =>
    dsimp only at hs
    split at hs
    · rename_i hk
      cases hs
      simpa [HartPc.Beyond, Event.Inside, hout] using hk
    · cases hs
      simp [HartPc.Beyond]
  | copyStore W k v =>
    have hk : k < p.half := hplace
    obtain ⟨mem₁, -, hs⟩ := Option.map_eq_some_iff.mp hs
    cases hs
    simpa [HartPc.Beyond, Event.Inside, htmp] using hk
  | wait ph | transfer ph k | post ph => cases ph <;> simp at h6
  | _ => simp at h6

/-- **That load** is of the element behind the last one of `tmp`. -/
theorem Passing.beyond {xs : List UInt8} {s : HartPc × Memory} (hp : Passing p h xs s)
    (h6 : s.1.stage = 6) (hb : s.1.Beyond p)
    (hs : hartStep p h stray s.1 s.2 = some (pc', mem', ev)) :
    ev = [.load h (tmp h) p.half] := by
  obtain ⟨pc, mem⟩ := s
  cases pc with
  | merge W i m =>
    obtain ⟨⟨a, hright⟩, hpast⟩ := hb
    obtain ⟨-, hle, -⟩ := hp.limits
    obtain ⟨j, goal, -, -, -, hinv, -⟩ := hp.sorting
    have hl2 : m.l2 ≤ i * W := hinv.l2_le
    have heq : m.l2 = p.half := by omega
    simp only [hartStep, if_neg (show m.pc ≠ .done by simp [hright])] at hs
    obtain ⟨⟨m', mem₁, ev₁⟩, hm, hs⟩ := Option.map_eq_some_iff.mp hs
    cases hs
    rw [mergeIn_right hright hm, heq]
  | final i m => simp at h6
  | _ => exact hb.elim

end Step

/-! ## The passes -/

/-- What is known of the right runs at the ends of the array: those of the passes behind end last,
and in the pass at hand what is left does exactly if all of it does. `xs` is the array before all
passes. -/
def Watched (p : Program) (xs : List UInt8) (pc : HartPc) (xs' os : List UInt8) : Prop :=
  match pc with
  | .passes W => ∃ t, W = 32 * 2 ^ t ∧ RunsPerm (W / 2) xs' xs ∧ ∀ u < t, LastPair p xs (32 * 2 ^ u)
  | .pairs W i => ∃ t, W = 32 * 2 ^ t ∧ RunsPerm (W / 2) xs' xs ∧
      (∀ u < t, LastPair p xs (32 * 2 ^ u)) ∧ (p.half / W < i → LastPair p xs W)
  | .merge W i m => ∃ t, W = 32 * 2 ^ t ∧ RunsPerm (W / 2) xs' xs ∧
      (∀ u < t, LastPair p xs (32 * 2 ^ u)) ∧
      (i = p.half / W → (m.Ahead (passBounds W i) xs' xs' ↔ LastPair p xs W) ∧
        (m.pc = .pick true → m.l2 < i * W))
  | .copy W _ | .copyStore W _ _ => ∃ t, W = 32 * 2 ^ t ∧ RunsPerm W os xs ∧
      ∀ u < t + 1, LastPair p xs (32 * 2 ^ u)
  | _ => ∀ t, 32 * 2 ^ t ≤ p.half → LastPair p xs (32 * 2 ^ t)

section Passes

variable {p : Program} {h : Hart} {stray : UInt8} {pc' : HartPc} {mem mem' : Memory}
  {ev : List Event} {xs xs' os : List UInt8} {s : HartPc × Memory}

/-- The last pair of runs, before and after the earlier passes. -/
theorem lastPair_start {W j : Nat} (hl : Level p (p.passed xs) W j xs')
    (hperm : RunsPerm (W / 2) xs' xs) :
    (passStart W (p.half / W)).Ahead (passBounds W (p.half / W)) xs' xs' ↔ LastPair p xs W := by
  have hW := hl.even
  have hhalf := hl.half
  have hpos := Nat.two_pow_pos j
  have hmul : p.half / W * W = p.half := by rw [hl.pairs, hhalf, Nat.mul_comm]
  have hpred : (p.half / W - 1) * W = p.half - W := by rw [Nat.sub_one_mul, hmul]
  have hle : W ≤ p.half := by
    rw [hhalf]
    exact Nat.le_mul_of_pos_right _ hpos
  -- the two runs have the numbers `k` and `k + 1`
  obtain ⟨k, hk⟩ : ∃ k, W / 2 * k = p.half - W := by
    refine ⟨2 * (2 ^ j - 1), ?_⟩
    rw [← Nat.mul_assoc, Nat.mul_comm (W / 2) 2, ← hW, Nat.mul_sub_one, hhalf]
  have h0 := hperm k
  have h1 := hperm (k + 1)
  rw [Nat.mul_succ, hk] at h1
  rw [hk] at h0
  unfold Merge.Ahead LastPair
  simp only [passStart, passBounds, hpred, hmul]
  rw [show p.half - W / 2 = p.half - W + W / 2 by omega]
  rw [show p.half - W + W / 2 + W / 2 = p.half by omega] at h1
  exact rightEndsLast_congr h0 h1

/-- **One step of the passes** that stays inside the arrays. -/
theorem hartStep_watched (hp : Passing p h xs s) (h6 : s.1.stage = 6)
    (hw : Watched p xs s.1 (s.2.arr (tmp h)) (s.2.arr (out h))) (hb : ¬ s.1.Beyond p)
    (hs : hartStep p h stray s.1 s.2 = some (pc', mem', ev)) :
    Watched p xs pc' (mem'.arr (tmp h)) (mem'.arr (out h)) := by
  obtain ⟨pc, mem⟩ := s
  have hlim := fun W i m (hpc : pc = .merge W i m) => (hpc ▸ hp).limits
  obtain ⟨hlen, hplace, -, hsorting⟩ := hp
  dsimp only at hs hw hb hlen hplace hsorting hlim h6
  have htmp : (mem.arr (tmp h)).length = p.half := (hlen _).trans (length_tmp p h)
  have hout : (mem.arr (out h)).length = p.half := (hlen _).trans (length_out p h)
  unfold hartStep at hs
  cases pc with
  | passes W =>
    cases hs
    obtain ⟨t, hW, hperm, hknown⟩ := hw
    have hpos := Nat.two_pow_pos t
    split
    · rename_i hle
      refine ⟨t, hW, hperm, hknown, fun hlt => ?_⟩
      have : 1 ≤ p.half / W := (Nat.one_le_div_iff (by omega)).mpr hle
      omega
    · -- all widths are behind
      rename_i hlt
      intro u hu
      refine hknown u ?_
      by_contra hge
      have := Nat.pow_le_pow_right (show 0 < 2 by omega) (Nat.le_of_not_lt hge)
      omega
  | pairs W i =>
    cases hs
    obtain ⟨t, hW, hperm, hknown, hdone⟩ := hw
    obtain ⟨j, hl, h1, hij, hmerged⟩ := hsorting
    split
    · refine ⟨t, hW, hperm, hknown, fun hi => ⟨?_, nofun⟩⟩
      rw [hi]
      exact lastPair_start hl hperm
    · rename_i hlt
      rw [hl.pairs] at hlt hdone
      have hos := hl.merged (by omega) htmp hout hmerged
      refine ⟨t, hW, ?_, fun u hu => ?_⟩
      · have hruns : RunsPerm (2 * (W / 2)) (mergeRuns swLe (W / 2) (2 ^ j) _) xs :=
          hperm.mergeRuns (by rw [← hl.even, htmp, hl.half])
        rw [← hl.even, ← hos] at hruns
        exact hruns
      · rcases Nat.lt_succ_iff_lt_or_eq.mp hu with hu | rfl
        · exact hknown u hu
        · rw [← hW]
          exact hdone (by omega)
  | merge W i m =>
    obtain ⟨t, hW, hperm, hknown, hlast⟩ := hw
    obtain ⟨j, goal, hl, h1, hij, hinv, -⟩ := hsorting
    obtain ⟨hmid, hle, -⟩ := hlim W i m rfl
    dsimp only at hs
    split at hs
    · rename_i hdone
      cases hs
      refine ⟨t, hW, hperm, hknown, fun hlt => ?_⟩
      have hi : i = p.half / W := by
        have := hl.pairs
        omega
      exact (hlast hi).1.mp (hinv.ahead_of_done hdone)
    · obtain ⟨⟨m', mem₁, ev₁⟩, hm, hs⟩ := Option.map_eq_some_iff.mp hs
      cases hs
      obtain ⟨hm', -, -, hframe, -⟩ := mergeIn_eq_some hm
      rw [hframe (tmp h) (out_ne_tmp h h).symm]
      refine ⟨t, hW, hperm, hknown, fun hi => ?_⟩
      obtain ⟨hahead, hpick⟩ := hlast hi
      have hstop : i * W = p.half := by rw [hi, hl.pairs, hl.half, Nat.mul_comm]
      have hright : ∀ a, m.pc = .right a → m.l2 < i * W := by
        intro a hpc
        rw [hstop]
        by_contra hge
        exact hb ⟨⟨a, hpc⟩, Nat.le_of_not_lt hge⟩
      have hnext : m.next (passBounds W i) _ _ stray = (m', _) := Prod.ext hm'.symm rfl
      have hstep := hinv.ahead (show (i - 1) * W + W / 2 ≤ _ by omega) (show i * W ≤ _ by omega)
        hright hpick hnext
      exact ⟨hstep.1.trans hahead, hstep.2⟩
  | copy W k =>
    obtain ⟨t, hW, hperm, hknown⟩ := hw
    obtain ⟨j, hpassed, hk, hcopied⟩ := hsorting
    dsimp only at hs
    split at hs
    · cases hs
      exact ⟨t, hW, hperm, hknown⟩
    · cases hs
      rw [List.take_of_length_le (by omega), List.take_of_length_le (by omega)] at hcopied
      refine ⟨t + 1, by rw [hW, Nat.pow_succ, Nat.mul_assoc], ?_, hknown⟩
      rw [Nat.mul_div_cancel _ (by omega), hcopied]
      exact hperm
  | copyStore W k v =>
    obtain ⟨t, hW, hperm, hknown⟩ := hw
    obtain ⟨mem₁, hst, hs⟩ := Option.map_eq_some_iff.mp hs
    cases hs
    rw [Memory.store_arr hst (out_ne_tmp h h)]
    exact ⟨t, hW, hperm, hknown⟩
  | wait ph | transfer ph k | post ph => cases ph <;> simp at h6
  | _ => simp at h6

/-- **With all right runs ending last no load is outside.** -/
theorem Watched.not_beyond (hp : Passing p h xs s)
    (hw : Watched p xs s.1 (s.2.arr (tmp h)) (s.2.arr (out h))) (h6 : s.1.stage = 6)
    (hall : ∀ t, 32 * 2 ^ t ≤ p.half → LastPair p xs (32 * 2 ^ t)) : ¬ s.1.Beyond p := by
  obtain ⟨pc, mem⟩ := s
  have hlim := fun W i m (hpc : pc = .merge W i m) => (hpc ▸ hp).limits
  obtain ⟨-, -, -, hsorting⟩ := hp
  dsimp only at hw hsorting hlim h6
  cases pc with
  | merge W i m =>
    rintro ⟨⟨a, hpc⟩, hge⟩
    obtain ⟨t, hW, -, -, hlast⟩ := hw
    obtain ⟨j, goal, hl, h1, hij, hinv, -⟩ := hsorting
    obtain ⟨-, hle, -, hnot⟩ := hlim W i m rfl
    have hl2 : m.l2 ≤ i * W := hinv.l2_le
    by_cases hi : i = p.half / W
    · have hWle : W ≤ p.half := by
        rw [hl.half]
        exact Nat.le_mul_of_pos_right _ (Nat.two_pow_pos j)
      have hahead := (hlast hi).1.mpr (by rw [hW]; exact hall t (by omega))
      have hlt : m.l2 < i * W := hinv.lt_of_ahead hahead hpc
      omega
    · have hpos := hl.pos
      have := hnot hi
      omega
  | final i m => simp at h6
  | _ => exact id

theorem alone_watched {ok : HartPc × Memory → UInt8 → Prop}
    (hlen : ∀ a, (mem.arr a).length = p.length a)
    (hok : ∀ s stray, Passing p h (mem.arr (tmp h)) s →
      Watched p (mem.arr (tmp h)) s.1 (s.2.arr (tmp h)) (s.2.arr (out h)) → s.1.stage = 6 →
        ok s stray → ¬ s.1.Beyond p)
    (hs : (alone p h 6 (.passes 32) mem).ReachBy ok s) :
    Passing p h (mem.arr (tmp h)) s ∧
      Watched p (mem.arr (tmp h)) s.1 (s.2.arr (tmp h)) (s.2.arr (out h)) := by
  refine hs.invariant (motive := fun s => Passing p h (mem.arr (tmp h)) s ∧
    Watched p (mem.arr (tmp h)) s.1 (s.2.arr (tmp h)) (s.2.arr (out h))) ?_ ?_
  · rintro s rfl
    refine ⟨⟨hlen, trivial, Nat.le_refl 6, sorting_passed p _ _⟩, 0, rfl, RunsPerm.refl _ _, ?_⟩
    exact fun u hu => absurd hu (Nat.not_lt_zero u)
  · rintro s stray s' ⟨hp, hw⟩ hstray hn
    obtain ⟨h6, ev, hstep⟩ := alone_next.mp hn
    exact ⟨hp.next hstep, hartStep_watched hp h6 hw (hok s stray hp hw h6 hstray) hstep⟩

/-- At the end of the passes all right runs have ended last. -/
theorem Watched.all (hw : Watched p xs s.1 xs' os) (hstage : 6 ≤ s.1.stage)
    (hend : s.1.stage ≠ 6) : ∀ t, 32 * 2 ^ t ≤ p.half → LastPair p xs (32 * 2 ^ t) := by
  obtain ⟨pc, mem⟩ := s
  cases pc with
  | passes W | pairs W i | merge W i m | copy W k | copyStore W k v => simp at hend
  | _ => exact hw

/-- **The passes of a hart stay inside the arrays exactly when in every pass the right run at the
end of the array ends last.** -/
theorem passes_inBounds (hlen : ∀ a, (mem.arr a).length = p.length a) :
    InBounds p h 6 (.passes 32) mem ↔ ∀ W, p.Width W → LastPair p (mem.arr (tmp h)) W := by
  constructor
  · rintro hin W ⟨hle, t, rfl⟩
    obtain ⟨s, hs, hend⟩ : ∃ s, (alone p h 6 (.passes 32) mem).Reach s ∧ s.1.stage ≠ 6 :=
      passes_complete hlen fun _ _ => ⟨0, trivial⟩
    have hguard : (alone p h 6 (.passes 32) mem).ReachBy
        (fun s _ => s.1.stage = 6 → ¬ s.1.Beyond p) s := by
      refine hs.mono fun s _ hs _ h6 => ?_
      obtain ⟨pc', mem', ev, hstep, hev⟩ := hin s hs h6 0
      exact ((alone_passing hlen hs).inside h6 hstep).mp hev
    obtain ⟨hp, hw⟩ := alone_watched hlen (fun _ _ _ _ h6 hok => hok h6) hguard
    exact hw.all hp.stage hend t hle
  · intro hall s hs h6 stray
    have hall' : ∀ t, 32 * 2 ^ t ≤ p.half → LastPair p (mem.arr (tmp h)) (32 * 2 ^ t) :=
      fun t ht => hall _ ⟨ht, t, rfl⟩
    obtain ⟨hp, hw⟩ := alone_watched hlen (fun _ _ hp hw h6 _ => hw.not_beyond hp h6 hall') hs
    obtain ⟨⟨pc', mem', ev⟩, hstep⟩ := hartStep_of_stage hp.length hp.place (Or.inl h6) stray
    exact ⟨pc', mem', ev, hstep, (hp.inside h6 hstep).mpr (hw.not_beyond hp h6 hall')⟩

end Passes

/-! ## The final merge -/

/-- The same for `out1`. -/
def FinalWatched (p : Program) (T0 T1 : List UInt8) (pc : HartPc) : Prop :=
  match pc with
  | .finals i => i = 1 ∨ RightEndsLast T0 T1
  | .final _ m => (m.Ahead (finalBounds p 1) T0 T1 ↔ RightEndsLast T0 T1) ∧
      (m.pc = .pick true → m.l2 < p.half)
  | _ => RightEndsLast T0 T1

section Finals

variable {p : Program} {stray : UInt8} {pc' : HartPc} {mem mem' : Memory} {ev : List Event}
  {T0 T1 : List UInt8} {s : HartPc × Memory}

theorem Ending.lengths (he : Ending p T0 T1 s) : T0.length = p.half ∧ T1.length = p.half :=
  ⟨he.out0 ▸ he.length .out0, he.out1 ▸ he.length .out1⟩

theorem Ending.inside (he : Ending p T0 T1 s) (h8 : s.1.stage = 8)
    (hs : hartStep p .hart0 stray s.1 s.2 = some (pc', mem', ev)) :
    (∀ e ∈ ev, e.Inside p) ↔ ¬ s.1.Beyond p := by
  obtain ⟨hl0, hl1⟩ := he.lengths
  obtain ⟨pc, mem⟩ := s
  obtain ⟨hlen, hplace, -, rfl, rfl, hfin⟩ := he
  dsimp only at hs hlen hplace hfin hl0 hl1 h8
  have htotal : p.length .result = p.total := rfl
  unfold hartStep at hs
  cases pc with
  | finals i =>
    cases hs
    simp [HartPc.Beyond]
  | final i m =>
    obtain ⟨rfl, hinv⟩ := hfin
    dsimp only at hs
    split at hs
    · rename_i hdone
      cases hs
      simp [HartPc.Beyond, hdone]
    · obtain ⟨⟨m', mem₁, ev₁⟩, hm, hs⟩ := Option.map_eq_some_iff.mp hs
      cases hs
      rw [mergeIn_inside (p := p) hm hinv (Nat.le_refl p.half) (Nat.le_refl p.half)
        (show 1 * p.total ≤ _ by omega)]
      simp only [HartPc.Beyond, not_and, not_le, forall_exists_index]
      rfl
  | ret =>
    cases hs
    simp [HartPc.Beyond, Event.Inside]
  | wait ph | transfer ph k | post ph => cases ph <;> simp at h8
  | _ => simp at h8

theorem Ending.beyond (he : Ending p T0 T1 s) (h8 : s.1.stage = 8) (hb : s.1.Beyond p)
    (hs : hartStep p .hart0 stray s.1 s.2 = some (pc', mem', ev)) :
    ev = [.load .hart0 .out1 p.half] := by
  obtain ⟨pc, mem⟩ := s
  obtain ⟨-, -, -, -, -, hfin⟩ := he
  cases pc with
  | final i m =>
    obtain ⟨⟨a, hright⟩, hpast⟩ := hb
    obtain ⟨rfl, hinv⟩ := hfin
    have hl2 : m.l2 ≤ p.half := hinv.l2_le
    have heq : m.l2 = p.half := by omega
    simp only [hartStep, if_neg (show m.pc ≠ .done by simp [hright])] at hs
    obtain ⟨⟨m', mem₁, ev₁⟩, hm, hs⟩ := Option.map_eq_some_iff.mp hs
    cases hs
    rw [mergeIn_right hright hm, heq]
  | merge W i m => simp at h8
  | _ => exact hb.elim

/-- **One step of the final merge** that stays inside the arrays. -/
theorem hartStep_finalWatched (he : Ending p T0 T1 s) (h8 : s.1.stage = 8)
    (hw : FinalWatched p T0 T1 s.1) (hb : ¬ s.1.Beyond p)
    (hs : hartStep p .hart0 stray s.1 s.2 = some (pc', mem', ev)) :
    FinalWatched p T0 T1 pc' := by
  obtain ⟨hl0, hl1⟩ := he.lengths
  obtain ⟨pc, mem⟩ := s
  obtain ⟨-, -, -, h0, h1, hfin⟩ := he
  dsimp only at hs hw hb hfin h8 h0 h1
  have hdiv : p.total / p.total = 1 := by cases p <;> rfl
  unfold hartStep at hs
  cases pc with
  | finals i =>
    cases hs
    rw [hdiv]
    split
    · refine ⟨?_, nofun⟩
      unfold Merge.Ahead
      simp only [finalStart, finalBounds, slice_all hl0, slice_all hl1]
    · rename_i hi
      exact hw.resolve_left (by omega)
  | final i m =>
    obtain ⟨hahead, hpick⟩ := hw
    obtain ⟨rfl, hinv⟩ := hfin
    dsimp only at hs
    split at hs
    · rename_i hdone
      cases hs
      exact Or.inr (hahead.mp (hinv.ahead_of_done hdone))
    · obtain ⟨⟨m', mem₁, ev₁⟩, hm, hs⟩ := Option.map_eq_some_iff.mp hs
      cases hs
      obtain ⟨hm', -⟩ := mergeIn_eq_some hm
      rw [h0, h1] at hm'
      have hright : ∀ a, m.pc = .right a → m.l2 < p.half := by
        intro a hpc
        by_contra hge
        exact hb ⟨⟨a, hpc⟩, Nat.le_of_not_lt hge⟩
      have hnext : m.next (finalBounds p 1) _ _ stray = (m', _) := Prod.ext hm'.symm rfl
      have hstep := hinv.ahead (Nat.le_of_eq hl0.symm) (Nat.le_of_eq hl1.symm) hright hpick hnext
      exact ⟨hstep.1.trans hahead, hstep.2⟩
  | ret =>
    cases hs
    exact hw
  | wait ph | transfer ph k | post ph => cases ph <;> simp at h8
  | _ => simp at h8

theorem FinalWatched.not_beyond (he : Ending p T0 T1 s) (hw : FinalWatched p T0 T1 s.1)
    (h8 : s.1.stage = 8) (hall : RightEndsLast T0 T1) : ¬ s.1.Beyond p := by
  obtain ⟨pc, mem⟩ := s
  obtain ⟨-, -, -, -, -, hfin⟩ := he
  dsimp only at hw hfin h8
  cases pc with
  | final i m =>
    rintro ⟨⟨a, hpc⟩, hge⟩
    obtain ⟨-, hinv⟩ := hfin
    have hlt : m.l2 < p.half := hinv.lt_of_ahead (hw.1.mpr hall) hpc
    omega
  | merge W i m => simp at h8
  | _ => exact id

theorem alone_finalWatched {ok : HartPc × Memory → UInt8 → Prop}
    (hlen : ∀ a, (mem.arr a).length = p.length a)
    (hok : ∀ s stray, Ending p (mem.arr .out0) (mem.arr .out1) s →
      FinalWatched p (mem.arr .out0) (mem.arr .out1) s.1 → s.1.stage = 8 →
        ok s stray → ¬ s.1.Beyond p)
    (hs : (alone p .hart0 8 (.finals 1) mem).ReachBy ok s) :
    Ending p (mem.arr .out0) (mem.arr .out1) s ∧
      FinalWatched p (mem.arr .out0) (mem.arr .out1) s.1 := by
  refine hs.invariant (motive := fun s => Ending p (mem.arr .out0) (mem.arr .out1) s ∧
    FinalWatched p (mem.arr .out0) (mem.arr .out1) s.1) ?_ ?_
  · rintro s rfl
    exact ⟨⟨hlen, rfl, Nat.le_refl 8, rfl, rfl, Or.inl rfl⟩, Or.inl rfl⟩
  · rintro s stray s' ⟨he, hw⟩ hstray hn
    obtain ⟨h8, ev, hstep⟩ := alone_next.mp hn
    exact ⟨he.next hstep, hartStep_finalWatched he h8 hw (hok s stray he hw h8 hstray) hstep⟩

/-- **The final merge stays inside the arrays exactly when `out1` ends last.** -/
theorem finals_inBounds (hlen : ∀ a, (mem.arr a).length = p.length a) :
    InBounds p .hart0 8 (.finals 1) mem ↔ RightEndsLast (mem.arr .out0) (mem.arr .out1) := by
  constructor
  · intro hin
    obtain ⟨s, hs, hend⟩ : ∃ s, (alone p .hart0 8 (.finals 1) mem).Reach s ∧ s.1.stage ≠ 8 :=
      finals_complete hlen fun _ _ => ⟨0, trivial⟩
    have hguard : (alone p .hart0 8 (.finals 1) mem).ReachBy
        (fun s _ => s.1.stage = 8 → ¬ s.1.Beyond p) s := by
      refine hs.mono fun s _ hs _ h8 => ?_
      obtain ⟨pc', mem', ev, hstep, hev⟩ := hin s hs h8 0
      exact ((alone_ending hlen hs).inside h8 hstep).mp hev
    obtain ⟨he, hw⟩ := alone_finalWatched hlen (fun _ _ _ _ h8 hok => hok h8) hguard
    have hstage := he.stage
    cases hpc : s.1 with
    | finals i | final i m => rw [hpc] at hend; simp at hend
    | _ => rw [hpc] at hw; exact hw
  · intro hall s hs h8 stray
    obtain ⟨he, hw⟩ := alone_finalWatched hlen (fun _ _ he hw h8 _ => hw.not_beyond he h8 hall) hs
    obtain ⟨⟨pc', mem', ev⟩, hstep⟩ := hartStep_of_stage he.length he.place (Or.inr h8) stray
    exact ⟨pc', mem', ev, hstep, (he.inside h8 hstep).mpr (hw.not_beyond he h8 hall)⟩

end Finals

/-- **The merges read inside their arrays exactly when no right run at the end of an array is
exhausted before its left run**: in the passes of both harts over `tmp0` and `tmp1`, and in the
final merge of `out0` and `out1`. -/
theorem merges_inBounds_iff (p : Program) (mem : Memory)
    (hlen : ∀ a, (mem.arr a).length = p.length a) :
    ((∀ h, InBounds p h 6 (.passes 32) mem) ∧ InBounds p .hart0 8 (.finals 1) mem) ↔
      (∀ h W, p.Width W → LastPair p (mem.arr (tmp h)) W) ∧
        RightEndsLast (mem.arr .out0) (mem.arr .out1) := by
  rw [finals_inBounds hlen]
  simp only [passes_inBounds hlen]

/-- Zeros before ones in every array that is merged. -/
def zerosThenOnes : Memory where
  arr
    | .tmp0 | .tmp1 => List.replicate 16 0 ++ List.replicate 16 1
    | .out0 => List.replicate 32 0
    | .out1 => List.replicate 32 1
    | .in | .result => List.replicate 64 0
  word _ := 0

/-- Over these arrays the merges of `main.cpp` stay inside. -/
theorem merges_inBounds_zerosThenOnes : (∀ h, InBounds .main h 6 (.passes 32) zerosThenOnes) ∧
    InBounds .main .hart0 8 (.finals 1) zerosThenOnes := by
  refine (merges_inBounds_iff .main zerosThenOnes (fun a => by cases a <;> rfl)).mpr ⟨?_, ?_⟩
  · rintro h W ⟨hle, t, rfl⟩
    have hpos := Nat.two_pow_pos t
    have hle : 32 * 2 ^ t ≤ 32 := hle
    have hW : 32 * 2 ^ t = 32 := by omega
    rw [hW]
    unfold LastPair RightEndsLast
    cases h <;> decide +kernel
  · unfold RightEndsLast
    decide +kernel

/-- Arrays of zeros. -/
def Memory.zero (p : Program) : Memory :=
  ⟨fun a => List.replicate (p.length a) 0, fun _ => 0⟩

/-- The two blocks of `tmp0` as the PEs may deliver them: sixteen ones, then sixteen zeros. -/
def onesThenZeros : Memory :=
  (Memory.zero .main).setArr .tmp0 (List.replicate 16 1 ++ List.replicate 16 0)

/-- Hart 0 of `main.cpp` exhausts the right block first and compares with `tmp0[32]`. -/
theorem tmp0_read_past_end :
    (∀ a, (onesThenZeros.arr a).length = Program.main.length a) ∧
      (∀ k < Program.main.half / 16,
        (slice (onesThenZeros.arr .tmp0) (16 * k) (16 * k + 16)).Pairwise (· ≤ ·)) ∧
      (∃ s, (alone .main .hart0 6 (.passes 32) onesThenZeros).Reach s ∧
        ∃ pc' mem', hartStep .main .hart0 0 s.1 s.2 = some (pc', mem', [.load .hart0 .tmp0 32])) ∧
      ¬ InBounds .main .hart0 6 (.passes 32) onesThenZeros := by
  have hrun : ((alone .main .hart0 6 (.passes 32) onesThenZeros).exec (.passes 32, onesThenZeros)
      (List.replicate 84 0)).map (fun s => (s.1.stage,
        (hartStep .main .hart0 0 s.1 s.2).map fun r => r.2.2)) =
      some (6, some [.load .hart0 .tmp0 32]) := by decide +kernel
  obtain ⟨s, hs, hev⟩ := Option.map_eq_some_iff.mp hrun
  have h6 : s.1.stage = 6 := congrArg Prod.fst hev
  have hreach : (alone .main .hart0 6 (.passes 32) onesThenZeros).Reach s :=
    Machine.reach_exec (.init rfl) hs
  obtain ⟨⟨pc', mem', ev⟩, hstep, hload⟩ := Option.map_eq_some_iff.mp (congrArg Prod.snd hev)
  dsimp only at hload
  subst hload
  refine ⟨fun a => by cases a <;> rfl, by decide, ⟨s, hreach, pc', mem', hstep⟩, fun hin => ?_⟩
  obtain ⟨pc₁, mem₁, ev₁, hstep₁, hinside⟩ := hin s hreach h6 0
  rw [hstep] at hstep₁
  cases hstep₁
  have hlt : 32 < Program.main.length .tmp0 := hinside _ (List.mem_singleton_self _)
  exact absurd hlt (by decide)

end SortPlatform.Sw

import SortPlatform.Sw.Harts

/-!
# What the passes and the final merge compute

A hart whose passes start on ascending blocks of sixteen ends them with the ascending
rearrangement in its `out` array; the final merge puts the rearrangement of both into `result`.
The facts hold at every place inside the loops, whatever the stray bytes.

* `Sorting p T pc xs os` — the hart at `pc` with `tmp = xs` and `out = os` is on its way to
  `out = T`.
* `Finishing p T0 T1 pc res` — hart 0 at `pc` is on its way to `result = T0.merge T1`.

Principal results: `hartStep_sorting` and `hartStep_finishing` (one step keeps them).
-/

set_option autoImplicit false

namespace SortPlatform.Sw

open RunMerge

/-! ## The invariants of the loops -/

/-- `2 ^ j` pairs of runs of width `W / 2` make up the array, and the passes from here on lead
to `T`. -/
structure Level (p : Program) (T : List UInt8) (W j : Nat) (xs : List UInt8) : Prop where
  pos : 0 < W / 2
  even : W = 2 * (W / 2)
  half : p.half = W * 2 ^ j
  goal : bottomUp swLe (j + 1) (W / 2) xs = T

/-- After the pass: runs of width `W` in `os`. -/
structure Passed (p : Program) (T : List UInt8) (W j : Nat) (os : List UInt8) : Prop where
  pos : 0 < W
  half : p.half = W * 2 ^ j
  goal : bottomUp swLe j W os = T

def Sorting (p : Program) (T : List UInt8) (pc : HartPc) (xs os : List UInt8) : Prop :=
  match pc with
  | .passes W => (∃ j, Level p T W j xs) ∨ (p.half < W ∧ os = T)
  | .pairs W i => ∃ j, Level p T W j xs ∧ 1 ≤ i ∧ i ≤ 2 ^ j + 1 ∧
      os.take ((i - 1) * W) ++ mergeRuns swLe (W / 2) (2 ^ j - (i - 1)) (xs.drop ((i - 1) * W)) =
        mergeRuns swLe (W / 2) (2 ^ j) xs
  | .merge W i m => ∃ j goal, Level p T W j xs ∧ 1 ≤ i ∧ i ≤ 2 ^ j ∧
      m.Inv (passBounds W i) xs xs os goal ∧
      goal ++ mergeRuns swLe (W / 2) (2 ^ j - i) (xs.drop (i * W)) =
        mergeRuns swLe (W / 2) (2 ^ j) xs
  | .copy W k => ∃ j, Passed p T W j os ∧ k ≤ p.half ∧ xs.take k = os.take k
  | .copyStore W k v => ∃ j, Passed p T W j os ∧ k < p.half ∧ xs.take k = os.take k ∧
      os[k]? = some v
  | pc => 7 ≤ pc.stage → os = T

/-- The final merge. -/
def Finishing (p : Program) (T0 T1 : List UInt8) (pc : HartPc) (res : List UInt8) : Prop :=
  match pc with
  | .finals i => i = 1 ∨ (i = 2 ∧ res = T0.merge T1 swLe)
  | .final i m => i = 1 ∧ m.Inv (finalBounds p 1) T0 T1 res (T0.merge T1 swLe)
  | pc => 8 ≤ pc.stage → res = T0.merge T1 swLe

variable {p : Program} {T : List UInt8} {xs os : List UInt8} {W i j k : Nat}

theorem Level.pairs (h : Level p T W j xs) : p.half / W = 2 ^ j := by
  have hW : 0 < W := by have := h.pos; omega
  rw [h.half, Nat.mul_div_cancel_left _ hW]

theorem Passed.next (h : Passed p T W j os) :
    (∃ j, Level p T (W * 2) j os) ∨ (p.half < W * 2 ∧ os = T) := by
  obtain ⟨hpos, hhalf, hgoal⟩ := h
  have hW : W * 2 / 2 = W := Nat.mul_div_cancel _ (by omega)
  cases j with
  | zero => exact Or.inr ⟨by omega, hgoal⟩
  | succ j =>
    refine Or.inl ⟨j, by omega, by omega, ?_, ?_⟩
    · rw [hhalf, Nat.pow_succ, Nat.mul_comm (2 ^ j) 2, Nat.mul_assoc]
    · rw [hW]
      exact hgoal

/-- The pass leaves its runs to the next. -/
theorem Level.passed (h : Level p T W j xs) (hos : os = mergeRuns swLe (W / 2) (2 ^ j) xs) :
    Passed p T W j os := by
  obtain ⟨hpos, heven, hhalf, hgoal⟩ := h
  refine ⟨by omega, hhalf, ?_⟩
  rw [bottomUp, ← heven, ← hos] at hgoal
  exact hgoal

/-- **The invariant at the start of a pair of runs.** -/
theorem Level.start (h : Level p T W j xs) (hi : 1 ≤ i) (hi' : i ≤ 2 ^ j)
    (hmerged : os.take ((i - 1) * W) ++
      mergeRuns swLe (W / 2) (2 ^ j - (i - 1)) (xs.drop ((i - 1) * W)) =
        mergeRuns swLe (W / 2) (2 ^ j) xs) :
    ∃ goal, (passStart W i).Inv (passBounds W i) xs xs os goal ∧
      goal ++ mergeRuns swLe (W / 2) (2 ^ j - i) (xs.drop (i * W)) =
        mergeRuns swLe (W / 2) (2 ^ j) xs := by
  have hW := h.even
  obtain ⟨i, rfl⟩ := Nat.exists_eq_add_of_le' hi
  have hstop : (i + 1) * W = i * W + W := Nat.succ_mul i W
  simp only [Nat.add_sub_cancel] at hmerged ⊢
  refine ⟨os.take (i * W) ++ (slice xs (i * W) (i * W + W / 2)).merge
    (slice xs (i * W + W / 2) (i * W + W / 2 + W / 2)) swLe, ⟨?_, ?_, ?_, ?_, ?_⟩, ?_⟩
  · simp [passStart, passBounds]
  · simp only [passStart, passBounds, Nat.add_sub_cancel]
    omega
  · simp only [passStart, passBounds, Nat.add_sub_cancel]
    omega
  · simp only [Merge.Local, passStart, passBounds, Nat.add_sub_cancel]
    omega
  · simp only [Merge.rest, Merge.carried, passStart, passBounds, Nat.add_sub_cancel,
      List.nil_append]
    rw [show i * W + W / 2 + W / 2 = (i + 1) * W by omega]
  · rw [← hmerged, show 2 ^ j - i = (2 ^ j - (i + 1)) + 1 by omega, mergeRuns, List.append_assoc,
      slice_eq_take_drop, slice_eq_take_drop, List.drop_drop, List.drop_drop, ← hW, hstop]

/-- When no pair is left, `out` holds the whole pass. -/
theorem Level.merged (h : Level p T W j xs) (hi : i = 2 ^ j + 1) (hxs : xs.length = p.half)
    (hos : os.length = p.half)
    (hmerged : os.take ((i - 1) * W) ++
      mergeRuns swLe (W / 2) (2 ^ j - (i - 1)) (xs.drop ((i - 1) * W)) =
        mergeRuns swLe (W / 2) (2 ^ j) xs) :
    os = mergeRuns swLe (W / 2) (2 ^ j) xs := by
  have hhalf := h.half
  subst hi
  rw [Nat.add_sub_cancel, Nat.sub_self, mergeRuns, Nat.mul_comm, ← hhalf,
    List.take_of_length_le (by omega), List.drop_of_length_le (by omega), List.append_nil] at hmerged
  exact hmerged

theorem sorting_of_le {pc : HartPc} (hstage : 7 ≤ pc.stage) :
    Sorting p T pc xs os ↔ os = T := by
  cases pc with
  | passes W | pairs W i | merge W i m | copy W k | copyStore W k v => simp at hstage
  | _ => exact ⟨fun h => h hstage, fun h _ => h⟩

/-! ## All passes -/

/-- `half = 32 * 2 ^ level`. -/
def Program.level : Program → Nat
  | .main => 0
  | .main128 => 1

theorem Program.half_eq (p : Program) : p.half = 32 * 2 ^ p.level := by
  cases p <;> rfl

/-- What the passes make of `tmp`. -/
def Program.passed (p : Program) (xs : List UInt8) : List UInt8 := bottomUp swLe (p.level + 1) 16 xs

theorem sorting_passed (p : Program) (xs os : List UInt8) :
    Sorting p (p.passed xs) (.passes 32) xs os :=
  Or.inl ⟨p.level, by decide, by decide, p.half_eq, rfl⟩

/-- **Sorted blocks become one sorted list.** -/
theorem passed_eq_mergeSort {p : Program} {xs ys : List UInt8} (hx : xs.length = p.half)
    (hy : ys.length = p.half) (hblocks : ∀ k < p.half / 16,
      slice xs (16 * k) (16 * k + 16) = (slice ys (16 * k) (16 * k + 16)).mergeSort) :
    p.passed xs = ys.mergeSort := by
  have hhalf := p.half_eq
  have hpow : 2 ^ (p.level + 1) = 2 * 2 ^ p.level := by rw [Nat.pow_succ, Nat.mul_comm]
  obtain ⟨hruns, hperm⟩ := sortedRuns_of_blocks (2 ^ (p.level + 1)) ys xs (by omega) (by omega)
    fun k hk => hblocks k (by omega)
  refine eq_mergeSort ?_ ((bottomUp_perm (p.level + 1) 16 xs).trans hperm)
  exact bottomUp_sorted picksLeast_lt (p.level + 1) 16 xs (by omega) hruns

/-- Ascending blocks become one ascending list. -/
theorem passed_sorted {p : Program} {xs : List UInt8} (hlen : xs.length = p.half)
    (hblocks : ∀ k < p.half / 16, (slice xs (16 * k) (16 * k + 16)).Pairwise (· ≤ ·)) :
    (p.passed xs).Pairwise (· ≤ ·) := by
  rw [passed_eq_mergeSort hlen hlen fun k hk => eq_mergeSort (hblocks k hk) (List.Perm.refl _)]
  exact mergeSort_sorted xs

theorem passed_perm (p : Program) (xs : List UInt8) : (p.passed xs).Perm xs :=
  bottomUp_perm (p.level + 1) 16 xs

/-! ## Steps -/

section Step

variable {h : Hart} {stray : UInt8} {pc pc' : HartPc} {mem mem' : Memory} {ev : List Event}

theorem out_ne_tmp (g h : Hart) : out g ≠ tmp h := by
  cases g <;> cases h <;> simp [out, tmp]

/-- A step of a merge keeps its invariant. -/
theorem mergeIn_inv {x y o : Arr} {b : Bounds} {m m' : Merge} {goal : List UInt8}
    (hs : mergeIn h x y o b stray m mem = some (m', mem', ev))
    (hi : m.Inv b (mem.arr x) (mem.arr y) (mem.arr o) goal) (hx : b.mid ≤ (mem.arr x).length)
    (hy : b.stop ≤ (mem.arr y).length) (ho : b.last ≤ (mem.arr o).length) :
    m'.Inv b (mem.arr x) (mem.arr y) (mem'.arr o) goal := by
  unfold mergeIn at hs
  split at hs <;> rename_i heq <;> have hnext := hi.next hx hy ho stray heq
  · cases hs
    exact hnext
  · cases hs
    exact hnext
  · cases hs
    exact hnext
  · obtain ⟨mem₁, hst, hs⟩ := Option.map_eq_some_iff.mp hs
    cases hs
    obtain ⟨-, rfl⟩ := Memory.store_eq_some.mp hst
    rw [Memory.setArr_arr, Function.update_self]
    exact hnext

/-- **One step of a hart in its passes.** -/
theorem hartStep_sorting (hlen : ∀ a, (mem.arr a).length = p.length a)
    (hd : Sorting p T pc (mem.arr (tmp h)) (mem.arr (out h))) (hstage : 6 ≤ pc.stage)
    (hs : hartStep p h stray pc mem = some (pc', mem', ev)) :
    Sorting p T pc' (mem'.arr (tmp h)) (mem'.arr (out h)) := by
  have hout : (mem.arr (out h)).length = p.half := (hlen _).trans (length_out p h)
  have htmp : (mem.arr (tmp h)).length = p.half := (hlen _).trans (length_tmp p h)
  rcases Nat.eq_or_lt_of_le hstage with h6 | h7
  · unfold hartStep at hs
    cases pc with
    | passes W =>
      cases hs
      split
      · rename_i hW
        rcases hd with ⟨j, hl⟩ | ⟨hlt, -⟩
        · exact ⟨j, hl, Nat.le_refl 1, Nat.le_add_left 1 _, by simp⟩
        · omega
      · rename_i hW
        rcases hd with ⟨j, hl⟩ | ⟨-, heq⟩
        · refine absurd ?_ hW
          rw [hl.half]
          exact Nat.le_mul_of_pos_right _ (Nat.two_pow_pos j)
        · exact fun _ => heq
    | pairs W i =>
      cases hs
      obtain ⟨j, hl, h1, hle, hmerged⟩ := hd
      rw [hl.pairs]
      split
      · rename_i hij
        obtain ⟨goal, hinv, hgoal⟩ := hl.start h1 hij hmerged
        exact ⟨j, goal, hl, h1, hij, hinv, hgoal⟩
      · -- all pairs are merged
        rename_i hij
        have hos := hl.merged (by omega) htmp hout hmerged
        exact ⟨j, hl.passed hos, Nat.zero_le _, rfl⟩
    | merge W i m =>
      obtain ⟨j, goal, hl, h1, hij, hinv, hgoal⟩ := hd
      have hlast : i * W ≤ p.half := by
        rw [hl.half, Nat.mul_comm]
        exact Nat.mul_le_mul_left W hij
      dsimp only at hs
      split at hs
      · rename_i hdone
        cases hs
        refine ⟨j, hl, by omega, by omega, ?_⟩
        rw [Nat.add_sub_cancel]
        have htake : (mem.arr (out h)).take (i * W) = goal := hinv.done hdone
        rw [htake]
        exact hgoal
      · obtain ⟨⟨m', mem₁, ev₁⟩, hm, hs⟩ := Option.map_eq_some_iff.mp hs
        cases hs
        have hmid : (i - 1) * W + W / 2 ≤ i * W := by
          obtain ⟨i, rfl⟩ := Nat.exists_eq_add_of_le' h1
          have := hl.even
          rw [Nat.add_sub_cancel, Nat.succ_mul]
          omega
        have hinv' := mergeIn_inv hm hinv (show (i - 1) * W + W / 2 ≤ _ by omega)
          (show i * W ≤ _ by omega) (show i * W ≤ _ by omega)
        obtain ⟨-, -, -, hframe, -⟩ := mergeIn_eq_some hm
        rw [hframe (tmp h) (out_ne_tmp h h).symm]
        exact ⟨j, goal, hl, h1, hij, hinv', hgoal⟩
    | copy W k =>
      obtain ⟨j, hp, hk, hcopied⟩ := hd
      dsimp only at hs
      split at hs
      · rename_i hlt
        cases hs
        exact ⟨j, hp, hlt, hcopied, load_eq (by omega) stray⟩
      · cases hs
        rw [List.take_of_length_le (by omega), List.take_of_length_le (by omega)] at hcopied
        rw [hcopied]
        exact hp.next
    | copyStore W k v =>
      obtain ⟨j, hp, hk, hcopied, hv⟩ := hd
      obtain ⟨mem₁, hst, hs⟩ := Option.map_eq_some_iff.mp hs
      cases hs
      obtain ⟨-, rfl⟩ := Memory.store_eq_some.mp hst
      rw [Memory.setArr_arr, Function.update_self, Function.update_of_ne (out_ne_tmp h h)]
      refine ⟨j, hp, hk, ?_⟩
      rw [take_set_succ (by omega), List.take_add_one, hcopied, hv]
      rfl
    | wait ph | transfer ph k | post ph => cases ph <;> simp at h6
    | _ => simp at h6
  · have hm := hartStep_move hs
    have hstage' := hm.stage_le
    rw [sorting_of_le h7] at hd
    rw [sorting_of_le (by omega), ← hd]
    rcases hm.arr (out h) with heq | ⟨h6, -⟩ | ⟨-, hres⟩
    · exact heq
    · omega
    · cases h <;> cases hres

theorem slice_all {xs : List UInt8} {n : Nat} (h : xs.length = n) : slice xs 0 n = xs := by
  unfold slice
  rw [List.drop_zero, List.take_of_length_le (by omega)]

/-- The invariant at the start of the final merge. -/
theorem finalStart_inv {T0 T1 res : List UInt8} (h0 : T0.length = p.half)
    (h1 : T1.length = p.half) :
    finalStart.Inv (finalBounds p 1) T0 T1 res (T0.merge T1 swLe) := by
  refine ⟨Nat.zero_le _, Nat.zero_le _, Nat.zero_le _, ?_, ?_⟩
  · have := p.total_eq
    simp only [Merge.Local, finalStart, finalBounds]
    omega
  · simp only [Merge.rest, Merge.carried, finalStart, finalBounds, slice_all h0, slice_all h1]
    rfl

/-- **One step of hart 0 behind the barrier.** -/
theorem hartStep_finishing {T0 T1 : List UInt8} (hlen : ∀ a, (mem.arr a).length = p.length a)
    (hout : 8 ≤ pc.stage → mem.arr .out0 = T0 ∧ mem.arr .out1 = T1)
    (hd : Finishing p T0 T1 pc (mem.arr .result)) (hstage : 7 ≤ pc.stage)
    (hs : hartStep p .hart0 stray pc mem = some (pc', mem', ev)) :
    Finishing p T0 T1 pc' (mem'.arr .result) := by
  have hl0 : 8 ≤ pc.stage → T0.length = p.half := fun h8 => (hout h8).1 ▸ hlen .out0
  have hl1 : 8 ≤ pc.stage → T1.length = p.half := fun h8 => (hout h8).2 ▸ hlen .out1
  have hres : (mem.arr .result).length = p.total := hlen .result
  have htotal := p.total_eq
  have hdiv : p.total / p.total = 1 := by cases p <;> rfl
  unfold hartStep at hs
  cases pc with
  | barrier b =>
    dsimp only at hs
    split at hs
    · cases hs
      exact Or.inl rfl
    · obtain ⟨r, -, hs⟩ := Option.map_eq_some_iff.mp hs
      cases hs
      exact fun h8 => absurd h8 (by simp)
  | finals i =>
    cases hs
    rw [hdiv]
    rcases hd with rfl | ⟨rfl, heq⟩
    · exact ⟨rfl, finalStart_inv (hl0 (by simp)) (hl1 (by simp))⟩
    · exact fun _ => heq
  | final i m =>
    obtain ⟨rfl, hinv⟩ := hd
    dsimp only at hs
    split at hs
    · rename_i hdone
      cases hs
      have htake : (mem.arr .result).take (1 * p.total) = T0.merge T1 swLe := hinv.done hdone
      rw [List.take_of_length_le (by omega)] at htake
      exact Or.inr ⟨rfl, htake⟩
    · obtain ⟨⟨m', mem₁, ev₁⟩, hm, hs⟩ := Option.map_eq_some_iff.mp hs
      cases hs
      have h0 := hl0 (by simp)
      have h1 := hl1 (by simp)
      obtain ⟨rfl, rfl⟩ := hout (by simp)
      exact ⟨rfl, mergeIn_inv hm hinv (Nat.le_of_eq h0.symm) (Nat.le_of_eq h1.symm)
        (show 1 * p.total ≤ _ by omega)⟩
  | ret | amoadd | sysExit =>
    cases hs
    exact fun _ => hd (by simp)
  | spin a0 =>
    dsimp only at hs
    split at hs <;> cases hs
    exact fun _ => hd (by simp)
  | exited => cases hs
  | wait ph | transfer ph k | post ph => cases ph <;> simp at hstage
  | _ => simp at hstage

/-! ### From one part to the next -/

/-- The passes begin after the reads. -/
theorem Move.begin_passes (hm : Move p h mem pc pc' mem' ev) (hlt : pc.stage < 6)
    (hle : 6 ≤ pc'.stage) : pc = .post .read ∧ pc' = .passes 32 ∧ mem'.arr = mem.arr := by
  cases hm with
  | @post ph =>
    cases ph with
    | write => simp [Phase.next] at hle
    | read => exact ⟨rfl, rfl, rfl⟩
  | @wait ph | @dmaStore ph | @sent ph => cases ph <;> simp at hle
  | pass hpc | final hpc => omega
  | _ => simp at hlt hle

/-- A hart comes to the barrier before it gets past it. -/
theorem Move.enter_barrier (hm : Move p h mem pc pc' mem' ev) (hlt : pc.stage < 7)
    (hle : 7 ≤ pc'.stage) : pc'.stage = 7 := by
  cases hm with
  | enter => rfl
  | @wait ph | @dmaStore ph | @sent ph => cases ph <;> simp at hle
  | @post ph => cases ph <;> simp [Phase.next] at hle
  | pass | final => omega
  | _ => simp at hlt hle

/-- Hart 1 leaves `result` alone. -/
theorem hartStep_result (hp : Place p .hart1 pc)
    (hs : hartStep p .hart1 stray pc mem = some (pc', mem', ev)) :
    mem'.arr .result = mem.arr .result := by
  rcases (hartStep_move hs).arr .result with heq | ⟨-, ha⟩ | ⟨h8, -⟩
  · exact heq
  · rcases ha with ha | ha <;> cases ha
  · cases pc with
    | ret =>
      cases hs
      rfl
    | finals i => cases (show Hart.hart1 = .hart0 from hp)
    | final i m => cases (show Hart.hart1 = .hart0 from hp.1)
    | wait ph | transfer ph k | post ph => cases ph <;> simp at h8
    | _ => simp at h8

end Step

end SortPlatform.Sw

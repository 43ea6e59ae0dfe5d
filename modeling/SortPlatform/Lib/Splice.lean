import Mathlib.Logic.Function.Basic
import SortPlatform.Lib.RunMerge

/-!
# Overwriting and copying parts of a list

* `splice` — a list with the elements from an index on replaced.
* `blockAt` — the blocks of a list, and how overwriting changes them.
* `copy` — a part of a list copied to another place, as if through a buffer.
* `copyBlocks` — the same in blocks, in ascending order.

Principal result: `copyBlocks_eq_copy_iff` — for which overlaps the blocks do no harm.
-/

set_option autoImplicit false

namespace Splice

open RunMerge

variable {α : Type*}

/-! ## Overwriting -/

/-- `xs` with the elements from index `off` on replaced by `bs`. -/
def splice (xs : List α) (off : Nat) (bs : List α) : List α :=
  xs.take off ++ bs ++ xs.drop (off + bs.length)

variable {xs bs : List α} {off : Nat}

theorem splice_length (h : off + bs.length ≤ xs.length) : (splice xs off bs).length = xs.length := by
  simp only [splice, List.length_append, List.length_take, List.length_drop]
  omega

theorem getElem?_splice (h : off + bs.length ≤ xs.length) (i : Nat) :
    (splice xs off bs)[i]? = if off ≤ i ∧ i < off + bs.length then bs[i - off]? else xs[i]? := by
  have htake : (xs.take off).length = off := by rw [List.length_take]; omega
  rw [splice, List.append_assoc, List.getElem?_append, htake]
  by_cases h1 : i < off
  · rw [if_pos h1, if_neg (by omega), List.getElem?_take_of_lt h1]
  · rw [if_neg h1, List.getElem?_append]
    by_cases h2 : i - off < bs.length
    · rw [if_pos h2, if_pos (by omega)]
    · rw [if_neg h2, if_neg (by omega), List.getElem?_drop]
      congr 1
      omega

theorem take_splice_zero (xs bs : List α) : (splice xs 0 bs).take bs.length = bs := by
  simp [splice]

theorem getElem?_slice (xs : List α) (a b i : Nat) :
    (slice xs a b)[i]? = if a + i < b then xs[a + i]? else none := by
  unfold slice
  grind

@[simp] theorem splice_nil (xs : List α) (off : Nat) : splice xs off [] = xs := by
  simp [splice]

theorem splice_all (h : xs.length ≤ bs.length) : splice xs 0 bs = bs := by
  unfold splice
  rw [List.drop_of_length_le (by omega), List.append_nil, List.take_zero, List.nil_append]

/-! ## Blocks -/

/-- The `j`-th block of `w` elements, or what there is of it. -/
def blockAt (w : Nat) (xs : List α) (j : Nat) : List α := slice xs (j * w) (j * w + w)

theorem getElem?_blockAt (w : Nat) (xs : List α) (j i : Nat) :
    (blockAt w xs j)[i]? = if i < w then xs[j * w + i]? else none := by
  rw [blockAt, getElem?_slice]
  split
  · rw [if_pos (by omega)]
  · rw [if_neg (by omega)]

theorem blockAt_length (w : Nat) (xs : List α) (j : Nat) :
    (blockAt w xs j).length = min w (xs.length - j * w) := by
  simp only [blockAt, slice, List.length_drop, List.length_take]
  omega

/-- Overwriting a part of a block is seen in that block only. -/
theorem blockAt_splice {w : Nat} {j : Nat} (hw : bs.length ≤ w)
    (h : j * w + bs.length ≤ xs.length) :
    blockAt w (splice xs (j * w) bs) =
      Function.update (blockAt w xs) j (splice (blockAt w xs j) 0 bs) := by
  funext k
  apply List.ext_getElem?
  intro i
  rw [getElem?_blockAt, getElem?_splice h]
  by_cases hk : k = j
  · subst hk
    have hlen := blockAt_length w xs k
    rw [Function.update_self, getElem?_splice (by omega), getElem?_blockAt, Nat.zero_add]
    by_cases hi : i < bs.length
    · rw [if_pos (by omega), if_pos (by omega), if_pos (by omega)]
      congr 1
      omega
    · rw [if_neg (show ¬ (k * w ≤ k * w + i ∧ k * w + i < k * w + bs.length) by omega),
        if_neg (show ¬ (0 ≤ i ∧ i < bs.length) by omega)]
  · rw [Function.update_of_ne hk, getElem?_blockAt]
    by_cases hi : i < w
    · rw [if_pos hi, if_pos hi, if_neg]
      rcases Nat.lt_or_gt_of_ne hk with hlt | hgt
      · have := Nat.mul_le_mul_right w (Nat.succ_le_of_lt hlt)
        rw [Nat.succ_mul] at this
        omega
      · have := Nat.mul_le_mul_right w (Nat.succ_le_of_lt hgt)
        rw [Nat.succ_mul] at this
        omega
    · rw [if_neg hi, if_neg hi]

/-! ## Copying -/

/-- `memmove` -/
def copy (src dst n : Nat) (xs : List α) : List α := splice xs dst (slice xs src (src + n))

variable {src dst n : Nat}

theorem copy_length (hs : src + n ≤ xs.length) (hd : dst + n ≤ xs.length) :
    (copy src dst n xs).length = xs.length :=
  splice_length (by rw [slice_length hs]; omega)

theorem getElem?_copy (hs : src + n ≤ xs.length) (hd : dst + n ≤ xs.length) (i : Nat) :
    (copy src dst n xs)[i]? = if dst ≤ i ∧ i < dst + n then xs[src + (i - dst)]? else xs[i]? := by
  have hlen : (slice xs src (src + n)).length = n := by rw [slice_length hs]; omega
  rw [copy, getElem?_splice (by omega), hlen, getElem?_slice]
  split
  · rw [if_pos (by omega)]
  · rfl

/-- `n` elements from offset `off` on, in blocks of `k`. -/
def copyBlocks (k src dst off n : Nat) (xs : List α) : List α :=
  if 0 < k ∧ k < n then
    copyBlocks k src dst (off + k) (n - k) (copy (src + off) (dst + off) k xs)
  else copy (src + off) (dst + off) n xs
termination_by n

variable {k : Nat}

/-- **Blocks do no harm** when the destination lies below the source, or beyond its end. -/
theorem getElem?_copyBlocks (hover : dst ≤ src ∨ src + (off + n) ≤ dst) (hs : src + (off + n) ≤ xs.length)
    (hd : dst + (off + n) ≤ xs.length) (i : Nat) :
    (copyBlocks k src dst off n xs)[i]? =
      if dst + off ≤ i ∧ i < dst + (off + n) then xs[src + (i - dst)]? else xs[i]? := by
  induction off, n, xs using copyBlocks.induct k src dst with
  | case1 off n xs hk ih =>
    have hlen := @copy_length _ xs (src + off) (dst + off) k (by omega) (by omega)
    have hget := @getElem?_copy _ xs (src + off) (dst + off) k (by omega) (by omega)
    rw [copyBlocks, if_pos hk, ih (by omega) (by omega) (by omega), hget, hget]
    by_cases h1 : dst + (off + k) ≤ i ∧ i < dst + (off + k + (n - k))
    · rw [if_pos h1, if_neg (by omega), if_pos (by omega)]
    · rw [if_neg h1]
      by_cases h2 : dst + off ≤ i ∧ i < dst + off + k
      · rw [if_pos h2, if_pos (by omega)]
        congr 1
        omega
      · rw [if_neg h2, if_neg (by omega)]
  | case2 off n xs hk =>
    rw [copyBlocks, if_neg hk, getElem?_copy (by omega) (by omega)]
    by_cases h1 : dst + off ≤ i ∧ i < dst + off + n
    · rw [if_pos h1, if_pos (by omega)]
      congr 1
      omega
    · rw [if_neg h1, if_neg (by omega)]

/-- Copying does not bring in anything new. -/
theorem mem_copy {x : α} (h : x ∈ copy src dst n xs) : x ∈ xs := by
  unfold copy splice at h
  rcases List.mem_append.mp h with h | h
  · rcases List.mem_append.mp h with h | h
    · exact List.mem_of_mem_take h
    · exact List.mem_of_mem_take (List.mem_of_mem_drop h)
  · exact List.mem_of_mem_drop h

theorem mem_copyBlocks {x : α} (h : x ∈ copyBlocks k src dst off n xs) : x ∈ xs := by
  induction off, n, xs using copyBlocks.induct k src dst with
  | case1 off n xs hk ih =>
    rw [copyBlocks, if_pos hk] at h
    exact mem_copy (ih h)
  | case2 off n xs hk =>
    rw [copyBlocks, if_neg hk] at h
    exact mem_copy h

/-- **A destination above the source that overlaps it**: a second block reads what the first one
has written, and an element of the source is lost. -/
theorem exists_lost {x y : α} (hxy : x ≠ y) {m : Nat} (hk : 0 < k) (hkn : k < n)
    (hlt : src < dst) (hover : dst < src + n) (hd : dst + n ≤ m) :
    ∃ xs : List α, xs.length = m ∧ copyBlocks k src dst 0 n xs ≠ copy src dst n xs := by
  -- the element that the first block overwrites before the second one reads it
  have ⟨o, ho1, ho2, ho3, ho4⟩ : ∃ o, k ≤ o ∧ o < n ∧ dst ≤ src + o ∧ src + o < dst + k := by
    by_cases hkd : k ≤ dst - src
    · exact ⟨dst - src, by omega, by omega, by omega, by omega⟩
    · exact ⟨k, by omega, by omega, by omega, by omega⟩
  have hget : ∀ i, ((List.replicate m x).set (src + o) y)[i]? = some y → i = src + o := by
    intro i hi
    by_contra hne
    rw [List.getElem?_set_ne (Ne.symm hne)] at hi
    exact hxy (List.eq_of_mem_replicate (List.mem_of_getElem? hi)).symm
  have hlen : ((List.replicate m x).set (src + o) y).length = m := by simp
  refine ⟨(List.replicate m x).set (src + o) y, hlen, fun heq => ?_⟩
  have hmem : y ∈ copyBlocks k src dst 0 n ((List.replicate m x).set (src + o) y) := by
    rw [heq]
    refine List.mem_of_getElem? (i := dst + o) ?_
    rw [getElem?_copy (by omega) (by omega), if_pos (by omega),
      show src + (dst + o - dst) = src + o by omega, List.getElem?_set_self (by simp; omega)]
  rw [copyBlocks, if_pos ⟨hk, hkn⟩] at hmem
  obtain ⟨i, hi⟩ := List.mem_iff_getElem?.mp (mem_copyBlocks hmem)
  rw [Nat.add_zero, Nat.add_zero, getElem?_copy (by omega) (by omega)] at hi
  split at hi
  · have := hget _ hi
    omega
  · have := hget _ hi
    omega

/-- **Copying in blocks is copying, for every content, exactly when** the destination is not above
the source, or does not overlap it, or one block is enough. -/
theorem copyBlocks_eq_copy_iff [Nontrivial α] (hk : 0 < k) {m : Nat}
    (hs : src + n ≤ m) (hd : dst + n ≤ m) :
    (∀ xs : List α, xs.length = m → copyBlocks k src dst 0 n xs = copy src dst n xs) ↔
      dst ≤ src ∨ src + n ≤ dst ∨ n ≤ k := by
  constructor
  · intro hall
    by_contra hno
    obtain ⟨x, y, hxy⟩ := exists_pair_ne α
    obtain ⟨xs, hlen, hne⟩ := @exists_lost _ src dst n k _ _ hxy _ hk (by omega)
      (by omega) (by omega) hd
    exact hne (hall xs hlen)
  · intro hover xs hlen
    by_cases hone : n ≤ k
    · rw [copyBlocks, if_neg (by omega)]
      rfl
    · apply List.ext_getElem?
      intro i
      rw [getElem?_copyBlocks (by omega) (by omega) (by omega),
        getElem?_copy (by omega) (by omega)]
      simp only [Nat.add_zero, Nat.zero_add]

end Splice

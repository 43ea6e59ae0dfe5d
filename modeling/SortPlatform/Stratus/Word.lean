import Mathlib.Data.List.OfFn
import Mathlib.Data.UInt

/-!
# 128-bit words of sixteen bytes

The input and output loops of the modules under `src/stratus`: an `sc_biguint<128>` is taken
apart into, and put together from, sixteen `sc_uint<8>`, byte `j` at bits `8j+7..8j`.

Principal results: `bytes_pack` and `bytes_injective`.
-/

set_option autoImplicit false

namespace SortPlatform.Stratus

/-- `sc_dt::sc_biguint<128>`. -/
abbrev Word := BitVec 128

/-- `word.range(LSB + 7, LSB)`. -/
def getRange (word : Word) (LSB : Nat) : UInt8 := UInt8.ofBitVec (word.extractLsb' LSB 8)

/-- `word.range(LSB + 7, LSB) = x`. -/
def setRange (word : Word) (LSB : Nat) (x : UInt8) : Word :=
  (word &&& ~~~((0xff : Word) <<< LSB)) ||| (x.toBitVec.setWidth 128 <<< LSB)

/-- The input loop: `for (i = 0; i < n; i++) A[i] = array.range(…)`, starting at bit `LSB`. -/
def unpack (n : Nat) (array : Word) (LSB : Nat) : Vector UInt8 n :=
  Vector.ofFn fun i => getRange array (LSB + 8 * i)

/-- The output loop: `for (i = 0; i < 16; i++) result.range(…) = C[i]`. -/
def pack (C : Vector UInt8 16) : Word :=
  (List.finRange 16).foldl (fun result i => setRange result (8 * i.val) C[i]) 0

/-- The bytes of a word, byte `j` at bits `8j+7..8j`. -/
def bytes (word : Word) : List UInt8 := (List.range 16).map fun j => getRange word (8 * j)

@[simp] theorem bytes_length (word : Word) : (bytes word).length = 16 := by simp [bytes]

/-- The input loop reads consecutive bytes. -/
theorem unpack_toList (n k : Nat) (h : k + n ≤ 16) (array : Word) :
    (unpack n array (8 * k)).toList = ((bytes array).drop k).take n := by
  apply List.ext_getElem
  · simp; omega
  · intro i h1 h2
    simp [unpack, bytes, Nat.mul_add]

theorem getLsbD_byteMask (k : Nat) : (0xff : Word).getLsbD k = decide (k < 8) := by
  by_cases hk : k < 128
  · revert k; decide
  · rw [BitVec.getLsbD_of_ge _ _ (by omega)]
    exact (decide_eq_false (by omega)).symm

theorem getLsbD_setRange (word : Word) (x : UInt8) {LSB k : Nat} (hk : k < 128) :
    (setRange word LSB x).getLsbD k =
      if LSB ≤ k ∧ k < LSB + 8 then x.toBitVec.getLsbD (k - LSB) else word.getLsbD k := by
  simp only [setRange, BitVec.getLsbD_or, BitVec.getLsbD_and, BitVec.getLsbD_not,
    BitVec.getLsbD_shiftLeft, BitVec.getLsbD_setWidth, getLsbD_byteMask, hk]
  split
  · rename_i h
    simp [show k - LSB < 8 by omega, show k - LSB < 128 by omega, show ¬ k < LSB by omega]
  · rename_i h
    by_cases hl : LSB ≤ k
    · have h8 : ¬ k - LSB < 8 := by omega
      simp [h8, BitVec.getLsbD_of_ge x.toBitVec (k - LSB) (by omega)]
    · simp [show k < LSB by omega]

/-- Writing one byte of a word leaves the others alone. -/
theorem getRange_setRange (word : Word) (x : UInt8) {i j : Nat} (hj : j < 16) :
    getRange (setRange word (8 * i) x) (8 * j) = if i = j then x else getRange word (8 * j) := by
  apply UInt8.toBitVec_inj.mp
  apply BitVec.eq_of_getLsbD_eq
  intro b hb
  have hrange : ∀ w : Word, (getRange w (8 * j)).toBitVec.getLsbD b = w.getLsbD (8 * j + b) := by
    intro w
    simp [getRange, hb]
  rw [hrange, getLsbD_setRange word x (by omega)]
  split
  · rename_i h
    have hij : i = j := by omega
    subst hij
    rw [if_pos rfl, Nat.add_sub_cancel_left]
  · rename_i h
    rw [if_neg (by omega), hrange]

/-- After the first `k` assignments the first `k` bytes are in place. -/
theorem getRange_foldl (C : Vector UInt8 16) : ∀ (is : List (Fin 16)) (word : Word) (j : Fin 16),
    getRange (is.foldl (fun result i => setRange result (8 * i.val) C[i]) word) (8 * j.val) =
      if j ∈ is then C[j] else getRange word (8 * j.val)
  | [], _, _ => by simp
  | i :: is, word, j => by
    rw [List.foldl_cons, getRange_foldl C is, getRange_setRange _ _ j.isLt]
    by_cases hj : j ∈ is
    · rw [if_pos hj, if_pos (List.mem_cons_of_mem _ hj)]
    · rw [if_neg hj]
      by_cases hij : i = j
      · subst hij
        rw [if_pos rfl, if_pos List.mem_cons_self]
      · have hne : ¬ i.val = j.val := fun h => hij (Fin.ext h)
        rw [if_neg hne, if_neg (by simp [hj, Ne.symm hij])]

/-- **The output loop puts `C[j]` at byte `j`.** -/
theorem bytes_pack (C : Vector UInt8 16) : bytes (pack C) = C.toList := by
  apply List.ext_getElem (by simp)
  intro j h1 h2
  have hj : j < 16 := by simpa using h1
  have := getRange_foldl C (List.finRange 16) 0 ⟨j, hj⟩
  rw [if_pos (List.mem_finRange _)] at this
  simpa [bytes, pack] using this

/-- **A word is its bytes.** -/
theorem bytes_injective {v w : Word} (h : bytes v = bytes w) : v = w := by
  apply BitVec.eq_of_getLsbD_eq
  intro k hk
  have hbyte : getRange v (8 * (k / 8)) = getRange w (8 * (k / 8)) := by
    have := (List.map_inj_left.mp h) (k / 8) (List.mem_range.mpr (by omega))
    exact this
  have hbit := congrArg (fun x : UInt8 => x.toBitVec.getLsbD (k % 8)) hbyte
  have hk8 : 8 * (k / 8) + k % 8 = k := by omega
  simpa [getRange, Nat.mod_lt, hk8] using hbit

/-- The word with the given sixteen bytes. -/
def ofBytes (bs : List UInt8) : Word := pack (Vector.ofFn fun i => bs.getD i 0)

theorem bytes_ofBytes {bs : List UInt8} (h : bs.length = 16) : bytes (ofBytes bs) = bs := by
  rw [ofBytes, bytes_pack]
  apply List.ext_getElem (by simp [h])
  intro j h1 h2
  simp [h2]

end SortPlatform.Stratus

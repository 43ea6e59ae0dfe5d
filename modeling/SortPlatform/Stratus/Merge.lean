import SortPlatform.MergePass
import SortPlatform.Stratus.Word

/-!
# The merge modules of the high-level-synthesis design

`MergeW1::do_merge`, …, `MergeW8::do_merge` of `src/stratus`: one iteration of the thread's
loop, from the word read and the register array `C` to the word written and `C`. The other
arrays are overwritten by every iteration before they are read.

`MergeW4` alone keeps the two halves of its input in arrays `A1` and `A2` of eight bytes.

Principal result: `Module.do_merge_spec` — every module merges the runs of the bytes of its word.
-/

set_option autoImplicit false

namespace SortPlatform.Stratus

open RunMerge

/-- The modules `MergeW1`, …, `MergeW8`. -/
inductive Module where
  | mergeW1
  | mergeW2
  | mergeW4
  | mergeW8
  deriving DecidableEq, Repr

/-- The common body of `MergeW1`, `MergeW2` and `MergeW8`. -/
def mergeWord (W : Nat) (array : Word) (C : Vector UInt8 16) :
    Option (Word × Vector UInt8 16) :=
  (mergePass W (unpack 16 array 0) C).map fun C => (pack C, C)

def MergeW1.do_merge (array : Word) (C : Vector UInt8 16) : Option (Word × Vector UInt8 16) :=
  mergeWord 1 array C

def MergeW2.do_merge (array : Word) (C : Vector UInt8 16) : Option (Word × Vector UInt8 16) :=
  mergeWord 2 array C

def MergeW4.do_merge (array : Word) (C : Vector UInt8 16) : Option (Word × Vector UInt8 16) :=
  let A1 := unpack 8 array 0
  let A2 := unpack 8 array 64
  (mergeLoop A1 4 7 (4 * 2) { l1 := 0, l2 := 4, index := 0, C := C }).bind fun s =>
    (mergeLoop A2 4 7 (16 - 8) { l1 := 0, l2 := 4, index := 8, C := s.C }).map fun s =>
      (pack s.C, s.C)

def MergeW8.do_merge (array : Word) (C : Vector UInt8 16) : Option (Word × Vector UInt8 16) :=
  mergeWord 8 array C

def Module.do_merge : Module → Word → Vector UInt8 16 → Option (Word × Vector UInt8 16)
  | .mergeW1 => MergeW1.do_merge
  | .mergeW2 => MergeW2.do_merge
  | .mergeW4 => MergeW4.do_merge
  | .mergeW8 => MergeW8.do_merge

/-- The width of a module's runs. -/
def Module.width : Module → Nat
  | .mergeW1 => 1
  | .mergeW2 => 2
  | .mergeW4 => 4
  | .mergeW8 => 8

theorem mergeWord_spec {W : Nat} (hW : IsWidth W) (array : Word) (C : Vector UInt8 16) :
    ∃ word C', mergeWord W array C = some (word, C') ∧ bytes word = pass W (bytes array) := by
  obtain ⟨C', h, hl⟩ := mergePass_spec hW (unpack 16 array 0) C
  refine ⟨pack C', C', by rw [mergeWord, h]; rfl, ?_⟩
  have hunpack := unpack_toList 16 0 (by omega) array
  rw [List.drop_zero, List.take_of_length_le (by simp)] at hunpack
  rw [bytes_pack, hl]
  exact congrArg _ hunpack

/-- One of the two loops of `MergeW4`: a merge of the halves of an array of eight bytes into
`C[index], …, C[index+7]`. -/
theorem half_spec (A : Vector UInt8 8) (C : Vector UInt8 16) {index : Nat} (h : index + 8 ≤ 16) :
    ∃ s', mergeLoop A 4 7 8 { l1 := 0, l2 := 4, index := index, C := C } = some s' ∧
      s'.C.toList = C.toList.take index ++
        ((A.toList.take 4).merge ((A.toList.drop 4).take 4) hwLe ++ C.toList.drop (index + 8)) := by
  obtain ⟨s', hs, hC⟩ := mergeLoop_spec A (show 7 + 1 ≤ 8 by omega) 8
    { l1 := 0, l2 := 4, index := index, C := C } (Nat.zero_le 4) (Nat.le_refl 4)
    (show 4 ≤ 7 + 1 by omega) rfl h
  refine ⟨s', hs, ?_⟩
  rw [← slice_eq_take_drop A.toList 4 4]
  exact hC

/-- **The two loops over `A1` and `A2` are the pass of width 4.** -/
theorem mergeW4_spec (array : Word) (C : Vector UInt8 16) :
    ∃ word C', MergeW4.do_merge array C = some (word, C') ∧
      bytes word = pass 4 (bytes array) := by
  obtain ⟨s₁, hs₁, hC₁⟩ := half_spec (unpack 8 array 0) C (show 0 + 8 ≤ 16 by omega)
  obtain ⟨s₂, hs₂, hC₂⟩ := half_spec (unpack 8 array 64) s₁.C (show 8 + 8 ≤ 16 by omega)
  refine ⟨pack s₂.C, s₂.C, ?_, ?_⟩
  · simp only [MergeW4.do_merge, hs₁, hs₂, Option.bind_some, Option.map_some]
  · have hmerge : (((unpack 8 array 0).toList.take 4).merge
        (((unpack 8 array 0).toList.drop 4).take 4) hwLe).length = 8 := by
      rw [List.length_merge]; simp
    have hfirst : s₁.C.toList.take 8 = ((unpack 8 array 0).toList.take 4).merge
        (((unpack 8 array 0).toList.drop 4).take 4) hwLe := by
      rw [hC₁, List.take_zero, List.nil_append]
      exact List.take_left' hmerge
    have hrest : s₁.C.toList.drop (8 + 8) = [] := List.drop_of_length_le (by simp)
    show bytes (pack s₂.C) = mergeRuns hwLe 4 2 (bytes array)
    rw [bytes_pack, hC₂, hfirst, hrest, List.append_nil, unpack_toList 8 0 (by omega),
      show unpack 8 array 64 = unpack 8 array (8 * 8) from rfl, unpack_toList 8 8 (by omega)]
    have hhead : ∀ xs : List UInt8, (xs.take 8).take 4 = xs.take 4 := fun xs => by
      rw [List.take_take]; rfl
    have htail : ∀ xs : List UInt8, ((xs.take 8).drop 4).take 4 = (xs.drop 4).take 4 :=
      fun xs => by rw [List.drop_take, List.take_take]; rfl
    have hdone : (bytes array).drop 16 = [] := List.drop_of_length_le (by simp)
    simp only [mergeRuns, List.drop_zero, hhead, htail, List.drop_drop]
    rw [hdone, List.append_nil]

/-- **Every module merges the runs of the bytes of its word**, sorted or not, whatever `C` held. -/
theorem Module.do_merge_spec (m : Module) (array : Word) (C : Vector UInt8 16) :
    ∃ word C', m.do_merge array C = some (word, C') ∧
      bytes word = pass m.width (bytes array) := by
  cases m <;> simp only [Module.do_merge, Module.width]
  case mergeW1 => exact mergeWord_spec isWidth_1 array C
  case mergeW2 => exact mergeWord_spec isWidth_2 array C
  case mergeW4 => exact mergeW4_spec array C
  case mergeW8 => exact mergeWord_spec isWidth_8 array C

end SortPlatform.Stratus

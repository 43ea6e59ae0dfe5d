import SortPlatform.MergePass
import SortPlatform.Stratus.Word

/-!
# The software-pipelined single module

`SobelFilter::do_filter` of `src/stratus/good_Sobel2.cpp`: one thread with five arrays. An
iteration of its loop writes the word in `C`, advances the four passes from the last to the
first, each into the array the next one has just left, and reads a word into `A`.

* `delayed` — a stream of blocks, some iterations late and zero until then.

Principal results:

* `state_after` — in front of iteration `n` the five arrays hold five generations of blocks.
* `written_eq` — the `n`-th word written is the `n - 5`-th word read, sorted, and 0 before.
-/

set_option autoImplicit false

namespace SortPlatform.Stratus.SobelFilter2

open RunMerge

/-- The arrays of the module. -/
structure State where
  A : Vector UInt8 16
  C : Vector UInt8 16
  w2 : Vector UInt8 16
  w4 : Vector UInt8 16
  w8 : Vector UInt8 16
  deriving DecidableEq

/-- The arrays after `main_reset`. -/
def reset : State :=
  ⟨Vector.replicate 16 0, Vector.replicate 16 0, Vector.replicate 16 0, Vector.replicate 16 0,
    Vector.replicate 16 0⟩

/-- One iteration of the loop of `do_filter` with the input word `array`: the word written and the
arrays left. -/
def iteration (s : State) (array : Word) : Option (Word × State) :=
  let result := pack s.C
  (mergePass 8 s.w8 s.C).bind fun C =>
    (mergePass 4 s.w4 s.w8).bind fun w8 =>
      (mergePass 2 s.w2 s.w4).bind fun w4 =>
        (mergePass 1 s.A s.w2).map fun w2 =>
          (result, { A := unpack 16 array 0, C := C, w2 := w2, w4 := w4, w8 := w8 })

/-- The arrays in front of iteration `n`, reading the words `xs 0, xs 1, …`. -/
def stateAt (xs : Nat → Word) : Nat → Option State
  | 0 => some reset
  | n + 1 => (stateAt xs n).bind fun s => (iteration s (xs n)).map Prod.snd

/-- The `n`-th word written. -/
def written (xs : Nat → Word) (n : Nat) : Option Word :=
  (stateAt xs n).bind fun s => (iteration s (xs n)).map Prod.fst

/-! ## Generations -/

/-- What arrives `d` iterations late. -/
def delayed (xs : Nat → Word) (d n : Nat) : List UInt8 :=
  if n < d then List.replicate 16 0 else bytes (xs (n - d))

theorem delayed_succ (xs : Nat → Word) (d n : Nat) :
    delayed xs (d + 1) (n + 1) = delayed xs d n := by
  simp only [delayed, Nat.add_lt_add_iff_right, Nat.add_sub_add_right]

theorem delayed_length (xs : Nat → Word) (d n : Nat) : (delayed xs d n).length = 16 := by
  unfold delayed
  split <;> simp

/-- A pass of zeros. -/
theorem pass_zero (W : Nat) : pass W (List.replicate 16 (0 : UInt8)) = List.replicate 16 0 :=
  List.perm_replicate.mp (pass_perm W _)

/-- **The five generations** in front of iteration `n`: what was read one iteration ago in `A`, and
every further pass one iteration older. -/
structure Generations (xs : Nat → Word) (n : Nat) (s : State) : Prop where
  A : s.A.toList = delayed xs 1 n
  w2 : s.w2.toList = pass 1 (delayed xs 2 n)
  w4 : s.w4.toList = pass 2 (pass 1 (delayed xs 3 n))
  w8 : s.w8.toList = pass 4 (pass 2 (pass 1 (delayed xs 4 n)))
  C : s.C.toList = pass 8 (pass 4 (pass 2 (pass 1 (delayed xs 5 n))))

theorem reset_generations (xs : Nat → Word) : Generations xs 0 reset := by
  have hz : ∀ d, delayed xs (d + 1) 0 = List.replicate 16 0 := fun d => if_pos (Nat.succ_pos d)
  constructor <;> simp only [hz, pass_zero] <;> exact Vector.toList_replicate

/-- **An iteration ages every generation**: each pass reads what its predecessor computed in the
iteration before. -/
theorem iteration_generations {xs : Nat → Word} {n : Nat} {s : State} (h : Generations xs n s) :
    ∃ s', iteration s (xs n) = some (pack s.C, s') ∧ Generations xs (n + 1) s' := by
  obtain ⟨C, hC, hCl⟩ := mergePass_spec isWidth_8 s.w8 s.C
  obtain ⟨w8, hw8, hw8l⟩ := mergePass_spec isWidth_4 s.w4 s.w8
  obtain ⟨w4, hw4, hw4l⟩ := mergePass_spec isWidth_2 s.w2 s.w4
  obtain ⟨w2, hw2, hw2l⟩ := mergePass_spec isWidth_1 s.A s.w2
  refine ⟨⟨unpack 16 (xs n) 0, C, w2, w4, w8⟩, ?_, ?_⟩
  · simp only [iteration, hC, hw8, hw4, hw2, Option.bind_some, Option.map_some]
  · have hA := unpack_toList 16 0 (by omega) (xs n)
    rw [List.drop_zero, List.take_of_length_le (by simp)] at hA
    constructor
    · rw [delayed_succ]; exact hA
    · rw [delayed_succ, hw2l, h.A]
    · rw [delayed_succ, hw4l, h.w2]
    · rw [delayed_succ, hw8l, h.w4]
    · rw [delayed_succ, hCl, h.w8]

/-- **The arrays in front of every iteration.** -/
theorem state_after (xs : Nat → Word) : ∀ n, ∃ s, stateAt xs n = some s ∧ Generations xs n s
  | 0 => ⟨reset, rfl, reset_generations xs⟩
  | n + 1 => by
    obtain ⟨s, hs, hg⟩ := state_after xs n
    obtain ⟨s', hi, hg'⟩ := iteration_generations hg
    exact ⟨s', by rw [stateAt, hs, Option.bind_some, hi]; rfl, hg'⟩

/-- **The software-pipelined module sorts with a latency of five words**: the `n`-th word written
is 0 for `n < 5`, and otherwise holds the bytes of the `n - 5`-th word read in ascending order. -/
theorem written_eq (xs : Nat → Word) (n : Nat) :
    written xs n = some (if n < 5 then 0 else ofBytes (bytes (xs (n - 5))).mergeSort) := by
  obtain ⟨s, hs, hg⟩ := state_after xs n
  obtain ⟨s', hi, -⟩ := iteration_generations hg
  have hword : pack s.C = if n < 5 then 0 else ofBytes (bytes (xs (n - 5))).mergeSort := by
    apply bytes_injective
    rw [bytes_pack, hg.C]
    split
    · rename_i hn
      rw [delayed, if_pos hn, pass_zero, pass_zero, pass_zero, pass_zero]
      decide
    · rename_i hn
      rw [passes_eq_mergeSort (delayed_length xs 5 n), delayed, if_neg hn,
        bytes_ofBytes (by rw [List.length_mergeSort, bytes_length])]
  rw [written, hs, Option.bind_some, hi, Option.map_some, hword]

end SortPlatform.Stratus.SobelFilter2

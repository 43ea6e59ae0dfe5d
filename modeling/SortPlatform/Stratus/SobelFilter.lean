import SortPlatform.Stratus.Chain

/-!
# The single-module sorter

`SobelFilter::do_filter` of `src/stratus/good_Sobel.cpp`: one thread, one pair of arrays `A` and
`C`. The passes for `w = 1, 2, 4, 8` all read `A` and write `C`, and each copies `C` back to `A`.

Principal results:

* `do_filter_spec` — the arrays after every pass, and the word written.
* `Stream.places` — where in the chain of the four modules every word of a stream is, and which
  passes it has seen.
* `do_filter_agrees` — pass by pass, and word by word, the module and the chain agree.
-/

set_option autoImplicit false

namespace SortPlatform.Stratus

open Dataflow RunMerge

/-! ## The module -/

namespace SobelFilter

/-- The arrays of the module. `main_reset` leaves them as they are. -/
structure State where
  A : Vector UInt8 16
  C : Vector UInt8 16

/-- The loop `for (int w = 1; w < 16; w = w * 2)` from width `w` on: `A` after the copy-back of
every pass, and the arrays left. -/
def passes (w : Nat) (s : State) : Option (List (Nat × Vector UInt8 16) × State) :=
  -- the loop starts at 1; from 0 it would not end
  if 0 < w ∧ w < 16 then
    (mergePass w s.A s.C).bind fun C =>
      (passes (w * 2) { A := C, C := C }).map fun r => ((w, C) :: r.1, r.2)
  else some ([], s)
termination_by 16 - w

/-- One iteration of the thread for the word it gets: the word it puts, `A` after every pass, and
the arrays left. -/
def do_filter (s : State) (array : Word) :
    Option (Word × List (Nat × Vector UInt8 16) × State) :=
  (passes 1 { s with A := unpack 16 array 0 }).map fun r => (pack r.2.C, r.1, r.2)

/-- The words put for the words of a stream. -/
def filterAll : State → List Word → Option (List Word)
  | _, [] => some []
  | s, word :: words =>
    (do_filter s word).bind fun r => (filterAll r.2.2 words).map fun results => r.1 :: results

/-- A pass computes the next array and both arrays hold it. -/
theorem passes_step {w : Nat} (hw : IsWidth w) (hlt : w < 16) (s : State) :
    ∃ C : Vector UInt8 16, C.toList = pass w s.A.toList ∧
      passes w s = (passes (w * 2) { A := C, C := C }).map fun r => ((w, C) :: r.1, r.2) := by
  obtain ⟨C, hC, hl⟩ := mergePass_spec hw s.A s.C
  refine ⟨C, hl, ?_⟩
  rw [passes, if_pos ⟨hw.pos, hlt⟩, hC, Option.bind_some]

/-- The loop ends at 16. -/
theorem passes_end (s : State) : passes 16 s = some ([], s) := by
  rw [passes, if_neg (by omega)]

/-- **The four passes of a word**: each reads what its predecessor copied back. -/
theorem do_filter_spec (s : State) (word : Word) : ∃ A₁ A₂ A₄ A₈ : Vector UInt8 16,
    do_filter s word =
      some (pack A₈, [(1, A₁), (2, A₂), (4, A₄), (8, A₈)], { A := A₈, C := A₈ }) ∧
    A₁.toList = pass 1 (bytes word) ∧ A₂.toList = pass 2 A₁.toList ∧
    A₄.toList = pass 4 A₂.toList ∧ A₈.toList = pass 8 A₄.toList := by
  obtain ⟨A₁, h₁, hp₁⟩ := passes_step isWidth_1 (by omega) { s with A := unpack 16 word 0 }
  obtain ⟨A₂, h₂, hp₂⟩ := passes_step isWidth_2 (by omega) { A := A₁, C := A₁ }
  obtain ⟨A₄, h₄, hp₄⟩ := passes_step isWidth_4 (by omega) { A := A₂, C := A₂ }
  obtain ⟨A₈, h₈, hp₈⟩ := passes_step isWidth_8 (by omega) { A := A₄, C := A₄ }
  have hA := unpack_toList 16 0 (by omega) word
  rw [List.drop_zero, List.take_of_length_le (by simp)] at hA
  refine ⟨A₁, A₂, A₄, A₈, ?_, ?_, h₂, h₄, h₈⟩
  · rw [do_filter, hp₁, hp₂, hp₄, hp₈, passes_end]
    rfl
  · rw [h₁]
    exact congrArg _ hA

/-- **The word put is the sorted word**, whatever the arrays held. -/
theorem do_filter_sortWord (s : State) (word : Word) :
    ∃ trace s', do_filter s word = some (sortWord word, trace, s') := by
  obtain ⟨A₁, A₂, A₄, A₈, hf, h₁, h₂, h₄, h₈⟩ := do_filter_spec s word
  have hword : pack A₈ = sortWord word := by
    apply bytes_injective
    rw [bytes_pack, bytes_sortWord, h₈, h₄, h₂, h₁]
    exact passes_eq_mergeSort (bytes_length word)
  exact ⟨_, _, by rw [hf, hword]⟩

theorem filterAll_eq (s : State) (words : List Word) :
    filterAll s words = some (words.map sortWord) := by
  induction words generalizing s with
  | nil => rfl
  | cons word words ih =>
    obtain ⟨trace, s', h⟩ := do_filter_sortWord s word
    rw [filterAll, h, Option.bind_some, ih]
    rfl

/-- After pass `w` on `word`, whatever the arrays held before, `A` is the word `v`. -/
def AfterPass (w : Nat) (word v : Word) : Prop :=
  ∀ s, ∃ result trace s' A, do_filter s word = some (result, trace, s') ∧ (w, A) ∈ trace ∧
    A.toList = bytes v

end SobelFilter

/-! ## The words between the modules -/

/-- The word that leaves a module when the chain is given `word`. -/
def Module.leaving : Module → Word → Word
  | .mergeW1, word => Module.mergeW1.image word
  | .mergeW2, word => Module.mergeW2.image (Module.mergeW1.image word)
  | .mergeW4, word => Module.mergeW4.image (Module.mergeW2.image (Module.mergeW1.image word))
  | .mergeW8, word =>
    Module.mergeW8.image (Module.mergeW4.image (Module.mergeW2.image (Module.mergeW1.image word)))

/-- **The copy-back of pass `w` leaves in `A` the word that leaves `MergeW<w>`.** -/
theorem Module.leaving_afterPass (m : Module) (word : Word) :
    SobelFilter.AfterPass m.width word (m.leaving word) := by
  intro s
  obtain ⟨A₁, A₂, A₄, A₈, hf, h₁, h₂, h₄, h₈⟩ := SobelFilter.do_filter_spec s word
  have hb₁ : A₁.toList = bytes (Module.mergeW1.leaving word) := by
    rw [h₁]
    exact (Module.bytes_image .mergeW1 word).symm
  have hb₂ : A₂.toList = bytes (Module.mergeW2.leaving word) := by
    rw [h₂, hb₁]
    exact (Module.bytes_image .mergeW2 _).symm
  have hb₄ : A₄.toList = bytes (Module.mergeW4.leaving word) := by
    rw [h₄, hb₂]
    exact (Module.bytes_image .mergeW4 _).symm
  have hb₈ : A₈.toList = bytes (Module.mergeW8.leaving word) := by
    rw [h₈, hb₄]
    exact (Module.bytes_image .mergeW8 _).symm
  cases m with
  | mergeW1 => exact ⟨_, _, _, A₁, hf, by simp [width], hb₁⟩
  | mergeW2 => exact ⟨_, _, _, A₂, hf, by simp [width], hb₂⟩
  | mergeW4 => exact ⟨_, _, _, A₄, hf, by simp [width], hb₄⟩
  | mergeW8 => exact ⟨_, _, _, A₈, hf, by simp [width], hb₈⟩

/-- The word a thread has computed and not yet put. -/
def ModuleThread.held (t : ModuleThread) : List Word :=
  match t.pc with
  | .output result => [result]
  | _ => []

/-- **A step of a module either moves no word out of its input, or takes the first one and queues
its image behind what it has put.** -/
theorem Module.next_held {m : Module} {t t' : ModuleThread} {i o i' o' : Fifo Word}
    (h : m.next t i o = some (t', i', o')) :
    (i'.buf = i.buf ∧ o'.buf ++ t'.held = o.buf ++ t.held) ∨
      ∃ w, i.buf = w :: i'.buf ∧ o'.buf ++ t'.held = o.buf ++ t.held ++ [m.image w] := by
  obtain ⟨pc, C⟩ := t
  cases pc with
  | reset => cases h; exact Or.inl ⟨rfl, rfl⟩
  | input =>
    obtain ⟨⟨w, q⟩, hr, h⟩ := Option.bind_eq_some_iff.mp h
    obtain ⟨C', hm⟩ := m.do_merge_eq w C
    simp only [hm, Option.map_some] at h
    cases h
    refine Or.inr ⟨w, (Fifo.read_eq_some.mp hr).1, ?_⟩
    simp only [ModuleThread.held, List.append_nil]
  | output result =>
    obtain ⟨q, hw, he⟩ := Option.map_eq_some_iff.mp h
    cases he
    refine Or.inl ⟨rfl, ?_⟩
    simp only [ModuleThread.held, (Fifo.write_eq_some.mp hw).2.2, List.append_nil]

/-- **Where every word of the stream is**: `done` behind the last module, `dₖ` behind `MergeW<k>`
and in front of the next one, `before` in front of the first. -/
structure Stream.Places (ws : List Word) (c : Stream) (before d₁ d₂ d₄ done : List Word) :
    Prop where
  whole : ws = done ++ d₄ ++ d₂ ++ d₁ ++ before
  front : c.chain.rgb.buf ++ c.todo = before
  behind1 : c.chain.w1_w2.buf ++ c.chain.merge_w1.held = d₁.map Module.mergeW1.leaving
  behind2 : c.chain.w2_w4.buf ++ c.chain.merge_w2.held = d₂.map Module.mergeW2.leaving
  behind4 : c.chain.w4_w8.buf ++ c.chain.merge_w4.held = d₄.map Module.mergeW4.leaving
  behind8 : c.outputs ++ (c.chain.result.buf ++ c.chain.merge_w8.held) =
    done.map Module.mergeW8.leaving

theorem Stream.Places.init {caps : List Nat} {ws : List Word} {c : Stream}
    (h : (stream caps ws).init c) : c.Places ws ws [] [] [] [] := by
  obtain ⟨⟨⟨p₁, p₂, p₄, p₈⟩, b₀, b₁, b₂, b₄, b₈⟩, -, htodo, hout⟩ := h
  constructor
  · rfl
  · rw [b₀, htodo, List.nil_append]
  · rw [b₁, ModuleThread.held, p₁]; rfl
  · rw [b₂, ModuleThread.held, p₂]; rfl
  · rw [b₄, ModuleThread.held, p₄]; rfl
  · rw [hout, b₈, ModuleThread.held, p₈]; rfl

/-- **A step of a module moves at most one word on**, from the words in front of it to the words
behind it. -/
theorem Stream.Places.module {ws before d₁ d₂ d₄ done : List Word} {c : Stream} {chain : Chain}
    {m : Module} (hp : c.Places ws before d₁ d₂ d₄ done) (h : c.chain.next m = some chain) :
    ∃ before' d₁' d₂' d₄' done',
      { c with chain := chain }.Places ws before' d₁' d₂' d₄' done' := by
  obtain ⟨hwhole, hfront, h₁, h₂, h₄, h₈⟩ := hp
  cases m with
  | mergeW1 =>
    obtain ⟨⟨t, i, o⟩, hn, rfl⟩ := Option.map_eq_some_iff.mp h
    rcases Module.next_held hn with ⟨hi, ho⟩ | ⟨w, hi, ho⟩
    · exact ⟨before, d₁, d₂, d₄, done, hwhole, by rw [← hfront, ← hi], by rw [← h₁, ← ho],
        h₂, h₄, h₈⟩
    · refine ⟨i.buf ++ c.todo, d₁ ++ [w], d₂, d₄, done, ?_, rfl, ?_, h₂, h₄, h₈⟩
      · rw [hwhole, ← hfront, hi]
        simp only [List.append_assoc, List.cons_append, List.nil_append]
      · rw [ho, h₁, List.map_append]
        rfl
  | mergeW2 =>
    obtain ⟨⟨t, i, o⟩, hn, rfl⟩ := Option.map_eq_some_iff.mp h
    rcases Module.next_held hn with ⟨hi, ho⟩ | ⟨w, hi, ho⟩
    · exact ⟨before, d₁, d₂, d₄, done, hwhole, hfront, by rw [← h₁, ← hi], by rw [← h₂, ← ho],
        h₄, h₈⟩
    · rw [hi, List.cons_append, eq_comm, List.map_eq_cons_iff] at h₁
      obtain ⟨word, d₁', rfl, rfl, h₁⟩ := h₁
      refine ⟨before, d₁', d₂ ++ [word], d₄, done, ?_, hfront, h₁.symm, ?_, h₄, h₈⟩
      · rw [hwhole]
        simp only [List.append_assoc, List.cons_append, List.nil_append]
      · rw [ho, h₂, List.map_append]
        rfl
  | mergeW4 =>
    obtain ⟨⟨t, i, o⟩, hn, rfl⟩ := Option.map_eq_some_iff.mp h
    rcases Module.next_held hn with ⟨hi, ho⟩ | ⟨w, hi, ho⟩
    · exact ⟨before, d₁, d₂, d₄, done, hwhole, hfront, h₁, by rw [← h₂, ← hi],
        by rw [← h₄, ← ho], h₈⟩
    · rw [hi, List.cons_append, eq_comm, List.map_eq_cons_iff] at h₂
      obtain ⟨word, d₂', rfl, rfl, h₂⟩ := h₂
      refine ⟨before, d₁, d₂', d₄ ++ [word], done, ?_, hfront, h₁, h₂.symm, ?_, h₈⟩
      · rw [hwhole]
        simp only [List.append_assoc, List.cons_append, List.nil_append]
      · rw [ho, h₄, List.map_append]
        rfl
  | mergeW8 =>
    obtain ⟨⟨t, i, o⟩, hn, rfl⟩ := Option.map_eq_some_iff.mp h
    rcases Module.next_held hn with ⟨hi, ho⟩ | ⟨w, hi, ho⟩
    · exact ⟨before, d₁, d₂, d₄, done, hwhole, hfront, h₁, h₂, by rw [← h₄, ← hi],
        by rw [← h₈, ← ho]⟩
    · rw [hi, List.cons_append, eq_comm, List.map_eq_cons_iff] at h₄
      obtain ⟨word, d₄', rfl, rfl, h₄⟩ := h₄
      refine ⟨before, d₁, d₂, d₄', done ++ [word], ?_, hfront, h₁, h₂, h₄.symm, ?_⟩
      · rw [hwhole]
        simp only [List.append_assoc, List.cons_append, List.nil_append]
      · rw [ho, List.map_append, ← h₈, List.append_assoc, List.append_assoc, List.append_assoc]
        rfl

theorem Stream.Places.next {ws before d₁ d₂ d₄ done : List Word} {c c' : Stream} {a : StreamAct}
    (hp : c.Places ws before d₁ d₂ d₄ done) (h : c.next a = some c') :
    ∃ before' d₁' d₂' d₄' done', c'.Places ws before' d₁' d₂' d₄' done' := by
  cases a with
  | put =>
    obtain ⟨hwhole, hfront, h₁, h₂, h₄, h₈⟩ := hp
    simp only [Stream.next] at h
    split at h
    · cases h
    · rename_i w rest htodo
      obtain ⟨chain, hput, rfl⟩ := Option.map_eq_some_iff.mp h
      obtain ⟨q, hw, rfl⟩ := Option.map_eq_some_iff.mp hput
      refine ⟨before, d₁, d₂, d₄, done, hwhole, ?_, h₁, h₂, h₄, h₈⟩
      rw [← hfront, htodo, List.append_cons]
      simp only [(Fifo.write_eq_some.mp hw).2.2]
  | get =>
    obtain ⟨hwhole, hfront, h₁, h₂, h₄, h₈⟩ := hp
    obtain ⟨⟨w, chain⟩, hg, rfl⟩ := Option.map_eq_some_iff.mp h
    obtain ⟨⟨y, q⟩, hr, he⟩ := Option.map_eq_some_iff.mp hg
    cases he
    refine ⟨before, d₁, d₂, d₄, done, hwhole, hfront, h₁, h₂, h₄, ?_⟩
    rw [← h₈, (Fifo.read_eq_some.mp hr).1, List.append_assoc]
    rfl
  | module m =>
    obtain ⟨chain, hm, rfl⟩ := Option.map_eq_some_iff.mp h
    exact hp.module hm

/-- **In every reachable state every word of the stream has its place.** -/
theorem Stream.places {caps : List Nat} {ws : List Word} {c : Stream}
    (h : (stream caps ws).Reach c) : ∃ before d₁ d₂ d₄ done, c.Places ws before d₁ d₂ d₄ done :=
  h.invariant (motive := fun c => ∃ before d₁ d₂ d₄ done, c.Places ws before d₁ d₂ d₄ done)
    (fun _ h0 => ⟨ws, [], [], [], [], .init h0⟩)
    fun _ _ _ ⟨_, _, _, _, _, hp⟩ _ hn => hp.next hn

/-! ## Agreement with the chain -/

/-- The words of a list, each after pass `w` on the word of the other list. -/
theorem forall₂_leaving (m : Module) (words : List Word) :
    List.Forall₂ (SobelFilter.AfterPass m.width) words (words.map m.leaving) := by
  induction words with
  | nil => exact .nil
  | cons word words ih => exact .cons (m.leaving_afterPass word) ih

open SobelFilter in
/-- **The single module and the chain agree.** For every word, whatever the registers of either
design held: the four modules, each given the word its predecessor puts, put the words that
`do_filter` has in `A` after the pass of the same width, and the last of them is the word
`do_filter` puts, with the bytes of the word in ascending order. Stream by stream: in every state
the chain can be in, every word on its way is in `A` after the passes it has seen, what was
fetched is what the single module puts first, and once the chain has come to rest it is all
that the single module puts. -/
theorem do_filter_agrees :
    (∀ (s : State) (word : Word) (C₁ C₂ C₄ C₈ : Vector UInt8 16),
      ∃ w₁ w₂ w₄ w₈ C₁' C₂' C₄' C₈' A₁ A₂ A₄ A₈ s',
        MergeW1.do_merge word C₁ = some (w₁, C₁') ∧ MergeW2.do_merge w₁ C₂ = some (w₂, C₂') ∧
        MergeW4.do_merge w₂ C₄ = some (w₄, C₄') ∧ MergeW8.do_merge w₄ C₈ = some (w₈, C₈') ∧
        do_filter s word = some (w₈, [(1, A₁), (2, A₂), (4, A₄), (8, A₈)], s') ∧
        A₁.toList = bytes w₁ ∧ A₂.toList = bytes w₂ ∧ A₄.toList = bytes w₄ ∧
        A₈.toList = bytes w₈ ∧ (bytes w₈).Pairwise (· ≤ ·) ∧ (bytes w₈).Perm (bytes word)) ∧
    (∀ (s : State) (caps : List Nat) (ws : List Word) (c : Stream), (stream caps ws).Reach c →
      ∃ results before d₁ d₂ d₄ done, filterAll s ws = some results ∧ c.outputs <+: results ∧
        ((∀ k ∈ caps, 0 < k) → c.Finished → c.outputs = results) ∧
        ws = done ++ d₄ ++ d₂ ++ d₁ ++ before ∧
        List.Forall₂ (AfterPass 1) d₁ (c.chain.w1_w2.buf ++ c.chain.merge_w1.held) ∧
        List.Forall₂ (AfterPass 2) d₂ (c.chain.w2_w4.buf ++ c.chain.merge_w2.held) ∧
        List.Forall₂ (AfterPass 4) d₄ (c.chain.w4_w8.buf ++ c.chain.merge_w4.held) ∧
        List.Forall₂ (AfterPass 8) done
          (c.outputs ++ (c.chain.result.buf ++ c.chain.merge_w8.held))) := by
  constructor
  · intro s word C₁ C₂ C₄ C₈
    obtain ⟨A₁, A₂, A₄, A₈, hf, h₁, h₂, h₄, h₈⟩ := do_filter_spec s word
    obtain ⟨w₁, C₁', hm₁, hw₁⟩ := Module.mergeW1.do_merge_spec word C₁
    obtain ⟨w₂, C₂', hm₂, hw₂⟩ := Module.mergeW2.do_merge_spec w₁ C₂
    obtain ⟨w₄, C₄', hm₄, hw₄⟩ := Module.mergeW4.do_merge_spec w₂ C₄
    obtain ⟨w₈, C₈', hm₈, hw₈⟩ := Module.mergeW8.do_merge_spec w₄ C₈
    have hA₁ : A₁.toList = bytes w₁ := by rw [h₁, hw₁]; rfl
    have hA₂ : A₂.toList = bytes w₂ := by rw [h₂, hw₂, hA₁]; rfl
    have hA₄ : A₄.toList = bytes w₄ := by rw [h₄, hw₄, hA₂]; rfl
    have hA₈ : A₈.toList = bytes w₈ := by rw [h₈, hw₈, hA₄]; rfl
    have hword : pack A₈ = w₈ := bytes_injective (by rw [bytes_pack, hA₈])
    have hsorted : bytes w₈ = (bytes word).mergeSort := by
      rw [← hA₈, h₈, h₄, h₂, h₁]
      exact passes_eq_mergeSort (bytes_length word)
    refine ⟨w₁, w₂, w₄, w₈, C₁', C₂', C₄', C₈', A₁, A₂, A₄, A₈, _, hm₁, hm₂, hm₄, hm₈,
      by rw [hf, hword], hA₁, hA₂, hA₄, hA₈, ?_, ?_⟩
    · rw [hsorted]
      exact mergeSort_sorted _
    · rw [hsorted]
      exact List.mergeSort_perm _ _
  · intro s caps ws c hc
    obtain ⟨before, d₁, d₂, d₄, done, hwhole, -, h₁, h₂, h₄, h₈⟩ := Stream.places hc
    have hinv := chain_inv hc
    refine ⟨ws.map sortWord, before, d₁, d₂, d₄, done, filterAll_eq s ws, ⟨_, hinv.flow⟩,
      hinv.finished, hwhole, ?_, ?_, ?_, ?_⟩
    · rw [h₁]
      exact forall₂_leaving .mergeW1 d₁
    · rw [h₂]
      exact forall₂_leaving .mergeW2 d₂
    · rw [h₄]
      exact forall₂_leaving .mergeW4 d₄
    · rw [h₈]
      exact forall₂_leaving .mergeW8 done

open SobelFilter in
/-- A descending word, with `do_filter` starting from zeroed arrays. -/
theorem do_filter_agrees_descending : ∃ c : Stream, (stream [1, 1, 1, 1, 1] [descending]).Reach c ∧
    c.outputs.length = 1 ∧ ∃ results,
      filterAll ⟨Vector.replicate 16 0, Vector.replicate 16 0⟩ [descending] = some results ∧
      c.outputs <+: results := by
  have hrun : ((stream [1, 1, 1, 1, 1] [descending]).exec
      ⟨Chain.boot 1, [descending], []⟩ oneWord).map (fun c => c.outputs.length) = some 1 := by
    decide +kernel
  obtain ⟨c, hc, hlen⟩ := Option.map_eq_some_iff.mp hrun
  have hboot : (stream [1, 1, 1, 1, 1] [descending]).init ⟨Chain.boot 1, [descending], []⟩ :=
    ⟨⟨⟨rfl, rfl, rfl, rfl⟩, rfl, rfl, rfl, rfl, rfl⟩, rfl, rfl, rfl⟩
  have hreach := Machine.reach_exec (.init hboot) hc
  obtain ⟨results, _, _, _, _, _, hall, hpre, -⟩ := do_filter_agrees.2
    ⟨Vector.replicate 16 0, Vector.replicate 16 0⟩ [1, 1, 1, 1, 1] [descending] c hreach
  exact ⟨c, hreach, hlen, results, hall, hpre⟩

end SortPlatform.Stratus

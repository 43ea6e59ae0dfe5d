import SortPlatform.Lib.Machine
import SortPlatform.Stratus.Merge
import SortPlatform.Vp.Streaming

/-!
# The chain of merge modules and the PE of the virtual platform

The threads `do_merge` of `src/stratus/MergeW*.cpp`, wired as in `System.cpp`: `rgb`, `w1_w2`,
`w2_w4`, `w4_w8`, `result`, with `Testbench` at both ends. A channel is a blocking FIFO of words.

A module's thread handles a word at a time, so it is a block stage of `Lib.Pipeline` with blocks
of one word.

Principal results:

* `Chain.next_refines` — the chain behaves as that pipeline.
* `chain_inv` — what was fetched and what is still inside are the words of the stream, sorted.
* `designs_agree` — module by module, and stream by stream, the chain and a PE deliver the same
  bytes.
-/

set_option autoImplicit false

namespace SortPlatform.Stratus

open Dataflow RunMerge

/-! ## The thread of a module -/

/-- Where a `do_merge` thread is: in its reset, about to `get` a word, or to `put` one. -/
inductive ModulePc where
  | reset
  | input
  | output (result : Word)
  deriving DecidableEq

/-- A `do_merge` thread with its output array. -/
structure ModuleThread where
  pc : ModulePc
  C : Vector UInt8 16

/-- One step of module `m`; `none` while it is blocked. -/
def Module.next (m : Module) (t : ModuleThread) (i_rgb o_result : Fifo Word) :
    Option (ModuleThread × Fifo Word × Fifo Word) :=
  match t.pc with
  | .reset => some ({ t with pc := .input }, i_rgb, o_result)
  | .input =>
    i_rgb.read.bind fun p => (m.do_merge p.1 t.C).map fun r =>
      ({ pc := .output r.1, C := r.2 }, p.2, o_result)
  | .output result =>
    (o_result.write result).map fun q => ({ t with pc := .input }, i_rgb, q)

/-- The word a module puts for a word it gets. -/
def Module.image (m : Module) (word : Word) : Word := ofBytes (pass m.width (bytes word))

theorem Module.bytes_image (m : Module) (word : Word) :
    bytes (m.image word) = pass m.width (bytes word) :=
  bytes_ofBytes (by rw [pass_length, bytes_length])

/-- **A module puts its pass of the word**, whatever its array held. -/
theorem Module.do_merge_eq (m : Module) (word : Word) (C : Vector UInt8 16) :
    ∃ C', m.do_merge word C = some (m.image word, C') := by
  obtain ⟨w, C', h, hw⟩ := m.do_merge_spec word C
  have himage : w = m.image word := bytes_injective (by rw [hw, m.bytes_image])
  exact ⟨C', by rw [h, himage]⟩

/-- The block function of a module. -/
def Module.f (m : Module) (ws : List Word) : List Word := ws.map m.image

/-- The word a thread has still to put. -/
def ModuleThread.stage (t : ModuleThread) : Stage Word :=
  match t.pc with
  | .reset => .reading []
  | .input => .reading []
  | .output result => .writing [result]

/-- **A step of a module is the end of its reset or a step of the block stage.** -/
theorem Module.next_refines {m : Module} {t t' : ModuleThread} {i o i' o' : Fifo Word}
    (h : m.next t i o = some (t', i', o')) :
    (t'.stage = t.stage ∧ i' = i ∧ o' = o) ∨
      t.stage.next 1 m.f i o = some (t'.stage, i', o') := by
  obtain ⟨pc, C⟩ := t
  cases pc with
  | reset => cases h; exact Or.inl ⟨rfl, rfl, rfl⟩
  | input =>
    obtain ⟨⟨w, q⟩, hr, h⟩ := Option.bind_eq_some_iff.mp h
    obtain ⟨C', hm⟩ := m.do_merge_eq w C
    simp only [hm, Option.map_some] at h
    cases h
    refine Or.inr ?_
    simp only [ModuleThread.stage, Stage.next, hr, Option.map_some]
    rfl
  | output result =>
    obtain ⟨q, hw, he⟩ := Option.map_eq_some_iff.mp h
    cases he
    refine Or.inr ?_
    simp only [ModuleThread.stage, Stage.next, hw, Option.map_some]
    rfl

/-- A blocked module is blocked as a block stage. -/
theorem Module.next_blocked {m : Module} {t : ModuleThread} {i o : Fifo Word}
    (h : m.next t i o = none) : t.stage.next 1 m.f i o = none := by
  obtain ⟨pc, C⟩ := t
  cases pc with
  | reset => cases h
  | input =>
    cases hr : i.read with
    | none => simp only [ModuleThread.stage, Stage.next, hr, Option.map_none]
    | some p =>
      obtain ⟨C', hm⟩ := m.do_merge_eq p.1 C
      simp only [Module.next, hr, Option.bind_some, hm, Option.map_some] at h
      cases h
  | output result =>
    have hw : o.write result = none := Option.map_eq_none_iff.mp h
    simp only [ModuleThread.stage, Stage.next, hw, Option.map_none]

theorem Module.next_caps {m : Module} {t t' : ModuleThread} {i o i' o' : Fifo Word}
    (h : m.next t i o = some (t', i', o')) : i'.cap = i.cap ∧ o'.cap = o.cap := by
  obtain ⟨pc, C⟩ := t
  cases pc with
  | reset => cases h; exact ⟨rfl, rfl⟩
  | input =>
    obtain ⟨⟨w, q⟩, hr, h⟩ := Option.bind_eq_some_iff.mp h
    obtain ⟨r, -, he⟩ := Option.map_eq_some_iff.mp h
    cases he; exact ⟨(Fifo.read_eq_some.mp hr).2, rfl⟩
  | output result =>
    obtain ⟨q, hw, he⟩ := Option.map_eq_some_iff.mp h
    cases he; exact ⟨rfl, (Fifo.write_eq_some.mp hw).2.1⟩

/-! ## The chain -/

/-- The modules of `System` and the channels between them. -/
structure Chain where
  rgb : Fifo Word
  merge_w1 : ModuleThread
  w1_w2 : Fifo Word
  merge_w2 : ModuleThread
  w2_w4 : Fifo Word
  merge_w4 : ModuleThread
  w4_w8 : Fifo Word
  merge_w8 : ModuleThread
  result : Fifo Word

/-- One step of one module. -/
def Chain.next (c : Chain) : Module → Option Chain
  | .mergeW1 => (Module.mergeW1.next c.merge_w1 c.rgb c.w1_w2).map fun p =>
      { c with merge_w1 := p.1, rgb := p.2.1, w1_w2 := p.2.2 }
  | .mergeW2 => (Module.mergeW2.next c.merge_w2 c.w1_w2 c.w2_w4).map fun p =>
      { c with merge_w2 := p.1, w1_w2 := p.2.1, w2_w4 := p.2.2 }
  | .mergeW4 => (Module.mergeW4.next c.merge_w4 c.w2_w4 c.w4_w8).map fun p =>
      { c with merge_w4 := p.1, w2_w4 := p.2.1, w4_w8 := p.2.2 }
  | .mergeW8 => (Module.mergeW8.next c.merge_w8 c.w4_w8 c.result).map fun p =>
      { c with merge_w8 := p.1, w4_w8 := p.2.1, result := p.2.2 }

/-- `o_array.put(word)` of the test bench. -/
def Chain.put (c : Chain) (word : Word) : Option Chain :=
  (c.rgb.write word).map fun q => { c with rgb := q }

/-- `i_result.get()` of the test bench. -/
def Chain.get (c : Chain) : Option (Word × Chain) :=
  c.result.read.map fun p => (p.1, { c with result := p.2 })

/-- The capacities of the five channels. -/
def Chain.caps (c : Chain) : List Nat :=
  [c.rgb.cap, c.w1_w2.cap, c.w2_w4.cap, c.w4_w8.cap, c.result.cap]

/-- Elaboration: empty channels, every thread in its reset. -/
structure Chain.Fresh (c : Chain) : Prop where
  pcs : c.merge_w1.pc = .reset ∧ c.merge_w2.pc = .reset ∧ c.merge_w4.pc = .reset ∧
    c.merge_w8.pc = .reset
  bufs : c.rgb.buf = [] ∧ c.w1_w2.buf = [] ∧ c.w2_w4.buf = [] ∧ c.w4_w8.buf = [] ∧
    c.result.buf = []

/-- The pipeline behind `rgb`. -/
def Chain.cells (c : Chain) : List (Cell Word) :=
  [⟨Module.mergeW1.f, c.merge_w1.stage, c.w1_w2⟩, ⟨Module.mergeW2.f, c.merge_w2.stage, c.w2_w4⟩,
    ⟨Module.mergeW4.f, c.merge_w4.stage, c.w4_w8⟩, ⟨Module.mergeW8.f, c.merge_w8.stage, c.result⟩]

/-- The position of a module in the chain. -/
def Module.pos : Module → Nat
  | .mergeW1 => 0
  | .mergeW2 => 1
  | .mergeW4 => 2
  | .mergeW8 => 3

/-- **A step of a module is the end of its reset or a step of the pipeline.** -/
theorem Chain.next_refines {c c' : Chain} {m : Module} (h : c.next m = some c') :
    (c'.rgb = c.rgb ∧ c'.cells = c.cells) ∨
      stepAt 1 m.pos c.rgb c.cells = some (c'.rgb, c'.cells) := by
  cases m <;> obtain ⟨⟨t, i, o⟩, hd, rfl⟩ := Option.map_eq_some_iff.mp h <;>
    rcases Module.next_refines hd with ⟨hs, rfl, rfl⟩ | hn
  all_goals first
    | (refine Or.inl ⟨rfl, ?_⟩; simp only [Chain.cells, hs])
    | (refine Or.inr ?_; simp only [Chain.cells, Module.pos, stepAt, hn, Option.map_some])

/-- When no module can step, the pipeline is blocked. -/
theorem Chain.blocked_cells {c : Chain} (h : ∀ m, c.next m = none) :
    Blocked 1 c.rgb c.cells := by
  have h1 := Module.next_blocked (Option.map_eq_none_iff.mp (h .mergeW1))
  have h2 := Module.next_blocked (Option.map_eq_none_iff.mp (h .mergeW2))
  have h4 := Module.next_blocked (Option.map_eq_none_iff.mp (h .mergeW4))
  have h8 := Module.next_blocked (Option.map_eq_none_iff.mp (h .mergeW8))
  intro n
  match n with
  | 0 => simp only [Chain.cells, stepAt, h1, Option.map_none]
  | 1 => simp only [Chain.cells, stepAt, h2, Option.map_none]
  | 2 => simp only [Chain.cells, stepAt, h4, Option.map_none]
  | 3 => simp only [Chain.cells, stepAt, h8, Option.map_none]
  | n + 4 => simp only [Chain.cells, stepAt, Option.map_none]

theorem Chain.next_caps {c c' : Chain} {m : Module} (h : c.next m = some c') :
    c'.caps = c.caps := by
  cases m <;> obtain ⟨⟨t, i, o⟩, hd, rfl⟩ := Option.map_eq_some_iff.mp h <;>
    obtain ⟨hi, ho⟩ := Module.next_caps hd <;> simp only [Chain.caps, hi, ho]

/-- With blocks of one word every count is balanced. -/
theorem Chain.balanced (c : Chain) (w n b : Nat) : Balanced 1 w n c.cells b := by
  have hwf : ∀ t : ModuleThread, t.stage.WF 1 := by
    intro t
    obtain ⟨pc, C⟩ := t
    cases pc <;> simp [ModuleThread.stage, Stage.WF]
  simp only [Chain.cells, Dataflow.Balanced, Nat.mod_one, true_and]
  exact ⟨hwf _, hwf _, hwf _, hwf _, trivial⟩

theorem Chain.keepsLength (c : Chain) : KeepsLength 1 c.cells := by
  intro d hd b hb
  simp only [Chain.cells, List.mem_cons, List.not_mem_nil, or_false] at hd
  rcases hd with rfl | rfl | rfl | rfl <;> simp only [Module.f, List.length_map, hb]

theorem Chain.Fresh.idle {c : Chain} (h : c.Fresh) : Idle c.cells := by
  obtain ⟨h1, h2, h4, h8⟩ := h.pcs
  obtain ⟨-, b1, b2, b4, b8⟩ := h.bufs
  intro d hd
  simp only [Chain.cells, List.mem_cons, List.not_mem_nil, or_false] at hd
  rcases hd with rfl | rfl | rfl | rfl <;> simp [ModuleThread.stage, *]

/-- The word with the same bytes in ascending order. -/
def sortWord (word : Word) : Word := ofBytes (bytes word).mergeSort

theorem bytes_sortWord (word : Word) : bytes (sortWord word) = (bytes word).mergeSort :=
  bytes_ofBytes (by rw [List.length_mergeSort, bytes_length])

/-- **The four modules together sort a word.** -/
theorem Chain.through_cells (c : Chain) (word : Word) : through c.cells [word] = [sortWord word] := by
  have h : through c.cells [word] = [Module.mergeW8.image (Module.mergeW4.image
    (Module.mergeW2.image (Module.mergeW1.image word)))] := rfl
  rw [h, List.cons.injEq, eq_self_iff_true, and_true]
  apply bytes_injective
  rw [bytes_sortWord, Module.bytes_image, Module.bytes_image, Module.bytes_image,
    Module.bytes_image]
  exact passes_eq_mergeSort (bytes_length word)

/-- **Words put into the chain come out last, sorted, in order.** -/
theorem Chain.flow_words (c : Chain) (xs : List Word) : ∀ ws : List Word,
    flow 1 c.cells (xs ++ ws) = flow 1 c.cells xs ++ ws.map sortWord := by
  intro ws
  induction ws generalizing xs with
  | nil => simp
  | cons w ws ih =>
    have hblock := flow_block (by omega) c.keepsLength (c.balanced 0 xs.length 0) (Nat.zero_mod 1)
      [w] rfl
    rw [c.through_cells] at hblock
    rw [List.append_cons, ih, hblock, List.map_cons, List.append_assoc]
    rfl

/-! ## A stream through the chain -/

/-- The chain between the two threads of the test bench. -/
structure Stream where
  chain : Chain
  /-- The words still to be put. -/
  todo : List Word
  /-- The words fetched. -/
  outputs : List Word

inductive StreamAct where
  /-- The test bench puts its next word. -/
  | put
  /-- The test bench fetches a word. -/
  | get
  /-- A step of a module. -/
  | module (m : Module)

def Stream.next (s : Stream) : StreamAct → Option Stream
  | .put =>
    match s.todo with
    | [] => none
    | w :: rest => (s.chain.put w).map fun c => { s with chain := c, todo := rest }
  | .get => s.chain.get.map fun p => { s with chain := p.2, outputs := s.outputs ++ [p.1] }
  | .module m => (s.chain.next m).map fun c => { s with chain := c }

/-- The chain right after elaboration, with channels of capacities `caps`, and the words `ws` to
sort. -/
def stream (caps : List Nat) (ws : List Word) : Machine Stream StreamAct where
  init s := s.chain.Fresh ∧ s.chain.caps = caps ∧ s.todo = ws ∧ s.outputs = []
  next := Stream.next

/-- No further step is possible. -/
def Stream.Finished (s : Stream) : Prop := ∀ a, s.next a = none

/-- The invariant: **what was fetched, is inside and is still to be put are together the sorted
words of the stream**. -/
structure Stream.Inv (caps : List Nat) (ws : List Word) (s : Stream) : Prop where
  caps_eq : s.chain.caps = caps
  flow : s.outputs ++ flow 1 s.chain.cells (s.chain.rgb.buf ++ s.todo) = ws.map sortWord

theorem stream_init {caps : List Nat} {ws : List Word} {s : Stream}
    (h : (stream caps ws).init s) : s.Inv caps ws := by
  obtain ⟨hf, hcap, htodo, hout⟩ := h
  refine ⟨hcap, ?_⟩
  rw [hout, htodo, hf.bufs.1, s.chain.flow_words, hf.idle.flow_nil]
  rfl

theorem Stream.Inv.next {caps : List Nat} {ws : List Word} {s s' : Stream} {a : StreamAct}
    (hi : s.Inv caps ws) (h : s.next a = some s') : s'.Inv caps ws := by
  obtain ⟨hcap, hflow⟩ := hi
  cases a with
  | put =>
    simp only [Stream.next] at h
    split at h
    · cases h
    · rename_i w rest htodo
      obtain ⟨c, hp, rfl⟩ := Option.map_eq_some_iff.mp h
      obtain ⟨q, hw, rfl⟩ := Option.map_eq_some_iff.mp hp
      obtain ⟨-, hc, hb⟩ := Fifo.write_eq_some.mp hw
      refine ⟨by rw [← hcap]; simp only [Chain.caps, hc], ?_⟩
      rw [htodo] at hflow
      show s.outputs ++ Dataflow.flow 1 s.chain.cells (q.buf ++ rest) = _
      rw [hb, List.append_assoc]
      exact hflow
  | get =>
    obtain ⟨⟨w, c⟩, hg, rfl⟩ := Option.map_eq_some_iff.mp h
    obtain ⟨⟨y, q⟩, hr, he⟩ := Option.map_eq_some_iff.mp hg
    cases he
    have hpop : popLast s.chain.rgb s.chain.cells =
        some (y, s.chain.rgb, Chain.cells { s.chain with result := q }) := by
      simp only [Chain.cells, popLast, hr, Option.map_some]
    refine ⟨by rw [← hcap]; simp only [Chain.caps, (Fifo.read_eq_some.mp hr).2], ?_⟩
    rw [popLast_flow hpop] at hflow
    show s.outputs ++ [y] ++ _ = _
    rw [← hflow, List.append_assoc]
    rfl
  | module m =>
    obtain ⟨c, hm, rfl⟩ := Option.map_eq_some_iff.mp h
    refine ⟨(Chain.next_caps hm).trans hcap, ?_⟩
    rw [← hflow]
    rcases Chain.next_refines hm with ⟨hq, hcs⟩ | hs
    · simp only [hq, hcs]
    · exact congrArg (s.outputs ++ ·) (stepAt_flow hs _)

/-- **The invariant holds in every reachable state.** -/
theorem chain_inv {caps : List Nat} {ws : List Word} {s : Stream}
    (h : (stream caps ws).Reach s) : s.Inv caps ws :=
  h.invariant (fun _ h0 => stream_init h0) fun _ _ _ hi _ hn => hi.next hn

/-- A finished chain has delivered the whole stream. -/
theorem Stream.Inv.finished {caps : List Nat} {ws : List Word} {s : Stream}
    (hpos : ∀ c ∈ caps, 0 < c) (hi : s.Inv caps ws) (hf : s.Finished) :
    s.outputs = ws.map sortWord := by
  obtain ⟨hcap, hflow⟩ := hi
  have hblocked : Blocked 1 s.chain.rgb s.chain.cells :=
    Chain.blocked_cells fun m => Option.map_eq_none_iff.mp (hf (.module m))
  rw [← hcap] at hpos
  simp only [Chain.caps, List.forall_mem_cons] at hpos
  have hcells : ∀ c ∈ s.chain.cells, 0 < c.out.cap := by
    simp only [Chain.cells, List.forall_mem_cons]
    exact ⟨hpos.2.1, hpos.2.2.1, hpos.2.2.2.1, hpos.2.2.2.2.1, fun c hc => absurd hc List.not_mem_nil⟩
  have hempty : (lastFifo s.chain.rgb s.chain.cells).buf = [] :=
    Fifo.read_eq_none.mp (Option.map_eq_none_iff.mp (Option.map_eq_none_iff.mp (hf .get)))
  obtain ⟨hrgb, hidle, -⟩ := jammed_empty (s.chain.balanced 0 _ 0) hblocked hcells hempty
    (Nat.zero_mod 1)
  have htodo : s.todo = [] := by
    have hput := hf .put
    simp only [Stream.next] at hput
    split at hput
    · assumption
    · rw [Option.map_eq_none_iff, Chain.put, Option.map_eq_none_iff, Fifo.write_eq_none, hrgb,
        List.length_nil] at hput
      exact absurd hput (Nat.ne_of_lt hpos.1)
  rw [hrgb, htodo, List.append_nil, hidle.flow_nil, List.append_nil] at hflow
  exact hflow

/-! ## Agreement with the virtual platform -/

open Vp in
/-- The PE has taken in everything that was written, and nothing more can come out. -/
def PeFinished (s : Traffic) : Prop :=
  s.sending = [] ∧ s.pe.pop = none ∧ ∀ w, s.next (.thread w) = none

open Vp in
/-- **The two designs agree.** Module by module: for any word and any array contents, the module
puts the word of the bytes that the thread of the same width writes for the bytes of that word.
Stream by stream: the words fetched from the chain and the blocks returned by a PE that is
given the same bytes agree wherever both exist, and are the same stream once both designs have
come to rest. -/
theorem designs_agree :
    (∀ (m : Module) (word : Word) (C : Vector UInt8 16) (t : MergeThread)
        (i_array o_array : Fifo UInt8), t.pc = .input 0 → i_array.buf = bytes word →
        o_array.buf.length + 16 ≤ o_array.cap →
      ∃ result C' t' i' o', m.do_merge word C = some (result, C') ∧
        steps (MergeThread.step m.width) 32 (t, i_array, o_array) = some (t', i', o') ∧
        t'.pc = .input 0 ∧ i'.buf = [] ∧ o'.buf = o_array.buf ++ bytes result) ∧
    (∀ (ws : List Word) (caps peCaps : List Nat) (c : Stream) (s : Traffic),
        (stream caps ws).Reach c → (traffic peCaps).Reach s → s.written <+: ws.map bytes →
      (∀ n (hc : n < c.outputs.length) (hs : n < s.returned.length),
        bytes c.outputs[n] = s.returned[n]) ∧
      ((∀ k ∈ caps, 0 < k) → (∀ k ∈ peCaps, 0 < k) → s.written = ws.map bytes →
        c.Finished → PeFinished s → c.outputs.map bytes = s.returned)) := by
  have hsorted : ∀ {ws : List Word} {s : Traffic} {n : Nat} {hs : n < s.returned.length}
      {hw : n < s.written.length}, s.written <+: ws.map bytes →
      s.returned[n] = (s.written[n]).mergeSort →
      ∃ h : n < ws.length, s.returned[n] = bytes (sortWord ws[n]) := by
    intro ws s n hs hw hpre heq
    have hlen := hpre.length_le
    rw [List.length_map] at hlen
    have hn : n < ws.length := by omega
    refine ⟨hn, ?_⟩
    rw [heq, hpre.getElem hw, List.getElem_map, bytes_sortWord]
  refine ⟨?_, ?_⟩
  · intro m word C t i_array o_array hpc hi ho
    have hW : IsWidth m.width := by
      cases m
      · exact isWidth_1
      · exact isWidth_2
      · exact isWidth_4
      · exact isWidth_8
    obtain ⟨C', hm⟩ := m.do_merge_eq word C
    obtain ⟨t', i', o', hrun, hpc', hi', ho'⟩ := do_merge_block hW hpc
      (by rw [hi]; exact bytes_length word) ho
    refine ⟨_, C', t', i', o', hm, hrun, hpc', hi', ?_⟩
    rw [ho', hi, m.bytes_image]
  · intro ws caps peCaps c s hc hs hpre
    have hinv := chain_inv hc
    have hret := (returned_sorted peCaps s hs).2
    refine ⟨fun n hcn hsn => ?_, fun hpos hpos' heq hfin hpe => ?_⟩
    · obtain ⟨hw, hsn'⟩ := hret n hsn
      obtain ⟨hn, hb⟩ := hsorted hpre hsn'
      have hout : c.outputs <+: ws.map sortWord := ⟨_, hinv.flow⟩
      rw [hb, hout.getElem hcn, List.getElem_map]
    · have hlen := (traffic_inv hs).drained hpos' hpe.1 hpe.2.1 hpe.2.2
      rw [hinv.finished hpos hfin]
      apply List.ext_getElem
      · rw [hlen, heq]; simp
      · intro n h1 h2
        obtain ⟨hw, hsn'⟩ := hret n h2
        obtain ⟨hn, hb⟩ := hsorted hpre hsn'
        rw [hb, List.getElem_map, List.getElem_map]

/-! ### One word -/

/-- A thread before its first step. -/
def ModuleThread.boot : ModuleThread := ⟨.reset, Vector.replicate 16 0⟩

/-- The chain before its first step, every channel of capacity `cap`. -/
def Chain.boot (cap : Nat) : Chain :=
  ⟨.empty cap, .boot, .empty cap, .boot, .empty cap, .boot, .empty cap, .boot, .empty cap⟩

/-- The bytes 80, 75, …, 5. -/
def descending : Word := 0x050a0f14191e23282d32373c41464b50

/-- The word is put, handled by one module after the other, and fetched. -/
def oneWord : List StreamAct :=
  .put :: List.replicate 3 (.module .mergeW1) ++ List.replicate 3 (.module .mergeW2) ++
    List.replicate 3 (.module .mergeW4) ++ List.replicate 3 (.module .mergeW8) ++ [.get]

open Vp in
set_option maxRecDepth 20000 in
/-- A descending word through the chain and through a PE. -/
theorem designs_agree_descending : ∃ c s, (stream [1, 1, 1, 1, 1] [descending]).Reach c ∧
    (traffic [16, 16, 16, 16, 16]).Reach s ∧ s.written = [bytes descending] ∧
    ∃ (hc : 0 < c.outputs.length) (hs : 0 < s.returned.length),
      bytes c.outputs[0] = s.returned[0] := by
  have hchain : ((stream [1, 1, 1, 1, 1] [descending]).exec
      ⟨Chain.boot 1, [descending], []⟩ oneWord).map (fun c => c.outputs.length) = some 1 := by
    decide +kernel
  have hpe : ((traffic [16, 16, 16, 16, 16]).exec (Traffic.boot 16)
      (oneBlock fun i => getRange descending (8 * i))).map
        (fun s => (s.written, s.returned.length)) = some ([bytes descending], 1) := by
    decide +kernel
  obtain ⟨c, hc, houtputs⟩ := Option.map_eq_some_iff.mp hchain
  obtain ⟨s, hs, hret⟩ := Option.map_eq_some_iff.mp hpe
  have hboot : (stream [1, 1, 1, 1, 1] [descending]).init ⟨Chain.boot 1, [descending], []⟩ :=
    ⟨⟨⟨rfl, rfl, rfl, rfl⟩, rfl, rfl, rfl, rfl, rfl⟩, rfl, rfl, rfl⟩
  have hcr := Machine.reach_exec (.init hboot) hc
  have hsr := Machine.reach_exec (Traffic.boot_reach 16 _) hs
  have hw : s.written = [bytes descending] := congrArg Prod.fst hret
  have hlen : s.returned.length = 1 := congrArg Prod.snd hret
  have hagree := designs_agree.2 [descending] [1, 1, 1, 1, 1] [16, 16, 16, 16, 16] c s hcr hsr
    (by rw [hw]; exact List.prefix_rfl)
  exact ⟨c, s, hcr, hsr, hw, by omega, by omega, hagree.1 0 _ _⟩

end SortPlatform.Stratus

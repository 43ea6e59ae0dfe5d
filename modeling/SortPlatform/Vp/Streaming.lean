import SortPlatform.Lib.Machine
import SortPlatform.Vp.Pe

/-!
# A PE under arbitrary traffic

`traffic caps` runs one PE with FIFOs of the given capacities. Blocks are written through
`MergeW1::blocking_transport` at `SOBEL_FILTER_R_ADDR`, one transport after the other, and read
through `MergeW8::blocking_transport` at `SOBEL_FILTER_RESULT_ADDR`, one transport after the
other; both proceed byte by byte and interleave freely with each other and with the four
`do_merge` threads.

Principal result: `returned_sorted` — in every reachable state the completed reads have
returned the sorted blocks, in the order in which the blocks were written.
-/

set_option autoImplicit false

namespace SortPlatform.Vp

open Dataflow RunMerge

/-- A PE with the transports in progress and what went through them. -/
structure Traffic where
  pe : Pe
  /-- `data_ptr[i], …, data_ptr[15]` of the write in progress; empty between writes. -/
  sending : List UInt8
  /-- The blocks whose write has begun. -/
  written : List (List UInt8)
  /-- `o_buffer` as far as it is filled, of the read in progress. -/
  receiving : Option (List UInt8)
  /-- The bytes the completed reads have returned. -/
  returned : List (List UInt8)

inductive TrafficAct where
  /-- A write transport is called with the given data. -/
  | beginWrite (data : Nat → UInt8)
  /-- `i_array.write(data_ptr[i])`. -/
  | write
  /-- A read transport is called. -/
  | beginRead
  /-- One `o_array.read()`; after the sixteenth the transport returns. -/
  | read (junk data : Nat → UInt8)
  /-- A step of a `do_merge` thread. -/
  | thread (w : Thread)

def Traffic.next (s : Traffic) : TrafficAct → Option Traffic
  | .beginWrite data =>
    if s.sending = [] then
      let block := (MergeW1.blocking_transport (writePayload data 16)).1
      some { s with sending := block, written := s.written ++ [block] }
    else none
  | .write =>
    match s.sending with
    | [] => none
    | x :: rest => (s.pe.push x).map fun pe => { s with pe := pe, sending := rest }
  | .beginRead => if s.receiving = none then some { s with receiving := some [] } else none
  | .read junk data =>
    match s.receiving with
    | none => none
    | some got => s.pe.pop.map fun p =>
      let got := got ++ [p.1]
      let payload := readPayload data 16
      if got.length < MergeW8.demand payload then { s with pe := p.2, receiving := some got }
      else { s with
        pe := p.2
        receiving := none
        returned := s.returned ++ [bytesOf (MergeW8.finish junk payload got).data 16] }
  | .thread w => (s.pe.next w).map fun pe => { s with pe := pe }

/-- A PE right after elaboration, with FIFOs of capacities `caps`. -/
def traffic (caps : List Nat) : Machine Traffic TrafficAct where
  init s := s.pe.Fresh ∧ s.pe.caps = caps ∧ s.sending = [] ∧ s.written = [] ∧
    s.receiving = none ∧ s.returned = []
  next := Traffic.next

/-- The bytes the read in progress has taken. -/
def Traffic.taken (s : Traffic) : List UInt8 := s.receiving.getD []

/-- The invariant: byte counts, and **what was returned, what a read in progress has taken and
what the PE will still deliver are together the sorted blocks**. -/
structure Traffic.Inv (caps : List Nat) (s : Traffic) : Prop where
  wf : s.pe.WF
  caps_eq : s.pe.caps = caps
  block : ∀ b ∈ s.written, b.length = 16
  result : ∀ b ∈ s.returned, b.length = 16
  sending_le : s.sending.length ≤ 16
  sending_pos : s.sending ≠ [] → s.written ≠ []
  taken_lt : s.taken.length < 16
  held : s.pe.held + (16 * s.returned.length + s.taken.length) + s.sending.length =
    16 * s.written.length
  counts : ∃ m, m + s.sending.length = 16 * s.written.length ∧
    s.pe.Counts m (16 * s.returned.length + s.taken.length)
  flow : s.returned.flatten ++ (s.taken ++ s.pe.outflow s.sending) =
    (s.written.map fun b => b.mergeSort).flatten

theorem traffic_init {caps : List Nat} {s : Traffic} (h : (traffic caps).init s) :
    s.Inv caps := by
  obtain ⟨hf, hcap, hs, hw, hr, hret⟩ := h
  have ht : s.taken = [] := by rw [Traffic.taken, hr]; rfl
  refine ⟨hf.wf, hcap, by simp [hw], by simp [hret], by simp [hs], by simp [hs], by simp [ht],
    by simp [hf.held, hs, hw, ht, hret], ⟨0, by simp [hs, hw], ?_⟩, ?_⟩
  · simpa [ht, hret] using hf.counts
  · simp [hs, hw, ht, hret, hf.outflow_nil]

/-! ## One lemma per action -/

section Step

variable {caps : List Nat} {s s' : Traffic}

theorem Traffic.Inv.beginWrite (hi : s.Inv caps) {data : Nat → UInt8}
    (h : s.next (.beginWrite data) = some s') : s'.Inv caps := by
  simp only [Traffic.next] at h
  split at h
  · rename_i hs
    cases h
    obtain ⟨m, hm, hc⟩ := hi.counts
    rw [hs, List.length_nil, Nat.add_zero] at hm
    have hlen : (bytesOf data 16).length = 16 := bytesOf_length data 16
    have hout := Pe.outflow_block [] hc (by simp [hm]) hlen
    rw [List.nil_append] at hout
    refine ⟨hi.wf, hi.caps_eq, ?_, hi.result, ?_, ?_, hi.taken_lt, ?_, ⟨m, ?_, hc⟩, ?_⟩
    · intro b hb
      rcases List.mem_append.mp hb with hb | hb
      · exact hi.block b hb
      · rw [List.mem_singleton.mp hb]; exact hlen
    · exact Nat.le_of_eq hlen
    · simp
    · have := hi.held
      rw [hs, List.length_nil] at this
      simp only [blocking_transport_writePayload, hlen, List.length_append,
        List.length_singleton]
      rw [Nat.mul_succ]
      exact congrArg (· + 16) this
    · simp only [blocking_transport_writePayload, hlen, List.length_append,
        List.length_singleton]
      omega
    · have hflow := hi.flow
      rw [hs] at hflow
      show s.returned.flatten ++ (s.taken ++ s.pe.outflow (bytesOf data 16)) = _
      rw [hout, List.map_append, List.flatten_append, ← hflow]
      simp
  · cases h

theorem Traffic.Inv.write (hi : s.Inv caps) (h : s.next .write = some s') : s'.Inv caps := by
  simp only [Traffic.next] at h
  split at h
  · cases h
  · rename_i x rest hs
    obtain ⟨pe, hp, rfl⟩ := Option.map_eq_some_iff.mp h
    have hlen : s.sending.length = rest.length + 1 := by rw [hs]; rfl
    have hle := hi.sending_le
    obtain ⟨m, hm, hc⟩ := hi.counts
    refine ⟨Pe.push_wf hi.wf hp, (Pe.push_caps hp).trans hi.caps_eq, hi.block, hi.result, ?_, ?_,
      hi.taken_lt, ?_, ⟨m + 1, ?_, Pe.push_counts hp hc⟩, ?_⟩
    · dsimp only; omega
    · exact fun _ => hi.sending_pos (by rw [hs]; exact List.cons_ne_nil _ _)
    · have := hi.held
      rw [hlen] at this
      dsimp only [Traffic.taken] at this ⊢
      rw [Pe.push_held hp]
      omega
    · dsimp only; omega
    · have := hi.flow
      rw [hs, ← Pe.push_outflow hp] at this
      exact this

theorem Traffic.Inv.beginRead (hi : s.Inv caps) (h : s.next .beginRead = some s') :
    s'.Inv caps := by
  simp only [Traffic.next] at h
  split at h
  · rename_i hr
    cases h
    have ht : s.taken = [] := by rw [Traffic.taken, hr]; rfl
    obtain ⟨wf, cap, block, result, sle, spos, -, held, counts, flow⟩ := hi
    rw [ht] at held counts flow
    exact ⟨wf, cap, block, result, sle, spos, by simp [Traffic.taken], held, counts, flow⟩
  · cases h

theorem Traffic.Inv.read (hi : s.Inv caps) {junk data : Nat → UInt8}
    (h : s.next (.read junk data) = some s') : s'.Inv caps := by
  simp only [Traffic.next] at h
  split at h
  · cases h
  · rename_i got hr
    obtain ⟨⟨x, pe⟩, hp, rfl⟩ := Option.map_eq_some_iff.mp h
    have ht : s.taken = got := by rw [Traffic.taken, hr]; rfl
    obtain ⟨m, hm, hc⟩ := hi.counts
    have hlt := hi.taken_lt
    have hheld := hi.held
    have hpop := Pe.pop_held hp
    have hflow := hi.flow
    have hc' := Pe.pop_counts hp hc
    rw [Pe.pop_outflow hp] at hflow
    rw [ht] at hlt hheld hflow hc'
    rw [Nat.add_assoc] at hc'
    have hwf := Pe.pop_wf hi.wf hp
    have hcaps := (Pe.pop_caps hp).trans hi.caps_eq
    simp only [demand_readPayload, List.length_append, List.length_singleton]
    split
    · rename_i hlt'
      refine ⟨hwf, hcaps, hi.block, hi.result, hi.sending_le, hi.sending_pos, ?_, ?_,
        ⟨m, hm, ?_⟩, ?_⟩
      · simp only [Traffic.taken, Option.getD_some, List.length_append, List.length_singleton]
        exact hlt'
      · simp only [Traffic.taken, Option.getD_some, List.length_append, List.length_singleton]
        omega
      · simpa only [Traffic.taken, Option.getD_some, List.length_append, List.length_singleton]
          using hc'
      · simp only [Traffic.taken, Option.getD_some]
        rw [← hflow]
        simp
    · -- the sixteenth byte completes the block
      have hgot : (got ++ [x]).length = 16 := by
        rw [List.length_append, List.length_singleton]; omega
      rw [bytesOf_finish_readPayload junk data 16 hgot]
      have hgot' : got.length = 15 := by
        rw [List.length_append, List.length_singleton] at hgot; omega
      refine ⟨hwf, hcaps, hi.block, ?_, hi.sending_le, hi.sending_pos, by simp [Traffic.taken],
        ?_, ⟨m, hm, ?_⟩, ?_⟩
      · intro b hb
        rcases List.mem_append.mp hb with hb | hb
        · exact hi.result b hb
        · rw [List.mem_singleton.mp hb]; exact hgot
      · simp only [Traffic.taken, Option.getD_none, List.length_append, List.length_singleton,
          List.length_nil]
        omega
      · simp only [Traffic.taken, Option.getD_none, List.length_append, List.length_singleton,
          List.length_nil]
        rw [hgot'] at hc'
        rw [Nat.mul_succ]
        exact hc'
      · simp only [Traffic.taken, Option.getD_none, List.nil_append, List.flatten_append,
          List.flatten_singleton]
        rw [← hflow]
        simp

theorem Traffic.Inv.thread (hi : s.Inv caps) {w : Thread} (h : s.next (.thread w) = some s') :
    s'.Inv caps := by
  obtain ⟨pe, hp, rfl⟩ := Option.map_eq_some_iff.mp h
  obtain ⟨wf, cap, block, result, sle, spos, tlt, held, ⟨m, hm, counts⟩, flow⟩ := hi
  refine ⟨(Pe.next_refines wf hp).1, (Pe.next_caps hp).trans cap, block, result, sle, spos, tlt,
    ?_, ⟨m, hm, Pe.next_counts wf hp counts⟩, ?_⟩
  · rw [← held, ← Pe.next_held wf hp]; rfl
  · rw [← flow, ← Pe.next_outflow wf hp]; rfl

end Step

/-- **The invariant holds in every reachable state**, whatever the traffic and the schedule. -/
theorem traffic_inv {caps : List Nat} {ok : Traffic → TrafficAct → Prop} {s : Traffic}
    (h : (traffic caps).ReachBy ok s) : s.Inv caps := by
  refine h.invariant (fun s h0 => traffic_init h0) ?_
  intro s a s' hi _ hn
  cases a with
  | beginWrite data => exact hi.beginWrite hn
  | write => exact hi.write hn
  | beginRead => exact hi.beginRead hn
  | read junk data => exact hi.read hn
  | thread w => exact hi.thread hn

/-! ## What is on record -/

/-- A step that leaves the record alone. -/
structure Traffic.Quiet (s s' : Traffic) : Prop where
  sending : s'.sending = s.sending
  written : s'.written = s.written
  returned : s'.returned = s.returned

theorem Traffic.Quiet.refl (s : Traffic) : s.Quiet s := ⟨rfl, rfl, rfl⟩

section Record

variable {s s' : Traffic}

theorem Traffic.next_beginWrite {data : Nat → UInt8} (h : s.next (.beginWrite data) = some s') :
    s'.sending = bytesOf data 16 ∧ s'.written = s.written ++ [bytesOf data 16] ∧
      s'.returned = s.returned := by
  simp only [Traffic.next, blocking_transport_writePayload] at h
  split at h
  · cases h
    exact ⟨rfl, rfl, rfl⟩
  · cases h

theorem Traffic.next_write (h : s.next .write = some s') :
    s.sending ≠ [] ∧ s'.written = s.written ∧ s'.returned = s.returned := by
  simp only [Traffic.next] at h
  split at h
  · cases h
  · rename_i hs
    obtain ⟨pe, -, rfl⟩ := Option.map_eq_some_iff.mp h
    exact ⟨by simp [hs], rfl, rfl⟩

theorem Traffic.next_beginRead (h : s.next .beginRead = some s') : s.Quiet s' := by
  simp only [Traffic.next] at h
  split at h
  · cases h
    exact ⟨rfl, rfl, rfl⟩
  · cases h

/-- A read puts one result on record with its last byte, and nothing before. -/
theorem Traffic.next_read {junk data : Nat → UInt8} (h : s.next (.read junk data) = some s') :
    s'.sending = s.sending ∧ s'.written = s.written ∧
      ((s'.receiving ≠ none ∧ s'.returned = s.returned) ∨
        (s'.receiving = none ∧ ∃ x, s'.returned = s.returned ++ [x])) := by
  simp only [Traffic.next] at h
  split at h
  · cases h
  · obtain ⟨⟨x, pe⟩, -, rfl⟩ := Option.map_eq_some_iff.mp h
    split
    · exact ⟨rfl, rfl, Or.inl ⟨by simp, rfl⟩⟩
    · exact ⟨rfl, rfl, Or.inr ⟨rfl, _, rfl⟩⟩

theorem Traffic.next_thread {w : Thread} (h : s.next (.thread w) = some s') : s.Quiet s' := by
  obtain ⟨pe, -, rfl⟩ := Option.map_eq_some_iff.mp h
  exact ⟨rfl, rfl, rfl⟩

end Record

/-- **Nothing is stuck inside a PE**: when every begun write is complete, no thread can step and
`o_array` is empty, every written block has been read. -/
theorem Traffic.Inv.drained {caps : List Nat} {s : Traffic} (hi : s.Inv caps)
    (hpos : ∀ c ∈ caps, 0 < c) (hs : s.sending = []) (hpop : s.pe.pop = none)
    (hst : ∀ w, s.next (.thread w) = none) : s.returned.length = s.written.length := by
  obtain ⟨m, hm, hc⟩ := hi.counts
  have hblocked : Blocked 16 s.pe.i_array s.pe.cells :=
    Pe.blocked_cells hi.wf fun w => Option.map_eq_none_iff.mp (hst w)
  have hcap : ∀ c ∈ s.pe.cells, 0 < c.out.cap := by
    rw [← hi.caps_eq] at hpos
    simp only [Pe.caps, List.forall_mem_cons] at hpos
    simp only [Pe.cells, List.forall_mem_cons]
    exact ⟨hpos.2.1, hpos.2.2.1, hpos.2.2.2.1, hpos.2.2.2.2.1, fun c hc => absurd hc List.not_mem_nil⟩
  have hempty : (lastFifo s.pe.i_array s.pe.cells).buf = [] :=
    Fifo.read_eq_none.mp (Option.map_eq_none_iff.mp hpop)
  rw [hs, List.length_nil, Nat.add_zero] at hm
  obtain ⟨hi0, hidle, -⟩ := jammed_empty hc hblocked hcap hempty (by omega)
  have hheld := hi.held
  have hlt := hi.taken_lt
  rw [Pe.held, hi0, hidle.load_eq_zero, hs] at hheld
  simp only [List.length_nil] at hheld
  omega

/-- **Streaming correctness of a PE**: the bytes returned so far are a prefix of the sorted
blocks in the order of their writes, and the `i`-th completed read returned exactly the `i`-th
block, sorted. -/
theorem returned_sorted (caps : List Nat) (s : Traffic) (h : (traffic caps).Reach s) :
    s.returned.flatten <+: (s.written.map fun b => b.mergeSort).flatten ∧
    ∀ i (hi : i < s.returned.length), ∃ hw : i < s.written.length,
      s.returned[i] = (s.written[i]).mergeSort := by
  have hinv := traffic_inv h
  have hpre : s.returned.flatten <+: (s.written.map fun b => b.mergeSort).flatten :=
    ⟨_, hinv.flow⟩
  refine ⟨hpre, fun i hi => ?_⟩
  have hblocks : s.returned <+: s.written.map fun b => b.mergeSort := by
    refine prefix_of_flatten_prefix (w := 16) (by omega) hinv.result ?_ hpre
    intro b hb
    obtain ⟨c, hc, rfl⟩ := List.mem_map.mp hb
    rw [List.length_mergeSort]
    exact hinv.block c hc
  have hlen := hblocks.length_le
  rw [List.length_map] at hlen
  refine ⟨by omega, ?_⟩
  rw [hblocks.getElem hi, List.getElem_map]

/-! ### A run -/

/-- A thread before its first step, with zeroed arrays. -/
def MergeThread.boot : MergeThread := ⟨.wait, Vector.replicate 16 0, Vector.replicate 16 0⟩

/-- A PE before its first step, every FIFO of capacity `cap`. -/
def Pe.boot (cap : Nat) : Pe :=
  ⟨.empty cap, .boot, .empty cap, .boot, .empty cap, .boot, .empty cap, .boot, .empty cap⟩

theorem Pe.boot_fresh (cap : Nat) : (Pe.boot cap).Fresh :=
  ⟨⟨rfl, rfl, rfl, rfl⟩, ⟨rfl, rfl, rfl, rfl, rfl⟩⟩

/-- Idle traffic at a PE before its first step. -/
def Traffic.boot (cap : Nat) : Traffic := ⟨.boot cap, [], [], none, []⟩

theorem Traffic.boot_reach (cap : Nat) (ok : Traffic → TrafficAct → Prop) :
    (traffic [cap, cap, cap, cap, cap]).ReachBy ok (Traffic.boot cap) :=
  .init ⟨Pe.boot_fresh cap, rfl, rfl, rfl, rfl, rfl⟩

/-- One block is written, runs through the stages one after the other, and is read. -/
def oneBlock (data : Nat → UInt8) : List TrafficAct :=
  .beginWrite data :: List.replicate 16 .write ++
    List.replicate 33 (.thread .mergeW1) ++ List.replicate 33 (.thread .mergeW2) ++
    List.replicate 33 (.thread .mergeW4) ++ List.replicate 33 (.thread .mergeW8) ++
    .beginRead :: List.replicate 16 (.read (fun _ => 0) (fun _ => 0))

set_option maxRecDepth 20000 in
/-- A descending block written and read at default capacities. -/
theorem returned_sorted_oneBlock : ∃ s, (traffic [16, 16, 16, 16, 16]).Reach s ∧
    s.returned = [[5, 10, 15, 20, 25, 30, 35, 40, 45, 50, 55, 60, 65, 70, 75, 80]] ∧
    s.returned.flatten <+: (s.written.map fun b => b.mergeSort).flatten := by
  have hrun : (((traffic [16, 16, 16, 16, 16]).exec (Traffic.boot 16)
      (oneBlock fun i => UInt8.ofNat (80 - 5 * i))).map fun s => s.returned) =
        some [[5, 10, 15, 20, 25, 30, 35, 40, 45, 50, 55, 60, 65, 70, 75, 80]] := by decide
  obtain ⟨s, hs, hret⟩ := Option.map_eq_some_iff.mp hrun
  have hreach := Machine.reach_exec (Traffic.boot_reach 16 _) hs
  exact ⟨s, hreach, hret, (returned_sorted [16, 16, 16, 16, 16] s hreach).1⟩

end SortPlatform.Vp

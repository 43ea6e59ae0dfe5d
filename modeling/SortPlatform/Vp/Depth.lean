import SortPlatform.Lib.PipelineDepth
import SortPlatform.Vp.Streaming

/-!
# PEs with FIFOs of any depth

The five FIFOs of a PE have any positive capacities, multiples of a block or not, and there is one
transport at a time (there is one DMA).

Principal results:

* `pe_depth` — the exact number of unread blocks that a PE takes, and no deadlock up to it.
* `Traffic.writable`, `Traffic.readable` — the same for one step: a transport or a thread goes on.
* `Pe.next_work` — the threads of a PE come to rest when nothing is written to it.
-/

set_option autoImplicit false

namespace SortPlatform.Vp

open Dataflow RunMerge

/-- At most one transport is in progress. -/
def oneTransport (s : Traffic) : TrafficAct → Prop
  | .beginWrite _ => s.receiving = none
  | .beginRead => s.sending = []
  | _ => True

/-- The transport in progress cannot write its next byte. -/
def Traffic.WriteBlocked (s : Traffic) : Prop := s.next .write = none

/-- The transport in progress cannot read its next byte. -/
def Traffic.ReadBlocked (s : Traffic) : Prop := ∀ junk data, s.next (.read junk data) = none

/-- All four `do_merge` threads are blocked. -/
def Traffic.StagesBlocked (s : Traffic) : Prop := ∀ w, s.next (.thread w) = none

/-- The number of completely written blocks. -/
def Traffic.completed (s : Traffic) : Nat :=
  if s.sending = [] then s.written.length else s.written.length - 1

/-- With one transport at a time a write and a read never overlap. -/
theorem exclusive {caps : List Nat} {s : Traffic} (h : (traffic caps).ReachBy oneTransport s) :
    s.sending = [] ∨ s.receiving = none := by
  refine h.invariant (motive := fun s => s.sending = [] ∨ s.receiving = none)
    (fun _ (h0 : (traffic caps).init _) => Or.inl h0.2.2.1) ?_
  intro s a s' hi hok hn
  cases a with
  | beginWrite data =>
    simp only [traffic, Traffic.next] at hn
    split at hn
    · cases hn; exact Or.inr hok
    · cases hn
  | write =>
    simp only [traffic, Traffic.next] at hn
    split at hn
    · cases hn
    · rename_i x rest hs
      obtain ⟨pe, -, rfl⟩ := Option.map_eq_some_iff.mp hn
      exact Or.inr (hi.resolve_left (by rw [hs]; exact List.cons_ne_nil _ _))
  | beginRead =>
    simp only [traffic, Traffic.next] at hn
    split at hn
    · cases hn; exact Or.inl hok
    · cases hn
  | read junk data =>
    simp only [traffic, Traffic.next] at hn
    split at hn
    · cases hn
    · rename_i got hr
      obtain ⟨p, -, rfl⟩ := Option.map_eq_some_iff.mp hn
      have hs : s.sending = [] := hi.resolve_right (by rw [hr]; exact Option.some_ne_none _)
      split <;> exact Or.inl hs
  | thread w =>
    obtain ⟨pe, -, rfl⟩ := Option.map_eq_some_iff.mp hn
    exact hi

/-- The blocks a PE has room for: one in each module, and as many as fit in each FIFO. -/
def blocks (caps : List Nat) : Nat := caps.foldr (fun c n => c / 16 + n) 4

theorem Pe.blocks_caps (pe : Pe) : blocks pe.caps = pe.i_array.cap / 16 + depth 16 pe.cells := by
  simp only [blocks, Pe.caps, Pe.cells, depth, List.foldr_cons, List.foldr_nil]
  omega

/-- There is room in the modules at least. -/
theorem four_le_blocks (caps : List Nat) : 4 ≤ blocks caps := by
  induction caps with
  | nil => exact Nat.le_refl 4
  | cons c caps ih => exact Nat.le_trans ih (Nat.le_add_left _ _)

section Depth

variable {caps : List Nat} {s s' : Traffic}

theorem Traffic.Inv.caps_pos (hi : s.Inv caps) (hpos : ∀ c ∈ caps, 0 < c) :
    0 < s.pe.i_array.cap ∧ ∀ c ∈ s.pe.cells, 0 < c.out.cap := by
  rw [← hi.caps_eq] at hpos
  simp only [Pe.caps, List.forall_mem_cons] at hpos
  obtain ⟨h0, h1, h2, h4, h8, -⟩ := hpos
  refine ⟨h0, fun c hc => ?_⟩
  simp only [Pe.cells, List.mem_cons, List.not_mem_nil, or_false] at hc
  rcases hc with rfl | rfl | rfl | rfl <;> assumption

/-- **A jammed write**: the PE holds all the blocks it has room for. -/
theorem Traffic.Inv.jammed (hi : s.Inv caps) (hpos : ∀ c ∈ caps, 0 < c) (hr : s.receiving = none)
    (hs : s.sending ≠ []) (hw : s.WriteBlocked) (hst : s.StagesBlocked) :
    s.written.length = s.returned.length + blocks caps + 1 := by
  obtain ⟨h0, hcells⟩ := hi.caps_pos hpos
  obtain ⟨m, hm, hc⟩ := hi.counts
  have ht : s.taken = [] := by rw [Traffic.taken, hr]; rfl
  rw [ht, List.length_nil, Nat.add_zero] at hc
  have hblocked : Blocked 16 s.pe.i_array s.pe.cells :=
    Pe.blocked_cells hi.wf fun w => Option.map_eq_none_iff.mp (hst w)
  have hfull : s.pe.i_array.buf.length = s.pe.i_array.cap := by
    simp only [Traffic.WriteBlocked, Traffic.next] at hw
    split at hw
    · rename_i h
      exact absurd h hs
    · rwa [Option.map_eq_none_iff, Pe.push, Option.map_eq_none_iff, Fifo.write_eq_none] at hw
  have hne : s.pe.i_array.buf ≠ [] := by
    intro h
    rw [h, List.length_nil] at hfull
    omega
  obtain ⟨hload, -⟩ := jammed_load (by omega) hc hblocked hcells hne (by omega)
  have hheld := hi.held
  have hle := hi.sending_le
  have hlt : 0 < s.sending.length := List.length_pos_iff.mpr hs
  have hblocks := s.pe.blocks_caps
  rw [hi.caps_eq] at hblocks
  rw [ht, List.length_nil, Pe.held, hfull, hload] at hheld
  omega

/-- **A PE between transports** holds no more than it has room for. -/
theorem Traffic.Inv.completed_le (hi : s.Inv caps) (hr : s.receiving = none) :
    s.completed ≤ s.returned.length + blocks caps := by
  obtain ⟨m, hm, hc⟩ := hi.counts
  have ht : s.taken = [] := by rw [Traffic.taken, hr]; rfl
  rw [ht, List.length_nil, Nat.add_zero] at hc
  have hload := load_le_depth (by omega) hc (by omega)
  have hin := s.pe.i_array.buf_le
  have hheld := hi.held
  have hle := hi.sending_le
  have hblocks := s.pe.blocks_caps
  rw [hi.caps_eq] at hblocks
  rw [ht, List.length_nil, Pe.held] at hheld
  unfold Traffic.completed
  split
  · rename_i hs
    rw [hs, List.length_nil] at hheld
    omega
  · omega

/-- **A write goes on** while there is room for its block: the transport or a thread can step. -/
theorem Traffic.writable (hi : s.Inv caps) (hpos : ∀ c ∈ caps, 0 < c) (hr : s.receiving = none)
    (hs : s.sending ≠ []) (hle : s.written.length ≤ s.returned.length + blocks caps) :
    s.next .write ≠ none ∨ ∃ w, s.next (.thread w) ≠ none := by
  by_contra hno
  push Not at hno
  have := hi.jammed hpos hr hs hno.1 hno.2
  omega

/-- **A read goes on** while a completely written block is unread. -/
theorem Traffic.readable (hi : s.Inv caps) (hpos : ∀ c ∈ caps, 0 < c) (hr : s.receiving ≠ none)
    (hs : s.sending = []) (hlt : s.returned.length < s.written.length) :
    (∀ junk data, s.next (.read junk data) ≠ none) ∨ ∃ w, s.next (.thread w) ≠ none := by
  by_contra hno
  push Not at hno
  obtain ⟨⟨junk, data, hrd⟩, hst⟩ := hno
  obtain ⟨got, hgot⟩ := Option.ne_none_iff_exists'.mp hr
  have hpop : s.pe.pop = none := by
    simpa only [Traffic.next, hgot, Option.map_eq_none_iff] using hrd
  have := hi.drained hpos hs hpop hst
  omega

/-- Only reads change what a read has taken. -/
theorem Traffic.receiving_eq {b : TrafficAct} (h : s.next b = some s') (hbegin : b ≠ .beginRead)
    (hread : ∀ junk data, b ≠ .read junk data) : s'.receiving = s.receiving := by
  cases b with
  | beginRead => exact absurd rfl hbegin
  | read junk data => exact absurd rfl (hread junk data)
  | beginWrite data =>
    simp only [Traffic.next] at h
    split at h <;> cases h
    rfl
  | write =>
    simp only [Traffic.next] at h
    split at h
    · cases h
    · obtain ⟨pe, -, rfl⟩ := Option.map_eq_some_iff.mp h
      rfl
  | thread w =>
    obtain ⟨pe, -, rfl⟩ := Option.map_eq_some_iff.mp h
    rfl

/-- A read that is not over has taken a byte. -/
theorem Traffic.next_read_on {junk data : Nat → UInt8} (h : s.next (.read junk data) = some s')
    (hr : s'.receiving ≠ none) :
    ∃ got x, s.receiving = some got ∧ s'.receiving = some (got ++ [x]) := by
  simp only [Traffic.next] at h
  split at h
  · cases h
  · rename_i got hgot
    obtain ⟨q, -, rfl⟩ := Option.map_eq_some_iff.mp h
    refine ⟨got, q.1, hgot, ?_⟩
    by_cases hlt : (got ++ [q.1]).length < MergeW8.demand (readPayload data 16)
    · rw [if_pos hlt]
    · rw [if_neg hlt] at hr
      exact absurd rfl hr

/-- **No block is written beyond what a PE has room for.** -/
theorem completed_le_blocks (h : (traffic caps).ReachBy oneTransport s) :
    s.completed ≤ s.returned.length + blocks caps := by
  induction h with
  | @init s h0 => exact (traffic_init h0).completed_le h0.2.2.2.2.1
  | @step s s' a hs hok hn ih =>
    have hi' := traffic_inv (.step hs hok hn)
    cases a with
    | beginWrite data =>
      simp only [traffic, Traffic.next] at hn
      split at hn
      · cases hn
        exact hi'.completed_le hok
      · cases hn
    | write =>
      have hrec := exclusive hs
      obtain ⟨hsend, -, -⟩ := Traffic.next_write hn
      simp only [traffic, Traffic.next] at hn
      split at hn
      · cases hn
      · obtain ⟨pe, -, rfl⟩ := Option.map_eq_some_iff.mp hn
        exact hi'.completed_le (hrec.resolve_left hsend)
    | beginRead =>
      obtain ⟨hsend, hwrit, hret⟩ := Traffic.next_beginRead hn
      unfold Traffic.completed at ih ⊢
      rw [hsend, hwrit, hret]
      exact ih
    | read junk data =>
      obtain ⟨hsend, hwrit, hret⟩ := Traffic.next_read hn
      have hmono : s.returned.length ≤ s'.returned.length := by
        rcases hret with ⟨-, heq⟩ | ⟨-, x, heq⟩ <;> rw [heq]
        rw [List.length_append]
        omega
      unfold Traffic.completed at ih ⊢
      rw [hsend, hwrit]
      omega
    | thread w =>
      obtain ⟨hsend, hwrit, hret⟩ := Traffic.next_thread hn
      unfold Traffic.completed at ih ⊢
      rw [hsend, hwrit, hret]
      exact ih

/-- **A write does not hang** while there is room for its block. -/
theorem write_not_hung (hpos : ∀ c ∈ caps, 0 < c) (h : (traffic caps).ReachBy oneTransport s)
    (hs : s.sending ≠ []) (hle : s.written.length ≤ s.returned.length + blocks caps) :
    ¬ (s.WriteBlocked ∧ s.StagesBlocked) := by
  rintro ⟨hw, hst⟩
  have hr := (exclusive h).resolve_left hs
  rcases Traffic.writable (traffic_inv h) hpos hr hs hle with hno | ⟨w, hno⟩
  · exact hno hw
  · exact hno (hst w)

/-- **A read does not hang** while a completely written block is unread. -/
theorem read_not_hung (hpos : ∀ c ∈ caps, 0 < c) (h : (traffic caps).ReachBy oneTransport s)
    (hr : s.receiving ≠ none) (hlt : s.returned.length < s.completed) :
    ¬ (s.ReadBlocked ∧ s.StagesBlocked) := by
  rintro ⟨hrd, hst⟩
  have hs := (exclusive h).resolve_right hr
  rw [Traffic.completed, if_pos hs] at hlt
  rcases Traffic.readable (traffic_inv h) hpos hr hs hlt with hno | ⟨w, hno⟩
  · exact hno (fun _ => 0) (fun _ => 0) (hrd _ _)
  · exact hno (hst w)

end Depth

/-- **Exact capacity of a PE for every choice of its FIFOs**: with `K = Σ ⌊c / 16⌋ + 4` blocks, a
write never hangs up to the `K`-th unread block, a read never hangs while a completely written
block is unread, and one more unread block is never completely written. -/
theorem pe_depth (caps : List Nat) (hpos : ∀ c ∈ caps, 0 < c) (s : Traffic)
    (h : (traffic caps).ReachBy oneTransport s) :
    (s.sending ≠ [] → s.written.length ≤ s.returned.length + blocks caps →
      ¬ (s.WriteBlocked ∧ s.StagesBlocked)) ∧
    (s.receiving ≠ none → s.returned.length < s.completed →
      ¬ (s.ReadBlocked ∧ s.StagesBlocked)) ∧
    s.completed ≤ s.returned.length + blocks caps :=
  ⟨write_not_hung hpos h, read_not_hung hpos h, completed_le_blocks h⟩

/-! ### A full PE -/

instance (s : Traffic) : ∀ a, Decidable (oneTransport s a)
  | .beginWrite _ => inferInstanceAs (Decidable (s.receiving = none))
  | .beginRead => inferInstanceAs (Decidable (s.sending = []))
  | .write | .read _ _ | .thread _ => inferInstanceAs (Decidable True)

/-- A write of sixteen different bytes. -/
def beginBlock (k : Nat) : TrafficAct := .beginWrite fun i => UInt8.ofNat (16 * k + i)

/-- The first step of every thread. -/
def startThreads : List TrafficAct :=
  [.thread .mergeW1, .thread .mergeW2, .thread .mergeW4, .thread .mergeW8]

theorem replay {β : Type} {cap : Nat} (as : List TrafficAct) {f : Traffic → β} {x : β}
    (h : ((traffic [cap, cap, cap, cap, cap]).execBy oneTransport (Traffic.boot cap) as).map f =
      some x) : ∃ s, (traffic [cap, cap, cap, cap, cap]).ReachBy oneTransport s ∧ f s = x := by
  obtain ⟨s, hs, hx⟩ := Option.map_eq_some_iff.mp h
  exact ⟨s, Machine.reachBy_execBy (Traffic.boot_reach cap _) hs, hx⟩

/-- Through FIFOs of a single byte, block `k` gets as far as the blocks before it let it. -/
def squeeze (k : Nat) : List TrafficAct :=
  (List.replicate 16 [.write, .thread .mergeW1]).flatten ++
    ([(.mergeW1, .mergeW2), (.mergeW2, .mergeW4), (.mergeW4, .mergeW8)].take (3 - k)).flatMap
      fun p : Thread × Thread => (List.replicate 16 [.thread p.1, .thread p.2]).flatten

/-- With FIFOs of a single byte: a write of the fourth block is not hung, nor is a read from the
full PE after it. -/
theorem pe_depth_single : blocks [1, 1, 1, 1, 1] = 4 ∧
    (∃ s, (traffic [1, 1, 1, 1, 1]).ReachBy oneTransport s ∧
      s.sending.length = 16 ∧ s.written.length = 4 ∧ s.returned = [] ∧
      ¬ (s.WriteBlocked ∧ s.StagesBlocked)) ∧
    ∃ s, (traffic [1, 1, 1, 1, 1]).ReachBy oneTransport s ∧
      s.receiving = some [] ∧ s.completed = 4 ∧ s.returned = [] ∧
      ¬ (s.ReadBlocked ∧ s.StagesBlocked) := by
  obtain ⟨s, hs, hw⟩ : ∃ s, (traffic [1, 1, 1, 1, 1]).ReachBy oneTransport s ∧
      (s.sending.length, s.written.length, s.returned) = (16, 4, []) :=
    replay (startThreads ++ (List.range 3).flatMap (fun k => beginBlock k :: squeeze k) ++
      [beginBlock 3]) (by decide +kernel)
  obtain ⟨s', hs', hr⟩ : ∃ s, (traffic [1, 1, 1, 1, 1]).ReachBy oneTransport s ∧
      (s.receiving, s.completed, s.returned) = (some [], 4, []) :=
    replay (startThreads ++ (List.range 4).flatMap (fun k => beginBlock k :: squeeze k) ++
      [.beginRead]) (by decide +kernel)
  simp only [Prod.mk.injEq] at hw hr
  refine ⟨by decide, ⟨s, hs, hw.1, hw.2.1, hw.2.2, ?_⟩, s', hs', hr.1, hr.2.1, hr.2.2, ?_⟩
  · refine (pe_depth _ (by decide) s hs).1 (List.ne_nil_of_length_eq_add_one hw.1) ?_
    rw [hw.2.1, hw.2.2]
    decide
  · refine (pe_depth _ (by decide) s' hs').2.1 (by rw [hr.1]; exact Option.some_ne_none _) ?_
    rw [hr.2.1, hr.2.2]
    decide

/-! ## The threads come to rest -/

/-- 1 before the first step of a thread. -/
def MergeThread.starting (t : MergeThread) : Nat := if t.pc = .wait then 1 else 0

/-- The steps the threads of a PE can still take when nothing is written to it. -/
def Pe.work (pe : Pe) : Nat :=
  pe.mergeW1.starting + pe.mergeW2.starting + pe.mergeW4.starting + pe.mergeW8.starting +
    Dataflow.work pe.i_array.buf.length pe.cells

theorem do_merge_starting {W : Nat} (hW : IsWidth W) {t t' : MergeThread} {i o i' o' : Fifo UInt8}
    (hwf : t.WF) (h : do_merge W t i o = some (t', i', o')) :
    (t'.starting < t.starting ∧ t'.stage = t.stage ∧ i' = i ∧ o' = o) ∨
      (t'.starting ≤ t.starting ∧ t.stage.next 16 (pass W) i o = some (t'.stage, i', o')) := by
  obtain ⟨-, hpc, hcases⟩ := do_merge_refines hW hwf h
  have h0 : t'.starting = 0 := if_neg hpc
  rcases hcases with ⟨hw, hst, hi, ho⟩ | hn
  · have h1 : t.starting = 1 := if_pos hw
    exact Or.inl ⟨by omega, hst, hi, ho⟩
  · exact Or.inr ⟨by omega, hn⟩

/-- What the step of one thread takes off the work, given what it is to the pipeline. -/
theorem Pe.work_of_do_merge (pe pe' : Pe) (n : Nat) {W : Nat} (hW : IsWidth W)
    {t t' : MergeThread} {i o i' o' : Fifo UInt8} (hwf : t.WF) (h : do_merge W t i o = some (t', i', o'))
    (hstart : t'.stage = t.stage → i' = i → o' = o →
      pe'.i_array = pe.i_array ∧ pe'.cells = pe.cells)
    (hstep : t.stage.next 16 (pass W) i o = some (t'.stage, i', o') →
      stepAt 16 n pe.i_array pe.cells = some (pe'.i_array, pe'.cells)) :
    t'.starting + Dataflow.work pe'.i_array.buf.length pe'.cells <
      t.starting + Dataflow.work pe.i_array.buf.length pe.cells := by
  rcases do_merge_starting hW hwf h with ⟨hlt, hs, hi, ho⟩ | ⟨hle, hn⟩
  · obtain ⟨hq, hcs⟩ := hstart hs hi ho
    rw [hq, hcs]
    omega
  · have := stepAt_work (keepsLength_cells pe) (hstep hn)
    omega

/-- **Every step of a thread is work done.** -/
theorem Pe.next_work {pe pe' : Pe} {w : Thread} (hwf : pe.WF) (h : pe.next w = some pe') :
    pe'.work < pe.work := by
  obtain ⟨w1, w2, w4, w8⟩ := hwf
  cases w <;> obtain ⟨⟨t, i, o⟩, hd, hpe⟩ := Option.map_eq_some_iff.mp h
  case mergeW1 =>
    have := Pe.work_of_do_merge pe pe' 0 isWidth_1 w1 hd
      (fun hs hi ho => by simp only [← hpe, Pe.cells, hs, hi, ho, and_self])
      (fun hn => by simp only [← hpe, Pe.cells, stepAt, hn, Option.map_some])
    subst hpe
    simp only [Pe.work] at this ⊢
    omega
  case mergeW2 =>
    have := Pe.work_of_do_merge pe pe' 1 isWidth_2 w2 hd
      (fun hs hi ho => by simp only [← hpe, Pe.cells, hs, hi, ho, and_self])
      (fun hn => by simp only [← hpe, Pe.cells, stepAt, hn, Option.map_some])
    subst hpe
    simp only [Pe.work] at this ⊢
    omega
  case mergeW4 =>
    have := Pe.work_of_do_merge pe pe' 2 isWidth_4 w4 hd
      (fun hs hi ho => by simp only [← hpe, Pe.cells, hs, hi, ho, and_self])
      (fun hn => by simp only [← hpe, Pe.cells, stepAt, hn, Option.map_some])
    subst hpe
    simp only [Pe.work] at this ⊢
    omega
  case mergeW8 =>
    have := Pe.work_of_do_merge pe pe' 3 isWidth_8 w8 hd
      (fun hs hi ho => by simp only [← hpe, Pe.cells, hs, hi, ho, and_self])
      (fun hn => by simp only [← hpe, Pe.cells, stepAt, hn, Option.map_some])
    subst hpe
    simp only [Pe.work] at this ⊢
    omega

end SortPlatform.Vp

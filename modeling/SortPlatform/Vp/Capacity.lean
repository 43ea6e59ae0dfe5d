import SortPlatform.Vp.Depth

/-!
# Capacity and absence of deadlock of a PE

With SystemC's default FIFO capacity a PE is five FIFOs and four stage registers of sixteen bytes
each: nine blocks.

Principal result: `pe_capacity` — a write never hangs up to the ninth unread block, a read never
hangs while a completely written block is unread, and a tenth unread block is never completely
written.
-/

set_option autoImplicit false

namespace SortPlatform.Vp

/-- The default capacity of `sc_fifo`, for the five FIFOs of a PE. -/
def defaultCaps : List Nat := [16, 16, 16, 16, 16]

theorem blocks_defaultCaps : blocks defaultCaps = 9 := by decide

/-- **Exact capacity and absence of deadlock of a PE.** -/
theorem pe_capacity (s : Traffic) (h : (traffic defaultCaps).ReachBy oneTransport s) :
    (s.sending ≠ [] → s.written.length ≤ s.returned.length + 9 →
      ¬ (s.WriteBlocked ∧ s.StagesBlocked)) ∧
    (s.receiving ≠ none → s.returned.length < s.completed →
      ¬ (s.ReadBlocked ∧ s.StagesBlocked)) ∧
    s.completed ≤ s.returned.length + 9 := by
  rw [← blocks_defaultCaps]
  exact ⟨write_not_hung (by decide) h, read_not_hung (by decide) h, completed_le_blocks h⟩

/-! ### A full PE -/

/-- Block `k` is written, and gets as far as the blocks before it let it: every thread has sixteen
reads and sixteen writes to do for it. -/
def passOn (k : Nat) : List TrafficAct :=
  List.replicate 16 .write ++
    ([.mergeW1, .mergeW1, .mergeW2, .mergeW2, .mergeW4, .mergeW4, .mergeW8, .mergeW8].take
      (8 - k)).flatMap fun w => List.replicate 16 (.thread w)

/-- A write of the ninth block is not hung, nor is a read from the full PE after it. -/
theorem pe_capacity_full :
    (∃ s, (traffic defaultCaps).ReachBy oneTransport s ∧
      s.sending.length = 16 ∧ s.written.length = 9 ∧ s.returned = [] ∧
      ¬ (s.WriteBlocked ∧ s.StagesBlocked)) ∧
    ∃ s, (traffic defaultCaps).ReachBy oneTransport s ∧
      s.receiving = some [] ∧ s.completed = 9 ∧ s.returned = [] ∧
      ¬ (s.ReadBlocked ∧ s.StagesBlocked) := by
  obtain ⟨s, hs, hw⟩ : ∃ s, (traffic defaultCaps).ReachBy oneTransport s ∧
      (s.sending.length, s.written.length, s.returned) = (16, 9, []) :=
    replay (startThreads ++ (List.range 8).flatMap (fun k => beginBlock k :: passOn k) ++
      [beginBlock 8]) (by decide +kernel)
  obtain ⟨s', hs', hr⟩ : ∃ s, (traffic defaultCaps).ReachBy oneTransport s ∧
      (s.receiving, s.completed, s.returned) = (some [], 9, []) :=
    replay (startThreads ++ (List.range 9).flatMap (fun k => beginBlock k :: passOn k) ++
      [.beginRead]) (by decide +kernel)
  simp only [Prod.mk.injEq] at hw hr
  refine ⟨⟨s, hs, hw.1, hw.2.1, hw.2.2, ?_⟩, s', hs', hr.1, hr.2.1, hr.2.2, ?_⟩
  · refine (pe_capacity s hs).1 (List.ne_nil_of_length_eq_add_one hw.1) ?_
    rw [hw.2.1, hw.2.2]
    decide
  · refine (pe_capacity s' hs').2.1 (by rw [hr.1]; exact Option.some_ne_none _) ?_
    rw [hr.2.1, hr.2.2]
    decide

end SortPlatform.Vp

import SortPlatform.Sort
import SortPlatform.Sw.Rank
import SortPlatform.Vp.Depth

/-!
# The platform comes to an end

No component of the platform waits by trying again: a step that has to wait is not a step. So every
step is progress, and the whole sort is over after finitely many.

* `Platform.measure` — the harts' stages, the requests of the DMA and the work of the PEs.
* `Platform.CanStep` — some component can go on, whatever it finds outside its arrays.

Principal results:

* `platform_endless` — no run of the platform is without end.
* `platform_progress` — harts that wait for the DMA never end in a deadlock, for FIFOs of any depth.
* `sort_completes` — total correctness of the sort.
-/

set_option autoImplicit false

namespace SortPlatform

open Sw RunMerge
open Vp hiding write_data_to_ACC read_data_from_ACC

variable {p : Program} {caps : List Nat} {input : List UInt8} {s s' : Platform}

/-! ## Every step goes down -/

/-- The bytes that the transaction in progress has still to move; more before it has begun. -/
def Platform.toMove (s : Platform) : Nat :=
  match s.dma.pc with
  | .read _ _ (.peRead i _) =>
    match (s.pes i).receiving with
    | none => 17
    | some got => 16 - got.length
  | .write _ _ (.peStart i _) => if (s.pes i).sending = [] then 17 else (s.pes i).sending.length
  | _ => 0

/-- What is left of the request in progress. -/
def left (d : SimpleDMA) : Nat :=
  match d.pc with
  | .waiting => 0
  | .dispatch => 2 * d.len + 3
  | .read _ n _ => 2 * n + 2
  | .write _ n _ => 2 * n + 1

/-- What the DMA has still to do, most significant first. -/
def Platform.dmaMeasure (s : Platform) : Nat × Nat × Nat :=
  (s.dma.notified.toNat, left s.dma, s.toMove)

/-- What goes down in every step, most significant first. -/
def Platform.measure (p : Program) (s : Platform) :
    (Nat × Nat × (Nat × Nat × Nat × Nat)) × (Nat × Nat × (Nat × Nat × Nat × Nat)) ×
      (Nat × Nat × Nat) × Nat :=
  ((s.harts.pc .hart0).measure p .hart0, (s.harts.pc .hart1).measure p .hart1, s.dmaMeasure,
    ∑ i, (s.pes i).pe.work)

/-- The order of `dmaMeasure`. -/
def DmaLower : Nat × Nat × Nat → Nat × Nat × Nat → Prop :=
  Prod.Lex (· < ·) (Prod.Lex (· < ·) (· < ·))

theorem dmaLower_wf : WellFounded DmaLower :=
  WellFounded.prod_lex Nat.lt_wfRel.wf (WellFounded.prod_lex Nat.lt_wfRel.wf Nat.lt_wfRel.wf)

/-- The order of `measure`. -/
def Platform.Down (p : Program) (s' s : Platform) : Prop :=
  Prod.Lex Below (Prod.Lex Below (Prod.Lex DmaLower (· < ·))) (s'.measure p) (s.measure p)

theorem Platform.down_wf (p : Program) : WellFounded (Platform.Down p) :=
  InvImage.wf (Platform.measure p) (WellFounded.prod_lex below_wf
    (WellFounded.prod_lex below_wf (WellFounded.prod_lex dmaLower_wf Nat.lt_wfRel.wf)))

theorem left_readDone {d d' : SimpleDMA} {bytes : List UInt8} (h : d.readDone bytes = some d') :
    left d' < left d := by
  unfold SimpleDMA.readDone at h
  split at h
  · rename_i hpc
    cases h
    simp only [left, hpc]
    omega
  · cases h

theorem left_writeDone {d d' : SimpleDMA} (h : d.writeDone = some d') : left d' < left d := by
  unfold SimpleDMA.writeDone at h
  split at h
  · rename_i hpc
    cases h
    split
    · simp only [left, SimpleDMA._copy_block, hpc]
      omega
    · simp only [left, hpc]
      omega
  · cases h

theorem left_run {d d' : SimpleDMA} (hpc : d.pc = .dispatch) (h : d.run = some d') :
    left d' < left d := by
  unfold SimpleDMA.run at h
  split at h
  · cases h
    simp only [left, hpc]
    omega
  · split at h
    · cases h
      simp only [left, SimpleDMA._copy_block, hpc]
      omega
    · cases h

namespace Platform

/-- A step of hart `h`. -/
theorem down_hart {h : Hart} {pc' : HartPc} (hpc : s'.harts.pc = Function.update s.harts.pc h pc')
    (hdown : Below (pc'.measure p h) ((s.harts.pc h).measure p h)) : s'.Down p s := by
  unfold Down measure
  rw [hpc]
  cases h with
  | hart0 =>
    rw [Function.update_self]
    exact Prod.Lex.left _ _ hdown
  | hart1 =>
    rw [Function.update_self, Function.update_of_ne (by simp)]
    exact Prod.Lex.right _ (Prod.Lex.left _ _ hdown)

/-- A step of the DMA. -/
theorem down_dma (hpc : s'.harts.pc = s.harts.pc) (hdown : DmaLower s'.dmaMeasure s.dmaMeasure) :
    s'.Down p s := by
  unfold Down measure
  rw [hpc]
  exact Prod.Lex.right _ (Prod.Lex.right _ (Prod.Lex.left _ _ hdown))

/-- A step of `run`. -/
theorem down_left (hpc : s'.harts.pc = s.harts.pc) (hnot : s'.dma.notified = s.dma.notified)
    (hleft : left s'.dma < left s.dma) : s'.Down p s := by
  refine down_dma hpc ?_
  unfold dmaMeasure
  rw [hnot]
  exact Prod.Lex.right _ (Prod.Lex.left _ _ hleft)

/-- A step of a transaction that goes on. -/
theorem down_toMove (hpc : s'.harts.pc = s.harts.pc) (hdma : s'.dma = s.dma)
    (hlt : s'.toMove < s.toMove) : s'.Down p s := by
  refine down_dma hpc ?_
  unfold dmaMeasure
  rw [hdma]
  exact Prod.Lex.right _ (Prod.Lex.right _ hlt)

/-- A step of a PE. -/
theorem down_pe (hpc : s'.harts.pc = s.harts.pc) (hdma : s'.dmaMeasure = s.dmaMeasure)
    (hdown : ∑ i, (s'.pes i).pe.work < ∑ i, (s.pes i).pe.work) : s'.Down p s := by
  unfold Down measure
  rw [hpc, hdma]
  exact Prod.Lex.right _ (Prod.Lex.right _ (Prod.Lex.right _ hdown))

end Platform

/-- **Every step of the platform goes down.** -/
theorem platform_down {ok : Platform → PlatformAct → Prop} {a : PlatformAct}
    (h : (platform p caps input).ReachBy ok s) (hn : (platform p caps input).next s a = some s') :
    s'.Down p s := by
  have hi := harts_inv (platform_harts h)
  cases (platform_effect hn).2 with
  | @hart g _ _ _ _ hs =>
    exact Platform.down_hart rfl
      (hartStep_down (hi.place g) (harts_width (platform_harts h) g) hs)
  | fire hf =>
    obtain ⟨hnot, hnot', -⟩ := SimpleDMA.fire_eq_some hf
    refine Platform.down_dma rfl ?_
    unfold Platform.dmaMeasure
    rw [hnot, hnot']
    exact Prod.Lex.left _ _ Nat.zero_lt_one
  | run hpc hr => exact Platform.down_left rfl (SimpleDMA.notified_run hr) (left_run hpc hr)
  | readRam _ _ hr =>
    exact Platform.down_left rfl (SimpleDMA.notified_readDone hr) (left_readDone hr)
  | readPe _ _ _ _ hd =>
    exact Platform.down_left rfl (SimpleDMA.notified_readDone hd) (left_readDone hd)
  | writeRam _ _ hd =>
    exact Platform.down_left rfl (SimpleDMA.notified_writeDone hd) (left_writeDone hd)
  | writePe _ _ _ hd =>
    exact Platform.down_left rfl (SimpleDMA.notified_writeDone hd) (left_writeDone hd)
  | @beginRead _ _ _ _ i t hpc hr ht =>
    have ht' : t.receiving = some [] := by
      simp only [Traffic.next, hr, if_true, Option.some.injEq] at ht
      rw [← ht]
    refine Platform.down_toMove rfl rfl ?_
    simp only [Platform.toMove, Platform.setPe, hpc, Function.update_self, hr, ht', List.length_nil]
    omega
  | @readByte _ _ _ _ i t hpc ht hr =>
    obtain ⟨got, x, hgot, ht'⟩ := Traffic.next_read_on ht hr
    have hlt := (traffic_inv (platform_pe h i)).taken_lt
    refine Platform.down_toMove rfl rfl ?_
    simp only [Traffic.taken, hgot, Option.getD_some] at hlt
    simp only [Platform.toMove, Platform.setPe, hpc, Function.update_self, hgot, ht',
      List.length_append, List.length_singleton]
    omega
  | @beginWrite _ _ _ _ i t hpc hsend ht =>
    have ht' : t.sending.length = 16 := by
      rw [(Traffic.next_beginWrite ht).1, bytesOf_length]
    have hne : t.sending ≠ [] := by
      rw [← List.length_pos_iff, ht']
      decide
    refine Platform.down_toMove rfl rfl ?_
    simp only [Platform.toMove, Platform.setPe, hpc, Function.update_self, hsend, if_neg hne, ht',
      if_true]
    omega
  | @writeByte _ _ _ _ i t hpc ht hsend =>
    obtain ⟨x, hx⟩ : ∃ x, (s.pes i).sending = x :: t.sending := by
      simp only [Traffic.next] at ht
      split at ht
      · cases ht
      · rename_i x rest heq
        obtain ⟨pe, -, rfl⟩ := Option.map_eq_some_iff.mp ht
        exact ⟨x, heq⟩
    refine Platform.down_toMove rfl rfl ?_
    simp only [Platform.toMove, Platform.setPe, hpc, Function.update_self, hx, if_neg hsend,
      List.length_cons, reduceCtorEq, if_false]
    omega
  | @thread i w t ht =>
    have hquiet := Traffic.next_thread ht
    have hrec : t.receiving = (s.pes i).receiving := by
      obtain ⟨pe, -, rfl⟩ := Option.map_eq_some_iff.mp ht
      rfl
    have hwork : t.pe.work < (s.pes i).pe.work := by
      obtain ⟨pe, hp, rfl⟩ := Option.map_eq_some_iff.mp ht
      exact Pe.next_work (traffic_inv (platform_pe h i)).wf hp
    refine Platform.down_pe rfl ?_ ?_
    · have hsend : ∀ j, ((s.setPe i t).pes j).sending = (s.pes j).sending := fun j =>
        (Platform.setPe_quiet hquiet j).sending
      have hrecs : ∀ j, ((s.setPe i t).pes j).receiving = (s.pes j).receiving := by
        intro j
        by_cases hj : j = i
        · subst hj
          rw [Platform.setPe_self, hrec]
        · rw [Platform.setPe_of_ne s t hj]
      simp only [Platform.dmaMeasure, Platform.toMove, hsend, hrecs]
      rfl
    · have hsum := sum_update_add (fun t : Traffic => t.pe.work) s.pes i t
      show ∑ j, (Function.update s.pes i t j).pe.work < _
      omega

/-- **No run of the platform is without end**, whether the harts wait for the DMA or not. -/
theorem platform_endless (ok : Platform → PlatformAct → Prop) (run : Nat → Platform) :
    ¬ (platform p caps input).Endless ok run :=
  Machine.not_endless (Platform.down_wf p) (fun _ _ _ hs _ hn => platform_down hs hn) run

/-! ## Some component can go on -/

/-- What takes a step. -/
inductive Component where
  | hart (h : Hart)
  | event
  | dma
  | pe (i : Fin 4) (w : Thread)
  deriving DecidableEq

def PlatformAct.component : PlatformAct → Component
  | .hart h _ => .hart h
  | .fire => .event
  | .dma _ _ => .dma
  | .pe i w => .pe i w

/-- **A component can go on**, whatever it finds in memory that is not its own. -/
def Platform.CanStep (p : Program) (s : Platform) : Prop :=
  ∃ c, ∀ a, PlatformAct.component a = c → Prompt s a ∧ (s.next p a).isSome

theorem storeAll_pc (d : SimpleDMA) (log : List (Call × DmaReg)) :
    (Platform.storeAll d log).pc = d.pc := by
  induction log generalizing d with
  | nil => rfl
  | cons x log ih => exact (ih _).trans (SimpleDMA.transport_pc d x.1 x.2)

/-- Only a read transaction at a PE changes what the PE is giving out. -/
theorem Effect.receiving {a : PlatformAct} (he : Effect p s a s') (i : Fin 4) :
    (s'.pes i).receiving = (s.pes i).receiving ∨ ∃ off n, s.dma.pc = .read off n (.peRead i 0) := by
  have hset : ∀ {j : Fin 4} {t : Traffic},
      t.receiving = (s.pes j).receiving ∨ (∃ off n, s.dma.pc = .read off n (.peRead j 0)) →
      ((s.setPe j t).pes i).receiving = (s.pes i).receiving ∨
        ∃ off n, s.dma.pc = .read off n (.peRead i 0) := by
    intro j t hj
    by_cases hij : i = j
    · subst hij
      rw [Platform.setPe_self]
      exact hj
    · rw [Platform.setPe_of_ne s t hij]
      exact Or.inl rfl
  cases he with
  | beginRead hpc => exact hset (Or.inr ⟨_, _, hpc⟩)
  | readByte hpc => exact hset (Or.inr ⟨_, _, hpc⟩)
  | readPe hpc => exact hset (Or.inr ⟨_, _, hpc⟩)
  | beginWrite _ _ ht => exact hset (Or.inl (Traffic.receiving_eq ht nofun nofun))
  | writeByte _ ht => exact hset (Or.inl (Traffic.receiving_eq ht nofun nofun))
  | writePe _ ht => exact hset (Or.inl (Traffic.receiving_eq ht nofun nofun))
  | thread ht => exact hset (Or.inl (Traffic.receiving_eq ht nofun nofun))
  | _ => exact Or.inl rfl

/-- A read transaction at a PE ends when the PE has given out its block. -/
theorem Effect.reading {a : PlatformAct} (he : Effect p s a s') {i : Fin 4} {off n : Nat}
    (hread : s.dma.pc = .read off n (.peRead i 0)) :
    s'.dma.pc = s.dma.pc ∨ (s'.pes i).receiving = none := by
  cases he with
  | hart => exact Or.inl (storeAll_pc _ _)
  | fire hf =>
    obtain ⟨-, -, hpc, -⟩ := SimpleDMA.fire_eq_some hf
    rw [hread, if_neg (by simp)] at hpc
    exact Or.inl (hpc.trans hread.symm)
  | @readPe _ _ _ _ j t d hpc _ _ hr =>
    cases hread.symm.trans hpc
    refine Or.inr ?_
    show ((s.setPe i t).pes i).receiving = none
    rw [Platform.setPe_self]
    exact hr
  | run hpc | readRam hpc | writeRam hpc | writePe hpc => cases hread.symm.trans hpc
  | _ => exact Or.inl rfl

/-- **A PE gives a block out only in a read transaction.** -/
theorem platform_receiving {ok : Platform → PlatformAct → Prop}
    (h : (platform p caps input).ReachBy ok s) {i : Fin 4} (hr : (s.pes i).receiving ≠ none) :
    ∃ off n, s.dma.pc = .read off n (.peRead i 0) := by
  induction h with
  | init h0 =>
    obtain ⟨-, -, -, hpes, -⟩ := h0
    exact absurd (hpes i).2.2.2.2.1 hr
  | @step s s' a hs hok hn ih =>
    have he := (platform_effect hn).2
    obtain ⟨off, n, hread⟩ : ∃ off n, s.dma.pc = .read off n (.peRead i 0) := by
      rcases he.receiving i with heq | hread
      · exact ih (heq ▸ hr)
      · exact hread
    rcases he.reading hread with hpc | hnone
    · exact ⟨off, n, hpc.trans hread⟩
    · exact absurd hnone hr

theorem sent_le (p : Program) (i : Fin 4) : (sent i p.calls).length ≤ 2 := by
  revert i
  cases p <;> decide

theorem sent_extends {i : Fin 4} {cs ds : List Call} (h : cs <+: ds) :
    (sent i cs).length ≤ (sent i ds).length :=
  (h.filterMap _).length_le

namespace Platform

theorem canStep_dma (hex : ¬ s.harts.Exited)
    (h : ∀ junk stray, s.dmaStep junk stray ≠ none) : s.CanStep p := by
  refine ⟨.dma, fun a ha => ?_⟩
  cases a with
  | dma junk stray =>
    refine ⟨trivial, ?_⟩
    rw [next, if_neg hex]
    exact Option.isSome_iff_ne_none.mpr (h junk stray)
  | _ => cases ha

theorem canStep_pe (hex : ¬ s.harts.Exited) {i : Fin 4}
    (h : ∃ w, (s.pes i).next (.thread w) ≠ none) : s.CanStep p := by
  obtain ⟨w, hw⟩ := h
  refine ⟨.pe i w, fun a ha => ?_⟩
  cases a with
  | pe j v =>
    cases ha
    refine ⟨trivial, ?_⟩
    rw [next, if_neg hex, Option.isSome_map]
    exact Option.isSome_iff_ne_none.mpr hw
  | _ => cases ha

theorem canStep_waiting (h : (platform p caps input).ReachBy Prompt s) (hex : ¬ s.harts.Exited)
    (hpc : s.dma.pc = .waiting) : s.CanStep p := by
  cases hnot : s.dma.notified with
  | true =>
    refine ⟨.event, fun a ha => ?_⟩
    cases a with
    | fire =>
      refine ⟨trivial, ?_⟩
      rw [next, if_neg hex, SimpleDMA.fire, if_pos hnot]
      rfl
    | _ => cases ha
  | false =>
    obtain ⟨g, hg⟩ := harts_progress (platform_harts h) hex
    refine ⟨.hart g, fun a ha => ?_⟩
    cases a with
    | hart g' stray =>
      cases ha
      refine ⟨fun _ _ _ => ⟨hpc, hnot⟩, ?_⟩
      rw [next, if_neg hex, Option.isSome_map]
      exact Option.isSome_iff_ne_none.mpr (hg stray)
    | _ => cases ha

/-- The DMA starts on a request. -/
theorem canStep_dispatch (h : (platform p caps input).ReachBy Prompt s) (hex : ¬ s.harts.Exited)
    (hpc : s.dma.pc = .dispatch) : s.CanStep p := by
  obtain ⟨c, -, hrun, -⟩ := prompt_running h (by simp [hpc])
  unfold SimpleDMA.Running at hrun
  rw [hpc] at hrun
  refine canStep_dma hex fun junk stray => ?_
  rw [dmaStep, hpc]
  dsimp only
  rw [SimpleDMA.run, if_neg (by rw [hrun.op]; decide), if_pos hrun.op]
  exact Option.some_ne_none _

theorem readDone_ne_none {d : SimpleDMA} {off n : Nat} {addr : Loc} (hpc : d.pc = .read off n addr)
    (bytes : List UInt8) : d.readDone bytes ≠ none := by
  rw [SimpleDMA.readDone, hpc]
  exact Option.some_ne_none _

theorem writeDone_ne_none {d : SimpleDMA} {off n : Nat} {addr : Loc}
    (hpc : d.pc = .write off n addr) : d.writeDone ≠ none := by
  rw [SimpleDMA.writeDone, hpc]
  exact Option.some_ne_none _

/-- A read transaction in memory is answered at once. -/
theorem canStep_readRam (hex : ¬ s.harts.Exited) {off o : Nat} {a : Arr}
    (hpc : s.dma.pc = .read off 16 (.arr a o)) (hlen : o + 16 ≤ (s.harts.mem.arr a).length) :
    s.CanStep p := by
  refine canStep_dma hex fun junk stray => ?_
  rw [dmaStep, hpc]
  dsimp only
  rw [readStep, if_pos (show o + SimpleDMA.chunk 16 ≤ _ from hlen), ne_eq, Option.map_eq_none_iff]
  exact readDone_ne_none hpc _

/-- A read transaction at a PE goes on: a completely written block is unread. -/
theorem canStep_readPe (hpos : ∀ c ∈ caps, 0 < c) (hex : ¬ s.harts.Exited) {off : Nat} {i : Fin 4}
    (hi : (s.pes i).Inv caps) (hpc : s.dma.pc = .read off 16 (.peRead i 0))
    (hsend : (s.pes i).sending = [])
    (hlt : (s.pes i).returned.length < (s.pes i).written.length) : s.CanStep p := by
  by_cases hr : (s.pes i).receiving = none
  · refine canStep_dma hex fun junk stray => ?_
    rw [dmaStep, hpc]
    dsimp only
    rw [readStep, if_pos ⟨rfl, rfl⟩, if_pos hr, ne_eq, Option.map_eq_none_iff, Traffic.next,
      if_pos hr]
    exact Option.some_ne_none _
  · rcases Traffic.readable hi hpos hr hsend hlt with hrd | hw
    · refine canStep_dma hex fun junk stray => ?_
      obtain ⟨t, ht⟩ := Option.ne_none_iff_exists'.mp (hrd junk stray)
      rw [dmaStep, hpc]
      dsimp only
      rw [readStep, if_pos ⟨rfl, rfl⟩, if_neg hr, ht, Option.bind_some]
      split
      · rw [ne_eq, Option.map_eq_none_iff]
        exact readDone_ne_none hpc _
      · exact Option.some_ne_none _
    · exact canStep_pe hex hw

/-- A write transaction in memory is answered at once. -/
theorem canStep_writeRam (hex : ¬ s.harts.Exited) {off o : Nat} {a : Arr}
    (hpc : s.dma.pc = .write off 16 (.arr a o)) (hlen : o + 16 ≤ (s.harts.mem.arr a).length) :
    s.CanStep p := by
  refine canStep_dma hex fun junk stray => ?_
  rw [dmaStep, hpc]
  dsimp only
  rw [writeStep, if_pos (show o + SimpleDMA.chunk 16 ≤ _ from hlen), ne_eq, Option.map_eq_none_iff]
  exact writeDone_ne_none hpc

/-- A write transaction at a PE goes on: the PE has room for the block. -/
theorem canStep_writePe (hpos : ∀ c ∈ caps, 0 < c) (hex : ¬ s.harts.Exited) {off : Nat} {i : Fin 4}
    (hi : (s.pes i).Inv caps) (hpc : s.dma.pc = .write off 16 (.peStart i 0))
    (hr : (s.pes i).receiving = none)
    (hle : (s.pes i).written.length ≤ (s.pes i).returned.length + blocks caps) : s.CanStep p := by
  by_cases hs : (s.pes i).sending = []
  · refine canStep_dma hex fun junk stray => ?_
    rw [dmaStep, hpc]
    dsimp only
    rw [writeStep, if_pos ⟨rfl, rfl⟩, if_pos hs, ne_eq, Option.map_eq_none_iff, Traffic.next,
      if_pos hs]
    exact Option.some_ne_none _
  · rcases Traffic.writable hi hpos hr hs hle with hwr | hw
    · refine canStep_dma hex fun junk stray => ?_
      obtain ⟨t, ht⟩ := Option.ne_none_iff_exists'.mp hwr
      rw [dmaStep, hpc]
      dsimp only
      rw [writeStep, if_pos ⟨rfl, rfl⟩, if_neg hs, ht, Option.bind_some]
      split
      · rw [ne_eq, Option.map_eq_none_iff]
        exact writeDone_ne_none hpc
      · exact Option.some_ne_none _
    · exact canStep_pe hex hw

end Platform

/-- The calls of the programs never ask a PE to take more than two blocks. -/
theorem written_le (h : (platform p caps input).ReachBy Prompt s) (i : Fin 4) :
    (s.pes i).written.length ≤ 2 := by
  have hcalls : s.calls <+: p.calls :=
    completed_of_stores (harts_inv (platform_harts h)).log_ordered
  have hpre : s.delivered i <+: p.calls := by
    unfold Platform.delivered Platform.served
    split
    · split
      · exact hcalls
      · exact (List.dropLast_prefix _).trans hcalls
    · exact hcalls
  rw [(carried h).written i, List.length_map]
  exact (sent_extends hpre).trans (sent_le p i)

/-- **No deadlock**: until `SYS_EXIT` some component can go on. -/
theorem platform_progress (hpos : ∀ c ∈ caps, 0 < c) (h : (platform p caps input).ReachBy Prompt s)
    (hex : ¬ s.harts.Exited) : s.CanStep p := by
  have hlen := (harts_inv (platform_harts h)).length
  cases hpc : s.dma.pc with
  | waiting => exact Platform.canStep_waiting h hex hpc
  | dispatch => exact Platform.canStep_dispatch h hex hpc
  | read off n addr =>
    obtain ⟨c, -, hroute, rfl, rfl, haddr⟩ := prompt_read h hpc
    rcases hroute.inv with ⟨i, o, hshape, hle⟩ | ⟨i, o, hshape, -, -, hsent⟩
    · rw [haddr, hshape] at hpc
      refine Platform.canStep_readRam hex hpc ?_
      rw [hlen .in]
      exact hle
    · rw [haddr, hshape] at hpc
      have hsend := (carried h).sending_eq_nil (by simp [hpc]) i
      refine Platform.canStep_readPe hpos hex (traffic_inv (platform_pe h i)) hpc hsend ?_
      rw [(carried h).returned i, (carried h).written i, List.length_map,
        Platform.Carried.loaded_of_ne (by simp [hpc]), Platform.delivered, if_pos hsend]
      exact (List.getElem?_eq_some_iff.mp hsent).1
  | write off n addr =>
    obtain ⟨c, -, hroute, rfl, rfl, haddr, -⟩ := prompt_write h hpc
    rcases hroute.inv with ⟨i, o, hshape, -⟩ | ⟨i, o, hshape, -, hle, -⟩
    · rw [haddr, hshape] at hpc
      have hr : (s.pes i).receiving = none := by
        by_contra hne
        obtain ⟨off', n', hread⟩ := platform_receiving h hne
        cases hpc.symm.trans hread
      refine Platform.canStep_writePe hpos hex (traffic_inv (platform_pe h i)) hpc hr ?_
      have := written_le h i
      have := four_le_blocks caps
      omega
    · rw [haddr, hshape] at hpc
      refine Platform.canStep_writeRam hex hpc ?_
      rw [hlen (tmp c.hart), length_tmp]
      exact hle

/-- **At `SYS_EXIT`** the ascending rearrangement of `in` is in `result`. -/
theorem exited_sorted (h : (platform p caps input).ReachBy Prompt s) (hex : s.harts.Exited) :
    (s.harts.mem.arr .result).Pairwise (· ≤ ·) ∧ (s.harts.mem.arr .result).Perm input := by
  obtain ⟨g, hg⟩ := hex
  have hcounted := (harts_inv (platform_harts h)).counted_of_won (h := g) (by rw [hg]; rfl) .hart0
  have hresult := finishing_of_gt (by omega) ((merged h).finishing (by omega))
  rw [hresult]
  exact merge_halves (input_length h)

/-- **Total correctness of the sort**, for every contents of `in` and FIFOs of any positive
capacities, with harts that wait until their request has completed: every run comes to an end, and
it cannot end before `SYS_EXIT`, with the ascending rearrangement of `in` in `result`. -/
theorem sort_completes (p : Program) (caps : List Nat) (hpos : ∀ c ∈ caps, 0 < c)
    (input : List UInt8) :
    (∀ run, ¬ (platform p caps input).Endless Prompt run) ∧
    ∀ s, (platform p caps input).ReachBy Prompt s → s.CanStep p ∨
      (s.harts.Exited ∧ (s.harts.mem.arr .result).Pairwise (· ≤ ·) ∧
        (s.harts.mem.arr .result).Perm input) := by
  refine ⟨platform_endless Prompt, fun s h => ?_⟩
  by_cases hex : s.harts.Exited
  · exact Or.inr ⟨hex, exited_sorted h hex⟩
  · exact Or.inl (platform_progress hpos h hex)

/-- A step of a component, with zeros for what it finds outside. -/
def Component.act : Component → PlatformAct
  | .hart h => .hart h 0
  | .event => .fire
  | .dma => .dma (fun _ => 0) (fun _ => 0)
  | .pe i w => .pe i w

/-- With FIFOs of a single byte some run of `main.cpp` gets to its end. -/
theorem sort_completes_single : ∃ s,
    (platform .main [1, 1, 1, 1, 1] (Platform.resetInput .main)).ReachBy Prompt s ∧
      s.harts.Exited ∧ (s.harts.mem.arr .result).Pairwise (· ≤ ·) := by
  have hinit : (platform .main [1, 1, 1, 1, 1] (Platform.resetInput .main)).init
      { Platform.reset .main with pes := fun _ => Traffic.boot 1 } :=
    ⟨(Platform.reset_init .main).1, rfl, rfl, fun _ => ⟨Pe.boot_fresh 1, rfl, rfl, rfl, rfl, rfl⟩, rfl⟩
  have hall := (sort_completes .main [1, 1, 1, 1, 1] (by decide) (Platform.resetInput .main)).2
  refine (Machine.ReachBy.init hinit).complete (Platform.down_wf .main) fun s hs hend => ?_
  rcases hall s hs with ⟨c, hc⟩ | ⟨hex, hsorted, -⟩
  · obtain ⟨hok, hsome⟩ := hc c.act (by cases c <;> rfl)
    obtain ⟨s', hn⟩ := Option.isSome_iff_exists.mp hsome
    exact ⟨c.act, s', hok, hn, platform_down hs hn⟩
  · exact absurd ⟨hex, hsorted⟩ hend

end SortPlatform

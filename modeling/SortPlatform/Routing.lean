import SortPlatform.Prompt
import SortPlatform.Sw.Passes

/-!
# Where the blocks go

The calls of the programs send every block of `in` through a PE to its place in a `tmp` array. The
plan is static: `sent` and `fetched` follow the blocks through the PEs call by call, and `Routed`
says what a call does at its place.

* `Platform.Carried` — what the PEs and the buffer of the DMA hold, in terms of the calls served.

Principal results: `routed` (every call is in its place), `prompt_readRam`, …, `prompt_writePe`
(which call a transaction of the DMA is for) and `carried` (what is carried in every run whose
harts wait for the DMA).
-/

set_option autoImplicit false

namespace SortPlatform

open Sw RunMerge
open Vp hiding write_data_to_ACC read_data_from_ACC

/-! ## The plan -/

/-- Where the half of a hart begins in `in`. -/
def base (p : Program) : Hart → Nat
  | .hart0 => 0
  | .hart1 => p.half

/-- The blocks that the calls send to a PE, by their offsets in `in`. -/
def sent (i : Fin 4) (cs : List Call) : List Nat :=
  cs.filterMap fun c =>
    match c.src, c.dst with
    | .arr _ off, .peStart j _ => if j = i then some off else none
    | _, _ => none

/-- The number of blocks that the calls fetch from a PE. -/
def fetched (i : Fin 4) (cs : List Call) : Nat :=
  cs.countP fun c =>
    match c.src with
    | .peRead j _ => j = i
    | _ => false

/-- **A call in its place** after the calls `cs`: it sends a block of `in`, or it fetches the
block that belongs at its destination. -/
def Routed (p : Program) (cs : List Call) (c : Call) : Prop :=
  c.len = 16 ∧
    match c.src, c.dst with
    | .arr a off, .peStart _ o => a = .in ∧ o = 0 ∧ off + 16 ≤ p.total
    | .peRead i o, .arr a off => o = 0 ∧ a = tmp c.hart ∧ 16 ∣ off ∧ off + 16 ≤ p.half ∧
        (sent i cs)[fetched i cs]? = some (base p c.hart + off)
    | _, _ => False

instance (p : Program) (cs : List Call) (c : Call) : Decidable (Routed p cs c) :=
  @instDecidableAnd _ _ _ <|
    match c.src, c.dst with
    | .arr _ _, .peStart _ _ => inferInstanceAs (Decidable (_ ∧ _))
    | .peRead _ _, .arr _ _ => inferInstanceAs (Decidable (_ ∧ _))
    | .arr _ _, .arr _ _ | .arr _ _, .peRead _ _ | .arr _ _, .addr _ => instDecidableFalse
    | .peRead _ _, .peStart _ _ | .peRead _ _, .peRead _ _ | .peRead _ _, .addr _ =>
      instDecidableFalse
    | .peStart _ _, _ | .addr _, _ => instDecidableFalse

section Plan

variable {p : Program} {cs : List Call} {c : Call}

/-- **Every call of the programs is in its place.** -/
theorem routed (h : cs ++ [c] <+: p.calls) : Routed p cs c := by
  have hall : ∀ n : Fin p.calls.length, Routed p (p.calls.take n) p.calls[n] := by
    cases p <;> decide
  obtain ⟨t, ht⟩ := h
  have hn : cs.length < p.calls.length := by
    rw [← ht]
    simp
  have hplace := hall ⟨cs.length, hn⟩
  simp only [Fin.getElem_fin] at hplace
  simpa [← ht] using hplace

/-- What a call in its place looks like. -/
theorem Routed.inv (h : Routed p cs c) :
    (∃ i off, c = write_data_to_ACC c.hart (.peStart i 0) (.arr .in off) 16 ∧
      off + 16 ≤ p.total) ∨
    (∃ i off, c = read_data_from_ACC c.hart (.peRead i 0) (.arr (tmp c.hart) off) 16 ∧
      16 ∣ off ∧ off + 16 ≤ p.half ∧ (sent i cs)[fetched i cs]? = some (base p c.hart + off)) := by
  obtain ⟨h, src, dst, len⟩ := c
  obtain ⟨hlen, h⟩ := h
  dsimp only at hlen h
  subst hlen
  split at h
  · obtain ⟨rfl, rfl, hle⟩ := h
    exact Or.inl ⟨_, _, rfl, hle⟩
  · obtain ⟨rfl, rfl, hdvd, hle, hsent⟩ := h
    exact Or.inr ⟨_, _, rfl, hdvd, hle, hsent⟩
  · exact absurd h id

@[simp] theorem sent_write (i j : Fin 4) (h : Hart) (off n : Nat) :
    sent i (cs ++ [write_data_to_ACC h (.peStart j 0) (.arr .in off) n]) =
      sent i cs ++ if j = i then [off] else [] := by
  unfold sent write_data_to_ACC
  rw [List.filterMap_append]
  split <;> simp [*]

@[simp] theorem sent_read (i j : Fin 4) (h : Hart) (a : Arr) (off n : Nat) :
    sent i (cs ++ [read_data_from_ACC h (.peRead j 0) (.arr a off) n]) = sent i cs := by
  simp [sent, read_data_from_ACC]

@[simp] theorem fetched_write (i j : Fin 4) (h : Hart) (off n : Nat) :
    fetched i (cs ++ [write_data_to_ACC h (.peStart j 0) (.arr .in off) n]) = fetched i cs := by
  simp [fetched, write_data_to_ACC]

@[simp] theorem fetched_read (i j : Fin 4) (h : Hart) (a : Arr) (off n : Nat) :
    fetched i (cs ++ [read_data_from_ACC h (.peRead j 0) (.arr a off) n]) =
      fetched i cs + if j = i then 1 else 0 := by
  simp [fetched, read_data_from_ACC, List.countP_singleton]

end Plan

/-- A block of sixteen bytes. -/
def block (xs : List UInt8) (off : Nat) : List UInt8 := slice xs off (off + 16)

/-- **What a call moves.** -/
def datum (p : Program) (input : List UInt8) (c : Call) : List UInt8 :=
  match c.src, c.dst with
  | .arr _ off, _ => block input off
  | _, .arr _ off => (block input (base p c.hart + off)).mergeSort
  | _, _ => []

/-! ## What the DMA is doing -/

variable {p : Program} {caps : List Nat} {input : List UInt8} {s s' : Platform}

theorem routed_of_calls (h : (platform p caps input).ReachBy Prompt s) {c : Call}
    (hc : s.calls = s.served ++ [c]) : Routed p s.served c := by
  have hlog := completed_of_stores (harts_inv (platform_harts h)).log_ordered
  rw [show completed (dmaLog s.harts.trace) = _ from hc] at hlog
  exact routed hlog

/-- The read transaction of the last call. -/
theorem prompt_read (h : (platform p caps input).ReachBy Prompt s) {off n : Nat} {addr : Loc}
    (hpc : s.dma.pc = .read off n addr) : ∃ c, s.calls = s.served ++ [c] ∧
      Routed p s.served c ∧ off = 0 ∧ n = 16 ∧ addr = c.src := by
  obtain ⟨c, hc, hrun, -⟩ := prompt_running h (by simp [hpc])
  have hroute := routed_of_calls h hc
  unfold SimpleDMA.Running at hrun
  rw [hpc] at hrun
  obtain ⟨hat, haddr, -⟩ := hrun
  obtain ⟨rfl, rfl⟩ := hat.eq_zero hroute.1
  rw [Loc.add_zero] at haddr
  exact ⟨c, hc, hroute, rfl, rfl, haddr⟩

/-- The write transaction of the last call. -/
theorem prompt_write (h : (platform p caps input).ReachBy Prompt s) {off n : Nat} {addr : Loc}
    (hpc : s.dma.pc = .write off n addr) : ∃ c, s.calls = s.served ++ [c] ∧
      Routed p s.served c ∧ off = 0 ∧ n = 16 ∧ addr = c.dst ∧ s.dma.notified = false ∧
      ∃ ph k, s.harts.pc c.hart = .transfer ph k := by
  obtain ⟨c, hc, hrun, hnot, hph⟩ := prompt_running h (by simp [hpc])
  have hroute := routed_of_calls h hc
  unfold SimpleDMA.Running at hrun
  rw [hpc] at hrun
  obtain ⟨hat, haddr, -⟩ := hrun
  obtain ⟨rfl, rfl⟩ := hat.eq_zero hroute.1
  rw [Loc.add_zero] at haddr
  exact ⟨c, hc, hroute, rfl, rfl, haddr, hnot, hph⟩

/-- A read transaction in memory is for a call that sends a block of `in`. -/
theorem prompt_readRam (h : (platform p caps input).ReachBy Prompt s) {off n o : Nat} {a : Arr}
    (hpc : s.dma.pc = .read off n (.arr a o)) : off = 0 ∧ n = 16 ∧ a = .in ∧
      ∃ g i, s.calls = s.served ++ [write_data_to_ACC g (.peStart i 0) (.arr .in o) 16] := by
  obtain ⟨c, hlast, hroute, hoff, hn, haddr⟩ := prompt_read h hpc
  rcases hroute.inv with ⟨i, o', hshape, -⟩ | ⟨i, o', hshape, -⟩
  · rw [hshape] at haddr hlast
    cases haddr
    exact ⟨hoff, hn, rfl, c.hart, i, hlast⟩
  · rw [hshape] at haddr
    cases haddr

/-- A read transaction at a PE is for a call that fetches the block the PE gives back next. -/
theorem prompt_readPe (h : (platform p caps input).ReachBy Prompt s) {off n k : Nat} {i : Fin 4}
    (hpc : s.dma.pc = .read off n (.peRead i k)) : off = 0 ∧ n = 16 ∧
      ∃ g o, s.calls = s.served ++ [read_data_from_ACC g (.peRead i 0) (.arr (tmp g) o) 16] ∧
        (sent i s.served)[fetched i s.served]? = some (base p g + o) := by
  obtain ⟨c, hlast, hroute, hoff, hn, haddr⟩ := prompt_read h hpc
  rcases hroute.inv with ⟨j, o, hshape, -⟩ | ⟨j, o, hshape, -, -, hsent⟩
  · rw [hshape] at haddr
    cases haddr
  · rw [hshape] at haddr hlast
    cases haddr
    exact ⟨hoff, hn, c.hart, o, hlast, hsent⟩

/-- A write transaction in memory is for a call that fetches a block into a `tmp`. -/
theorem prompt_writeRam (h : (platform p caps input).ReachBy Prompt s) {off n o : Nat} {a : Arr}
    (hpc : s.dma.pc = .write off n (.arr a o)) : off = 0 ∧ n = 16 ∧ s.dma.notified = false ∧
      ∃ g i, a = tmp g ∧ 16 ∣ o ∧ o + 16 ≤ p.half ∧
        s.calls = s.served ++ [read_data_from_ACC g (.peRead i 0) (.arr (tmp g) o) 16] ∧
        ∃ ph k, s.harts.pc g = .transfer ph k := by
  obtain ⟨c, hlast, hroute, hoff, hn, haddr, hnot, hph⟩ := prompt_write h hpc
  rcases hroute.inv with ⟨i, o', hshape, -⟩ | ⟨i, o', hshape, hdvd, hle, -⟩
  · rw [hshape] at haddr
    cases haddr
  · rw [hshape] at haddr hlast
    cases haddr
    exact ⟨hoff, hn, hnot, c.hart, i, rfl, hdvd, hle, hlast, hph⟩

/-- A write transaction at a PE is for a call that sends a block of `in`. -/
theorem prompt_writePe (h : (platform p caps input).ReachBy Prompt s) {off n k : Nat} {i : Fin 4}
    (hpc : s.dma.pc = .write off n (.peStart i k)) : off = 0 ∧ n = 16 ∧ s.dma.notified = false ∧
      ∃ g o, o + 16 ≤ p.total ∧
        s.calls = s.served ++ [write_data_to_ACC g (.peStart i 0) (.arr .in o) 16] := by
  obtain ⟨c, hlast, hroute, hoff, hn, haddr, hnot, -⟩ := prompt_write h hpc
  rcases hroute.inv with ⟨j, o, hshape, hle⟩ | ⟨j, o, hshape, -⟩
  · rw [hshape] at haddr hlast
    cases haddr
    exact ⟨hoff, hn, hnot, c.hart, o, hle, hlast⟩
  · rw [hshape] at haddr
    cases haddr

/-! ## The PEs -/

/-- The calls whose blocks PE `i` has begun to take. -/
def Platform.delivered (s : Platform) (i : Fin 4) : List Call :=
  if (s.pes i).sending = [] then s.served else s.calls

/-- The calls whose blocks the DMA has read. -/
def Platform.loaded (s : Platform) : List Call :=
  match s.dma.pc with
  | .write _ _ _ => s.calls
  | _ => s.served

/-- **The PEs have got what was sent to them**, and the DMA holds what the last call moves. -/
structure Platform.Carried (p : Program) (input : List UInt8) (s : Platform) : Prop where
  written : ∀ i, (s.pes i).written = (sent i (s.delivered i)).map (block input)
  returned : ∀ i, (s.pes i).returned.length = fetched i s.loaded
  sending : ∀ i, (s.pes i).sending ≠ [] → ∃ off n, s.dma.pc = .write off n (.peStart i 0)
  buffer : ∀ off n addr, s.dma.pc = .write off n addr → ∀ c, s.calls = s.served ++ [c] →
    s.dma.buffer.take 16 = datum p input c

namespace Platform.Carried

/-- Outside of a write transaction nothing is on its way into a PE. -/
theorem sending_eq_nil (hc : s.Carried p input) (hpc : ∀ off n addr, s.dma.pc ≠ .write off n addr)
    (i : Fin 4) : (s.pes i).sending = [] := by
  by_contra hne
  obtain ⟨off, n, hw⟩ := hc.sending i hne
  exact hpc _ _ _ hw

theorem loaded_of_ne (hpc : ∀ off n addr, s.dma.pc ≠ .write off n addr) : s.loaded = s.served := by
  unfold loaded
  split
  · rename_i hw
    exact absurd hw (hpc _ _ _)
  · rfl

theorem loaded_of_write {off n : Nat} {addr : Loc} (hpc : s.dma.pc = .write off n addr) :
    s.loaded = s.calls := by
  unfold loaded
  rw [hpc]

/-- Steps outside of write transactions that leave the record of the PEs alone. -/
theorem quiet (hc : s.Carried p input) (hpc : ∀ off n addr, s.dma.pc ≠ .write off n addr)
    (hpc' : ∀ off n addr, s'.dma.pc ≠ .write off n addr) (hserved : s'.served = s.served)
    (hpes : ∀ i, (s.pes i).Quiet (s'.pes i)) : s'.Carried p input := by
  have hnil := hc.sending_eq_nil hpc
  have hnil' : ∀ i, (s'.pes i).sending = [] := fun i => (hpes i).sending.trans (hnil i)
  refine ⟨fun i => ?_, fun i => ?_, fun i hne => absurd (hnil' i) hne,
    fun off n addr hw => absurd hw (hpc' _ _ _)⟩
  · rw [(hpes i).written, hc.written i, delivered, delivered, if_pos (hnil i), if_pos (hnil' i),
      hserved]
  · rw [(hpes i).returned, hc.returned i, loaded_of_ne hpc, loaded_of_ne hpc', hserved]

/-- Steps that leave the DMA and the record of the PEs alone. -/
theorem still (hc : s.Carried p input) (hdma : s'.dma = s.dma) (hcalls : s'.calls = s.calls)
    (hpes : ∀ i, (s.pes i).Quiet (s'.pes i)) : s'.Carried p input := by
  have hserved : s'.served = s.served := by
    unfold served
    rw [hdma, hcalls]
  refine ⟨fun i => ?_, fun i => ?_, fun i hne => ?_, fun off n addr hw c hlast => ?_⟩
  · rw [(hpes i).written, hc.written i, delivered, delivered, (hpes i).sending, hserved, hcalls]
  · rw [(hpes i).returned, hc.returned i, loaded, loaded, hdma, hserved, hcalls]
  · rw [(hpes i).sending] at hne
    rw [hdma]
    exact hc.sending i hne
  · rw [hdma] at hw ⊢
    rw [hcalls, hserved] at hlast
    exact hc.buffer off n addr hw c hlast

/-- The end of a read transaction. -/
theorem readDone (hc : s.Carried p input) (hpc : ∀ off n addr, s.dma.pc ≠ .write off n addr)
    {c : Call} (hlast : s.calls = s.served ++ [c]) {off n : Nat} {addr : Loc}
    (hpc' : s'.dma.pc = .write off n addr) (hcalls : s'.calls = s.calls)
    (hserved : s'.served = s.served) (hbuffer : s'.dma.buffer.take 16 = datum p input c)
    (hsending : ∀ i, (s'.pes i).sending = (s.pes i).sending)
    (hwritten : ∀ i, (s'.pes i).written = (s.pes i).written)
    (hreturned : ∀ i, (s'.pes i).returned.length = fetched i s.calls) : s'.Carried p input := by
  have hnil := hc.sending_eq_nil hpc
  have hnil' : ∀ i, (s'.pes i).sending = [] := fun i => (hsending i).trans (hnil i)
  refine ⟨fun i => ?_, fun i => ?_, fun i hne => absurd (hnil' i) hne, fun off n addr hw c' hc' => ?_⟩
  · rw [hwritten, hc.written i, delivered, delivered, if_pos (hnil i), if_pos (hnil' i), hserved]
  · rw [hreturned, loaded_of_write hpc', hcalls]
  · rw [hcalls, hserved, hlast, List.append_cancel_left_eq] at hc'
    cases hc'
    exact hbuffer

/-- The end of a write transaction. -/
theorem writeDone (hc : s.Carried p input) {off n : Nat} {addr : Loc}
    (hpc : s.dma.pc = .write off n addr) (hpc' : s'.dma.pc = .waiting) (hserved : s'.served = s.calls)
    (hsending : ∀ i, (s'.pes i).sending = [])
    (hwritten : ∀ i, (s'.pes i).written = (sent i s.calls).map (block input))
    (hreturned : ∀ i, (s'.pes i).returned = (s.pes i).returned) : s'.Carried p input := by
  have hne : ∀ off n addr, s'.dma.pc ≠ .write off n addr := by simp [hpc']
  refine ⟨fun i => ?_, fun i => ?_, fun i h => absurd (hsending i) h,
    fun off n addr hw => absurd hw (hne _ _ _)⟩
  · rw [hwritten, delivered, if_pos (hsending i), hserved]
  · rw [hreturned, hc.returned i, loaded_of_write hpc, loaded_of_ne hne, hserved]

end Platform.Carried

/-! ## Steps -/

theorem Platform.setPe_quiet {i : Fin 4} {t : Traffic} (h : (s.pes i).Quiet t) (j : Fin 4) :
    (s.pes j).Quiet ((s.setPe i t).pes j) := by
  by_cases hj : j = i
  · subst hj
    rwa [setPe_self]
  · rw [setPe_of_ne s t hj]
    exact .refl _

theorem take_patch (buffer bs : List UInt8) : (patch buffer 0 bs).take bs.length = bs := by
  simp [patch]

theorem bytesOf_bufferOf_take {bs : List UInt8} (stray : Nat → UInt8) {n : Nat}
    (h : n ≤ bs.length) : bytesOf (bufferOf bs stray) n = bs.take n := by
  have hlen : (bs.take n).length = n := by rw [List.length_take, Nat.min_eq_left h]
  conv => rhs; rw [← bytesOf_bufferOf (bs.take n) stray, hlen]
  rw [bytesOf_eq_iff]
  intro i hi
  simp only [bufferOf, List.getD_eq_getElem?_getD, List.getElem?_take_of_lt hi]

/-- **`in` is not written.** -/
theorem platform_in (h : (platform p caps input).ReachBy Prompt s) :
    s.harts.mem.arr .in = input := by
  induction h with
  | init h0 => exact h0.2.1
  | @step s s' a hs hok hn ih =>
    cases (platform_effect hn).2 with
    | @hart h _ _ _ _ hstep =>
      rcases (hartStep_move hstep).arr .in with heq | ⟨-, ha⟩ | ⟨-, ha⟩
      · exact heq.trans ih
      · cases h <;> rcases ha with ha | ha <;> cases ha
      · cases ha
    | @writeRam _ _ off n o a d hpc hlen hd =>
      obtain ⟨-, -, -, g, i, rfl, -⟩ := prompt_writeRam hs hpc
      show Function.update s.harts.mem.arr (tmp g) _ .in = input
      rw [Function.update_of_ne (by cases g <;> simp [tmp])]
      exact ih
    | _ => exact ih

theorem input_length (h : (platform p caps input).ReachBy Prompt s) : input.length = p.total := by
  rw [← platform_in h]
  exact (harts_inv (platform_harts h)).length .in

theorem block_length {xs : List UInt8} {off : Nat} (h : off + 16 ≤ xs.length) :
    (block xs off).length = 16 := by
  rw [block, slice_length h, Nat.add_sub_cancel_left]

namespace Platform.Carried

/-- A block of `in` is in the buffer. -/
theorem readRam (hc : s.Carried p input) (hs : (platform p caps input).ReachBy Prompt s)
    {off n o : Nat} {a : Arr} {d : SimpleDMA} (hpc : s.dma.pc = .read off n (.arr a o))
    (hlen : o + SimpleDMA.chunk n ≤ (s.harts.mem.arr a).length)
    (hr : s.dma.readDone (slice (s.harts.mem.arr a) o (o + SimpleDMA.chunk n)) = some d) :
    (s.enter d).Carried p input := by
  obtain ⟨rfl, rfl, rfl, g, i, hlast⟩ := prompt_readRam hs hpc
  obtain ⟨hpc', hbuffer⟩ := SimpleDMA.readDone_eq_some hpc hr
  refine hc.readDone (by simp [hpc]) hlast hpc' rfl
    (served_readDone hpc hr) ?_ (fun _ => rfl) (fun _ => rfl) ?_
  · have hlen16 : (block (s.harts.mem.arr .in) o).length = 16 := block_length hlen
    have htake := take_patch s.dma.buffer (block (s.harts.mem.arr .in) o)
    rw [hlen16, platform_in hs] at htake
    rw [platform_in hs] at hbuffer
    show d.buffer.take 16 = _
    rw [hbuffer]
    exact htake
  · intro j
    show (s.pes j).returned.length = _
    rw [hc.returned j, loaded_of_ne (by simp [hpc]), hlast, fetched_write]

/-- **The PE gives back the block that belongs at the destination**, sorted. -/
theorem readPe (hc : s.Carried p input) (hs : (platform p caps input).ReachBy Prompt s)
    {junk stray : Nat → UInt8} {off n : Nat} {i : Fin 4} {t : Traffic} {d : SimpleDMA}
    (hpc : s.dma.pc = .read off n (.peRead i 0)) (ht : (s.pes i).next (.read junk stray) = some t)
    (hrec : t.receiving = none) (hreach : (traffic caps).Reach t)
    (hd : s.dma.readDone (t.returned.getLastD []) = some d) :
    ((s.setPe i t).enter d).Carried p input := by
  obtain ⟨rfl, rfl, g, o, hlast, hsent⟩ := prompt_readPe hs hpc
  obtain ⟨hpc', hbuffer⟩ := SimpleDMA.readDone_eq_some hpc hd
  obtain ⟨hsend, hwrit, ⟨hne, -⟩ | ⟨-, x, hret⟩⟩ := Traffic.next_read ht
  · exact absurd hrec hne
  have hlast' : t.returned.getLastD [] = x := by simp [hret]
  have hx : x ∈ t.returned := by simp [hret]
  have hcount : (s.pes i).returned.length = fetched i s.served := by
    rw [hc.returned i, loaded_of_ne (by simp [hpc])]
  have hnil := hc.sending_eq_nil (by simp [hpc])
  have hdatum : x = (block input (base p g + o)).mergeSort := by
    have hw : t.written[fetched i s.served]? = some (block input (base p g + o)) := by
      rw [hwrit, hc.written i, delivered, if_pos (hnil i), List.getElem?_map, hsent]
      rfl
    have hlt : fetched i s.served < t.returned.length := by
      rw [hret, List.length_append, hcount]
      exact Nat.lt_succ_self _
    obtain ⟨hlt', heq⟩ := (returned_sorted caps t hreach).2 _ hlt
    rw [List.getElem?_eq_getElem hlt', Option.some_inj] at hw
    rw [hw] at heq
    rw [← heq]
    simp [hret, ← hcount]
  have hpes : ∀ j, ((s.setPe i t).pes j).sending = (s.pes j).sending ∧
      ((s.setPe i t).pes j).written = (s.pes j).written := by
    intro j
    by_cases hj : j = i
    · subst hj
      rw [setPe_self]
      exact ⟨hsend, hwrit⟩
    · rw [setPe_of_ne s t hj]
      exact ⟨rfl, rfl⟩
  have hserved : ((s.setPe i t).enter d).served = s.served :=
    served_readDone (show (s.setPe i t).dma.pc = _ from hpc) hd
  refine hc.readDone (by simp [hpc]) hlast hpc' rfl hserved ?_ (fun j => (hpes j).1)
    (fun j => (hpes j).2) ?_
  · have htake := take_patch s.dma.buffer x
    rw [(traffic_inv hreach).result x hx] at htake
    show d.buffer.take 16 = _
    rw [hbuffer, hlast', htake, hdatum]
    rfl
  · intro j
    show ((s.setPe i t).pes j).returned.length = _
    rw [hlast, fetched_read]
    by_cases hj : j = i
    · subst hj
      rw [setPe_self, if_pos rfl, hret, List.length_append, hcount]
      rfl
    · rw [setPe_of_ne s t hj, if_neg (Ne.symm hj), hc.returned j, loaded_of_ne (by simp [hpc])]
      rfl

/-- The buffer is in `tmp`. -/
theorem writeRam (hc : s.Carried p input) (hs : (platform p caps input).ReachBy Prompt s)
    {off n o : Nat} {a : Arr} {d : SimpleDMA} (hpc : s.dma.pc = .write off n (.arr a o))
    (hd : s.dma.writeDone = some d) {mem : Memory} :
    (Platform.enter { s with harts := { s.harts with mem := mem } } d).Carried p input := by
  obtain ⟨rfl, rfl, hnot, g, j, rfl, -, -, hlast, -⟩ := prompt_writeRam hs hpc
  have hpc' := SimpleDMA.writeDone_eq_some hpc (by decide) hd
  have hidle : d.Idle := ⟨hpc', (SimpleDMA.notified_writeDone hd).trans hnot⟩
  have hnil : ∀ i, (s.pes i).sending = [] := by
    intro i
    by_contra hne
    obtain ⟨off, n, hw⟩ := hc.sending i hne
    cases hpc.symm.trans hw
  refine hc.writeDone hpc hpc' (served_of_idle hidle) hnil (fun i => ?_) (fun _ => rfl)
  show (s.pes i).written = _
  rw [hc.written i, delivered, if_pos (hnil i), hlast, sent_read]

/-- A PE begins to take a block of `in`. -/
theorem beginWrite (hc : s.Carried p input) (hs : (platform p caps input).ReachBy Prompt s)
    {stray : Nat → UInt8} {off n : Nat} {i : Fin 4} {t : Traffic}
    (hpc : s.dma.pc = .write off n (.peStart i 0))
    (hsend : (s.pes i).sending = [])
    (ht : (s.pes i).next (.beginWrite (bufferOf s.dma.buffer stray)) = some t) :
    (s.setPe i t).Carried p input := by
  obtain ⟨rfl, rfl, -, g, o, hle, hlast⟩ := prompt_writePe hs hpc
  obtain ⟨hsend', hwrit, hret⟩ := Traffic.next_beginWrite ht
  have hbuffer : s.dma.buffer.take 16 = block input o := hc.buffer _ _ _ hpc _ hlast
  have hlen : 16 ≤ s.dma.buffer.length := by
    have hblock : (block input o).length = 16 := block_length (by rw [input_length hs]; exact hle)
    rw [← hbuffer, List.length_take] at hblock
    omega
  rw [bytesOf_bufferOf_take stray hlen, hbuffer] at hwrit
  have hne : t.sending ≠ [] := by
    rw [hsend', ← List.length_pos_iff, bytesOf_length]
    decide
  refine ⟨fun j => ?_, fun j => ?_, fun j hj => ?_, hc.buffer⟩
  · by_cases hj : j = i
    · subst hj
      rw [setPe_self, hwrit, hc.written j, delivered, delivered, if_pos hsend, setPe_self,
        if_neg hne]
      show _ = (sent j s.calls).map _
      rw [hlast, sent_write, if_pos rfl, List.map_append]
      rfl
    · have := hc.written j
      rw [delivered] at this ⊢
      rw [setPe_of_ne s t hj]
      exact this
  · by_cases hj : j = i
    · subst hj
      rw [setPe_self, hret]
      exact hc.returned j
    · rw [setPe_of_ne s t hj]
      exact hc.returned j
  · by_cases hji : j = i
    · subst hji
      exact ⟨_, _, hpc⟩
    · rw [setPe_of_ne s t hji] at hj
      exact hc.sending j hj

/-- A PE takes a byte of its block. -/
theorem writeByte (hc : s.Carried p input) {i : Fin 4} {t : Traffic}
    (ht : (s.pes i).next .write = some t) (hsend' : t.sending ≠ []) :
    (s.setPe i t).Carried p input := by
  obtain ⟨hsend, hwrit, hret⟩ := Traffic.next_write ht
  refine ⟨fun j => ?_, fun j => ?_, fun j hj => ?_, hc.buffer⟩
  · have hw := hc.written j
    rw [delivered] at hw ⊢
    by_cases hj : j = i
    · subst hj
      rw [if_neg hsend] at hw
      rw [setPe_self, if_neg hsend', hwrit]
      exact hw
    · rw [setPe_of_ne s t hj]
      exact hw
  · by_cases hj : j = i
    · subst hj
      rw [setPe_self, hret]
      exact hc.returned j
    · rw [setPe_of_ne s t hj]
      exact hc.returned j
  · by_cases hji : j = i
    · subst hji
      exact hc.sending j hsend
    · rw [setPe_of_ne s t hji] at hj
      exact hc.sending j hj

/-- A PE has taken its block. -/
theorem writePe (hc : s.Carried p input) (hs : (platform p caps input).ReachBy Prompt s)
    {off n : Nat} {i : Fin 4} {t : Traffic} {d : SimpleDMA}
    (hpc : s.dma.pc = .write off n (.peStart i 0)) (ht : (s.pes i).next .write = some t)
    (hsend' : t.sending = []) (hd : s.dma.writeDone = some d) :
    ((s.setPe i t).enter d).Carried p input := by
  obtain ⟨rfl, rfl, hnot, g, o, -, hlast⟩ := prompt_writePe hs hpc
  have hpc' := SimpleDMA.writeDone_eq_some hpc (by decide) hd
  have hidle : d.Idle := ⟨hpc', (SimpleDMA.notified_writeDone hd).trans hnot⟩
  obtain ⟨hsend, hwrit, hret⟩ := Traffic.next_write ht
  have hnil : ∀ j, j ≠ i → (s.pes j).sending = [] := by
    intro j hj
    by_contra hne
    obtain ⟨off, n, hw⟩ := hc.sending j hne
    cases hpc.symm.trans hw
    exact hj rfl
  refine hc.writeDone hpc hpc' (served_of_idle hidle) (fun j => ?_) (fun j => ?_) (fun j => ?_)
  · show ((s.setPe i t).pes j).sending = []
    by_cases hj : j = i
    · subst hj
      rw [setPe_self, hsend']
    · rw [setPe_of_ne s t hj, hnil j hj]
  · show ((s.setPe i t).pes j).written = _
    by_cases hj : j = i
    · subst hj
      rw [setPe_self, hwrit, hc.written j, delivered, if_neg hsend]
    · rw [setPe_of_ne s t hj, hc.written j, delivered, if_pos (hnil j hj), hlast, sent_write,
        if_neg (Ne.symm hj), List.append_nil]
  · show ((s.setPe i t).pes j).returned = _
    by_cases hj : j = i
    · subst hj
      rw [setPe_self, hret]
    · rw [setPe_of_ne s t hj]

end Platform.Carried

/-- **What goes into the PEs and what comes back.** -/
theorem carried (h : (platform p caps input).ReachBy Prompt s) : s.Carried p input := by
  induction h with
  | @init s h0 =>
    obtain ⟨⟨-, -, -, htr⟩, -, hd, hpes, -⟩ := h0
    have hidle : s.dma.Idle := by
      rw [hd]
      exact ⟨rfl, rfl⟩
    have hserved : s.served = [] := by
      rw [Platform.served_of_idle hidle, Platform.calls, htr]
      rfl
    have hne : ∀ off n addr, s.dma.pc ≠ .write off n addr := by simp [hidle.1]
    refine ⟨fun i => ?_, fun i => ?_, fun i hi => ?_, fun _ _ _ hw => absurd hw (hne _ _ _)⟩
    · obtain ⟨-, -, hsend, hwrit, -, -⟩ := hpes i
      rw [hwrit, Platform.delivered, if_pos hsend, hserved]
      rfl
    · obtain ⟨-, -, -, -, -, hret⟩ := hpes i
      rw [hret, Platform.Carried.loaded_of_ne hne, hserved]
      rfl
    · obtain ⟨-, -, hsend, -, -, -⟩ := hpes i
      exact absurd hsend hi
  | @step s s' a hs hok hn ih =>
    have hp := prompted hs
    have hi := harts_inv (platform_harts hs)
    cases (platform_effect hn).2 with
    | hart hstep =>
      rcases hp.store hi hok hstep rfl with ⟨hdma, hcalls⟩ | ⟨hwait, hwait', hserved⟩
      · exact ih.still hdma hcalls fun i => .refl _
      · exact ih.quiet (by simp [hwait]) (fun _ _ _ hw => by cases hwait'.symm.trans hw) hserved
          fun i => .refl _
    | fire hf =>
      obtain ⟨hnot, -⟩ := SimpleDMA.fire_eq_some hf
      obtain ⟨hpc', hserved⟩ := hp.served_fire hf
      exact ih.quiet (by simp [hp.notified hnot]) (by simp [hpc']) hserved fun i => .refl _
    | run hpc hr =>
      obtain ⟨⟨off, n, addr, hpc'⟩, hserved⟩ := prompt_served_run hs hpc hr
      exact ih.quiet (by simp [hpc]) (by simp [Platform.enter, hpc']) hserved fun i => .refl _
    | readRam hpc hlen hr => exact ih.readRam hs hpc hlen hr
    | @readPe _ _ _ _ i t d hpc hchunk ht hrec hd =>
      have hreach := platform_pe (.step hs hok hn) i
      rw [show ((s.setPe i t).enter d).pes i = t from s.setPe_self i t] at hreach
      exact ih.readPe hs hpc ht hrec hreach hd
    | writeRam hpc hlen hd => exact ih.writeRam hs hpc hd
    | beginWrite hpc hsend ht => exact ih.beginWrite hs hpc hsend ht
    | writeByte hpc ht hsend => exact ih.writeByte ht hsend
    | writePe hpc ht hsend hd => exact ih.writePe hs hpc ht hsend hd
    | beginRead hpc hr ht =>
      exact ih.still rfl rfl (Platform.setPe_quiet (Traffic.next_beginRead ht))
    | readByte hpc ht hr =>
      obtain ⟨hsend, hwrit, ⟨-, hret⟩ | ⟨hnone, -⟩⟩ := Traffic.next_read ht
      · exact ih.still rfl rfl (Platform.setPe_quiet ⟨hsend, hwrit, hret⟩)
      · exact absurd hnone hr
    | thread ht => exact ih.still rfl rfl (Platform.setPe_quiet (Traffic.next_thread ht))

end SortPlatform

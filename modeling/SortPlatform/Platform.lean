import SortPlatform.Sw.Handover
import SortPlatform.Vp.Dma
import SortPlatform.Vp.Streaming

/-!
# The platform

The two harts, the DMA and the four PEs, every step interleaved with every other. A store of a
hart to a register of the DMA is one step of both; a transaction of the DMA with a memory array is
one step, a transaction with a PE goes byte by byte and may block. All transfers of the programs
have length 16 and start at the local address that the PEs serve; other accesses to a PE are not
modelled.

`NoClobber` is the condition under which the requests are served: the event fires only while
`run` waits, and the stores of a hart are admitted.

Principal results:

* `platform_harts`, `platform_pe` — the harts and each PE run as they do on their own.
* `requests_served` — with `NoClobber`, every call leads to its two transactions, in order.
* `first_request_lost` — without it, the first request of `main.cpp` is lost.
-/

set_option autoImplicit false

namespace SortPlatform

open Sw Vp RunMerge

/-! ## The machine -/

structure Platform where
  harts : Harts
  dma : SimpleDMA
  pes : Fin 4 → Traffic
  /-- The transactions begun. -/
  log : List Transaction

inductive PlatformAct where
  | hart (h : Hart) (stray : UInt8)
  /-- `run_event` fires. -/
  | fire
  /-- The next step of `run`; `junk` is the indeterminate `o_buffer` of a PE, `stray` the memory
  behind `buffer`. -/
  | dma (junk stray : Nat → UInt8)
  /-- A step of a `do_merge` thread. -/
  | pe (i : Fin 4) (w : Thread)

namespace Platform

/-- The calls made so far. -/
def calls (s : Platform) : List Call := completed (dmaLog s.harts.trace)

/-- The stores of a step of a hart reach the registers. -/
def storeAll (d : SimpleDMA) (log : List (Call × DmaReg)) : SimpleDMA :=
  log.foldl (fun d x => d.transport x.1 x.2) d

/-- The DMA goes on, with the transaction it enters. -/
def enter (s : Platform) (d : SimpleDMA) : Platform :=
  { s with dma := d, log := s.log ++ d.transaction }

def setPe (s : Platform) (i : Fin 4) (t : Traffic) : Platform :=
  { s with pes := Function.update s.pes i t }

@[simp] theorem setPe_self (s : Platform) (i : Fin 4) (t : Traffic) : (s.setPe i t).pes i = t :=
  Function.update_self ..

theorem setPe_of_ne (s : Platform) {i j : Fin 4} (t : Traffic) (h : j ≠ i) :
    (s.setPe i t).pes j = s.pes j :=
  Function.update_of_ne h ..

/-- A step of a read transaction of `n` bytes. -/
def readStep (s : Platform) (junk stray : Nat → UInt8) (n : Nat) : Loc → Option Platform
  | .arr a off =>
    if off + n ≤ (s.harts.mem.arr a).length then
      (s.dma.readDone (slice (s.harts.mem.arr a) off (off + n))).map s.enter
    else none
  | .peRead i off =>
    if off = 0 ∧ n = 16 then
      if (s.pes i).receiving = none then ((s.pes i).next .beginRead).map (s.setPe i)
      else ((s.pes i).next (.read junk stray)).bind fun t =>
        if t.receiving = none then
          (s.dma.readDone (t.returned.getLastD [])).map (s.setPe i t).enter
        else some (s.setPe i t)
    else none
  | _ => none

/-- A step of a write transaction of `n` bytes. -/
def writeStep (s : Platform) (stray : Nat → UInt8) (n : Nat) : Loc → Option Platform
  | .arr a off =>
    if off + n ≤ (s.harts.mem.arr a).length then
      s.dma.writeDone.map
        { s with harts := { s.harts with
            mem := s.harts.mem.setArr a (patch (s.harts.mem.arr a) off (s.dma.buffer.take n)) }
        }.enter
    else none
  | .peStart i off =>
    if off = 0 ∧ n = 16 then
      if (s.pes i).sending = [] then
        ((s.pes i).next (.beginWrite (bufferOf s.dma.buffer stray))).map (s.setPe i)
      else ((s.pes i).next .write).bind fun t =>
        if t.sending = [] then s.dma.writeDone.map (s.setPe i t).enter else some (s.setPe i t)
    else none
  | _ => none

/-- The next step of `run`. -/
def dmaStep (s : Platform) (junk stray : Nat → UInt8) : Option Platform :=
  match s.dma.pc with
  | .waiting => none
  | .dispatch => s.dma.run.map s.enter
  | .read _ n addr => s.readStep junk stray (SimpleDMA.chunk n) addr
  | .write _ n addr => s.writeStep stray (SimpleDMA.chunk n) addr

def next (p : Program) (s : Platform) (a : PlatformAct) : Option Platform :=
  if s.harts.Exited then none
  else
    match a with
    | .hart h stray => (hartStep p h stray (s.harts.pc h) s.harts.mem).map fun r =>
      { s with
        harts := ⟨Function.update s.harts.pc h r.1, r.2.1, s.harts.trace ++ r.2.2⟩
        dma := storeAll s.dma (dmaLog r.2.2) }
    | .fire => s.dma.fire.map fun d => { s with dma := d }
    | .dma junk stray => s.dmaStep junk stray
    | .pe i w => ((s.pes i).next (.thread w)).map (s.setPe i)

end Platform

/-- Reset with `input` in `in`; FIFOs of capacities `caps` in every PE. -/
def platform (p : Program) (caps : List Nat) (input : List UInt8) :
    Machine Platform PlatformAct where
  init s := (harts p).init s.harts ∧ s.harts.mem.arr .in = input ∧ s.dma = SimpleDMA.reset ∧
    (∀ i, (traffic caps).init (s.pes i)) ∧ s.log = []
  next := Platform.next p

/-- **A transfer of sixteen bytes at the start of a window of a PE** is an access of `traffic`. -/
theorem pe_access (i : Fin 4) (stray : Nat → UInt8) (buffer : List UInt8) :
    writeAccess i stray buffer 0 16 = writePayload (bufferOf (buffer.take 16) stray) 16 ∧
      readAccess i stray 0 16 = readPayload stray 16 := by
  have hstart : localAddr (mergew1_start_addr i) (PE_START_ADDR i + UInt32.ofNat 0) =
      SOBEL_FILTER_R_ADDR := localAddr_start i (by decide)
  have hread : localAddr (mergew8_start_addr i) (PE_READ_ADDR i + UInt32.ofNat 0) =
      SOBEL_FILTER_RESULT_ADDR := localAddr_read i (by decide)
  unfold writeAccess writePayload readAccess readPayload
  rw [hstart, hread, List.drop_zero]
  exact ⟨rfl, rfl⟩

/-! ## What a step does -/

/-- What a step of the platform can do. -/
inductive Effect (p : Program) (s : Platform) : PlatformAct → Platform → Prop
  | hart {h : Hart} {stray : UInt8} {pc' : HartPc} {mem' : Memory} {ev : List Event}
      (hs : hartStep p h stray (s.harts.pc h) s.harts.mem = some (pc', mem', ev)) :
      Effect p s (.hart h stray)
        { s with
          harts := ⟨Function.update s.harts.pc h pc', mem', s.harts.trace ++ ev⟩
          dma := Platform.storeAll s.dma (dmaLog ev) }
  | fire {d : SimpleDMA} (hf : s.dma.fire = some d) : Effect p s .fire { s with dma := d }
  | run {junk stray : Nat → UInt8} {d : SimpleDMA} (hpc : s.dma.pc = .dispatch)
      (hr : s.dma.run = some d) : Effect p s (.dma junk stray) (s.enter d)
  | readRam {junk stray : Nat → UInt8} {off n o : Nat} {a : Arr} {d : SimpleDMA}
      (hpc : s.dma.pc = .read off n (.arr a o))
      (hlen : o + SimpleDMA.chunk n ≤ (s.harts.mem.arr a).length)
      (hr : s.dma.readDone (slice (s.harts.mem.arr a) o (o + SimpleDMA.chunk n)) = some d) :
      Effect p s (.dma junk stray) (s.enter d)
  | beginRead {junk stray : Nat → UInt8} {off n : Nat} {i : Fin 4} {t : Traffic}
      (hpc : s.dma.pc = .read off n (.peRead i 0)) (hr : (s.pes i).receiving = none)
      (ht : (s.pes i).next .beginRead = some t) : Effect p s (.dma junk stray) (s.setPe i t)
  | readByte {junk stray : Nat → UInt8} {off n : Nat} {i : Fin 4} {t : Traffic}
      (hpc : s.dma.pc = .read off n (.peRead i 0))
      (ht : (s.pes i).next (.read junk stray) = some t) (hr : t.receiving ≠ none) :
      Effect p s (.dma junk stray) (s.setPe i t)
  | readPe {junk stray : Nat → UInt8} {off n : Nat} {i : Fin 4} {t : Traffic} {d : SimpleDMA}
      (hpc : s.dma.pc = .read off n (.peRead i 0)) (hn : SimpleDMA.chunk n = 16)
      (ht : (s.pes i).next (.read junk stray) = some t) (hr : t.receiving = none)
      (hd : s.dma.readDone (t.returned.getLastD []) = some d) :
      Effect p s (.dma junk stray) ((s.setPe i t).enter d)
  | writeRam {junk stray : Nat → UInt8} {off n o : Nat} {a : Arr} {d : SimpleDMA}
      (hpc : s.dma.pc = .write off n (.arr a o))
      (hlen : o + SimpleDMA.chunk n ≤ (s.harts.mem.arr a).length)
      (hd : s.dma.writeDone = some d) :
      Effect p s (.dma junk stray)
        (Platform.enter { s with harts := { s.harts with
          mem := s.harts.mem.setArr a (patch (s.harts.mem.arr a) o
            (s.dma.buffer.take (SimpleDMA.chunk n))) } } d)
  | beginWrite {junk stray : Nat → UInt8} {off n : Nat} {i : Fin 4} {t : Traffic}
      (hpc : s.dma.pc = .write off n (.peStart i 0)) (hs : (s.pes i).sending = [])
      (ht : (s.pes i).next (.beginWrite (bufferOf s.dma.buffer stray)) = some t) :
      Effect p s (.dma junk stray) (s.setPe i t)
  | writeByte {junk stray : Nat → UInt8} {off n : Nat} {i : Fin 4} {t : Traffic}
      (hpc : s.dma.pc = .write off n (.peStart i 0)) (ht : (s.pes i).next .write = some t)
      (hs : t.sending ≠ []) : Effect p s (.dma junk stray) (s.setPe i t)
  | writePe {junk stray : Nat → UInt8} {off n : Nat} {i : Fin 4} {t : Traffic} {d : SimpleDMA}
      (hpc : s.dma.pc = .write off n (.peStart i 0)) (ht : (s.pes i).next .write = some t)
      (hs : t.sending = []) (hd : s.dma.writeDone = some d) :
      Effect p s (.dma junk stray) ((s.setPe i t).enter d)
  | thread {i : Fin 4} {w : Thread} {t : Traffic} (ht : (s.pes i).next (.thread w) = some t) :
      Effect p s (.pe i w) (s.setPe i t)

section Step

variable {p : Program} {caps : List Nat} {input : List UInt8} {s s' : Platform} {a : PlatformAct}

theorem Platform.readStep_effect {junk stray : Nat → UInt8} {off n : Nat} {addr : Loc}
    (hpc : s.dma.pc = .read off n addr)
    (h : s.readStep junk stray (SimpleDMA.chunk n) addr = some s') :
    Effect p s (.dma junk stray) s' := by
  unfold readStep at h
  split at h
  · split at h
    · rename_i hlen
      obtain ⟨d, hd, rfl⟩ := Option.map_eq_some_iff.mp h
      exact .readRam hpc hlen hd
    · cases h
  · split at h
    · rename_i hoff
      obtain ⟨rfl, hn⟩ := hoff
      split at h
      · rename_i hr
        obtain ⟨t, ht, rfl⟩ := Option.map_eq_some_iff.mp h
        exact .beginRead hpc hr ht
      · obtain ⟨t, ht, h⟩ := Option.bind_eq_some_iff.mp h
        split at h
        · rename_i hr
          obtain ⟨d, hd, rfl⟩ := Option.map_eq_some_iff.mp h
          exact .readPe hpc hn ht hr hd
        · rename_i hr
          cases h
          exact .readByte hpc ht hr
    · cases h
  · cases h

theorem Platform.writeStep_effect {junk stray : Nat → UInt8} {off n : Nat} {addr : Loc}
    (hpc : s.dma.pc = .write off n addr)
    (h : s.writeStep stray (SimpleDMA.chunk n) addr = some s') :
    Effect p s (.dma junk stray) s' := by
  unfold writeStep at h
  split at h
  · split at h
    · rename_i hlen
      obtain ⟨d, hd, rfl⟩ := Option.map_eq_some_iff.mp h
      exact .writeRam hpc hlen hd
    · cases h
  · split at h
    · rename_i hoff
      obtain ⟨rfl, -⟩ := hoff
      split at h
      · rename_i hs
        obtain ⟨t, ht, rfl⟩ := Option.map_eq_some_iff.mp h
        exact .beginWrite hpc hs ht
      · obtain ⟨t, ht, h⟩ := Option.bind_eq_some_iff.mp h
        split at h
        · rename_i hs
          obtain ⟨d, hd, rfl⟩ := Option.map_eq_some_iff.mp h
          exact .writePe hpc ht hs hd
        · rename_i hs
          cases h
          exact .writeByte hpc ht hs
    · cases h
  · cases h

/-- **What a step does.** -/
theorem platform_effect (h : (platform p caps input).next s a = some s') :
    ¬ s.harts.Exited ∧ Effect p s a s' := by
  simp only [platform, Platform.next] at h
  split at h
  · cases h
  · rename_i hex
    refine ⟨hex, ?_⟩
    cases a with
    | hart h stray =>
      obtain ⟨⟨pc', mem', ev⟩, hs, rfl⟩ := Option.map_eq_some_iff.mp h
      exact .hart hs
    | fire =>
      obtain ⟨d, hd, rfl⟩ := Option.map_eq_some_iff.mp h
      exact .fire hd
    | dma junk stray =>
      dsimp only [Platform.dmaStep] at h
      split at h
      · cases h
      · rename_i hpc
        obtain ⟨d, hd, rfl⟩ := Option.map_eq_some_iff.mp h
        exact .run hpc hd
      · exact Platform.readStep_effect (by assumption) h
      · exact Platform.writeStep_effect (by assumption) h
    | pe i w =>
      obtain ⟨t, ht, rfl⟩ := Option.map_eq_some_iff.mp h
      exact .thread ht

/-! ## The parts run as they do on their own -/

theorem patch_length {buffer bs : List UInt8} {off : Nat} (h : off + bs.length ≤ buffer.length) :
    (patch buffer off bs).length = buffer.length := by
  unfold patch
  simp only [List.length_append, List.length_take, List.length_drop]
  omega

/-- A step of the platform is at most one of the harts. -/
theorem Effect.harts (h : Effect p s a s') (hex : ¬ s.harts.Exited) :
    s'.harts = s.harts ∨ ∃ b, (harts p).next s.harts b = some s'.harts := by
  cases h with
  | @hart h stray pc' mem' ev hs =>
    refine Or.inr ⟨.hart h stray, ?_⟩
    simp only [Sw.harts, Harts.next]
    rw [if_neg hex, hs]
    rfl
  | @writeRam _ _ off n o a d hpc hlen hd =>
    refine Or.inr ⟨.dma a (patch (s.harts.mem.arr a) o
      (s.dma.buffer.take (SimpleDMA.chunk n))), ?_⟩
    have hpatch : (patch (s.harts.mem.arr a) o
        (s.dma.buffer.take (SimpleDMA.chunk n))).length = (s.harts.mem.arr a).length := by
      apply patch_length
      rw [List.length_take]
      omega
    simp only [Sw.harts, Harts.next]
    rw [if_neg (by simp [hex, hpatch])]
    rfl
  | _ => exact Or.inl rfl

/-- **The harts of the platform run as two harts with a DMA that writes at will.** -/
theorem platform_harts {ok : Platform → PlatformAct → Prop}
    (h : (platform p caps input).ReachBy ok s) : (harts p).Reach s.harts := by
  refine h.simulate Platform.harts ?_ ?_
  · rintro s ⟨h0, -⟩
    exact h0
  intro s a s' _ _ _ hn
  obtain ⟨hex, he⟩ := platform_effect hn
  rcases he.harts hex with heq | ⟨b, hb⟩
  · exact Or.inl heq
  · exact Or.inr ⟨b, trivial, hb⟩

/-- A step of the platform is at most one of a PE. -/
theorem Effect.pe (h : Effect p s a s') (i : Fin 4) :
    s'.pes i = s.pes i ∨ ∃ b, (s.pes i).next b = some (s'.pes i) := by
  have hset : ∀ {j : Fin 4} {t : Traffic} {b : TrafficAct}, (s.pes j).next b = some t →
      Function.update s.pes j t i = s.pes i ∨
        ∃ b, (s.pes i).next b = some (Function.update s.pes j t i) := by
    intro j t b ht
    by_cases hj : i = j
    · subst hj
      rw [Function.update_self]
      exact Or.inr ⟨b, ht⟩
    · rw [Function.update_of_ne hj]
      exact Or.inl rfl
  cases h with
  | beginRead _ _ ht => exact hset ht
  | readByte _ ht => exact hset ht
  | readPe _ _ ht => exact hset ht
  | beginWrite _ _ ht => exact hset ht
  | writeByte _ ht => exact hset ht
  | writePe _ ht => exact hset ht
  | thread ht => exact hset ht
  | _ => exact Or.inl rfl

/-- **Each PE runs as a PE under arbitrary traffic.** -/
theorem platform_pe {ok : Platform → PlatformAct → Prop}
    (h : (platform p caps input).ReachBy ok s) (i : Fin 4) : (traffic caps).Reach (s.pes i) := by
  refine h.simulate (fun s => s.pes i) ?_ ?_
  · rintro s ⟨-, -, -, h0, -⟩
    exact h0 i
  intro s a s' _ _ _ hn
  rcases (platform_effect hn).2.pe i with heq | ⟨b, hb⟩
  · exact Or.inl heq
  · exact Or.inr ⟨b, trivial, hb⟩

/-! ## The registers -/

theorem regs_storeAll (log : List (Call × DmaReg)) : ∀ {d d' : SimpleDMA}, d.regs = d'.regs →
    (Platform.storeAll d log).regs = (Platform.storeAll d' log).regs := by
  induction log with
  | nil => exact fun h => h
  | cons x log ih => exact fun h => ih (SimpleDMA.regs_transport h x.1 x.2)

/-- **The registers hold what the harts stored last.** -/
theorem platform_regs {ok : Platform → PlatformAct → Prop}
    (h : (platform p caps input).ReachBy ok s) :
    s.dma.regs = (Platform.storeAll SimpleDMA.reset (dmaLog s.harts.trace)).regs := by
  induction h with
  | init h0 =>
    obtain ⟨⟨-, -, -, htr⟩, -, hd, -⟩ := h0
    rw [hd, htr]
    rfl
  | step _ _ hn ih =>
    cases (platform_effect hn).2 with
    | hart hs =>
      dsimp only
      rw [dmaLog_append, Platform.storeAll, Platform.storeAll, List.foldl_append]
      exact regs_storeAll _ ih
    | fire hf => exact (SimpleDMA.regs_fire hf).trans ih
    | run _ hr => exact (SimpleDMA.regs_run hr).trans ih
    | readRam _ _ hr => exact (SimpleDMA.regs_readDone hr).trans ih
    | readPe _ _ _ _ hd => exact (SimpleDMA.regs_readDone hd).trans ih
    | writeRam _ _ hd => exact (SimpleDMA.regs_writeDone hd).trans ih
    | writePe _ _ _ hd => exact (SimpleDMA.regs_writeDone hd).trans ih
    | beginRead | readByte | beginWrite | writeByte | thread => exact ih

/-- **Before the last store of a call the registers hold its other parameters.** -/
theorem regs_of_op {c : Call} {log : List (Call × DmaReg)} {cs : List Call}
    (h : log ++ [(c, .op)] <+: stores cs) :
    (Platform.storeAll SimpleDMA.reset log).regs = (c.src, c.dst, c.len) := by
  obtain ⟨ds, -, rfl⟩ := op_of_stores h
  rw [Platform.storeAll, List.foldl_append]
  rfl

/-! ## The requests -/

/-- The store that a hart makes next. -/
def nextStore (p : Program) (s : Harts) (h : Hart) : Option (Call × DmaReg) :=
  match s.pc h with
  | .transfer ph k => (stores (p.transfers ph h))[k]?
  | _ => none

/-- **No step clobbers a request**: the event fires only while `run` waits for it, and a store
neither is absorbed by a pending notification nor changes a register that an outstanding request
has still to read. -/
def NoClobber (p : Program) (s : Platform) : PlatformAct → Prop
  | .hart h _ => ∀ x, nextStore p s.harts h = some x → s.dma.Admits x.1 x.2
  | .fire => s.dma.notified = true → s.dma.pc = .waiting
  | _ => True

instance (p : Program) (s : Platform) : ∀ a, Decidable (NoClobber p s a)
  | .hart h _ => inferInstanceAs (Decidable (∀ x, nextStore p s.harts h = some x → _))
  | .fire => inferInstanceAs (Decidable (_ → _))
  | .dma _ _ | .pe _ _ => inferInstanceAs (Decidable True)

/-- The requests of a platform are served. -/
def Platform.Serving (s : Platform) : Prop :=
  ∃ served running pending, Vp.Serving s.dma s.calls s.log served running pending

theorem Platform.calls_append (tr ev : List Event) :
    completed (dmaLog (tr ++ ev)) = completed (dmaLog tr) ++ completed (dmaLog ev) := by
  rw [dmaLog_append, completed_append]

theorem Platform.Serving.hart {h : Hart} {stray : UInt8} {pc' : HartPc} {mem' : Memory}
    {ev : List Event} (hv : s.Serving) (hok : NoClobber p s (.hart h stray))
    (hs : hartStep p h stray (s.harts.pc h) s.harts.mem = some (pc', mem', ev))
    (hregs : s.dma.regs = (Platform.storeAll SimpleDMA.reset (dmaLog s.harts.trace)).regs)
    (hlog : dmaLog (s.harts.trace ++ ev) <+: stores p.calls) :
    Platform.Serving
      { s with
        harts := ⟨Function.update s.harts.pc h pc', mem', s.harts.trace ++ ev⟩
        dma := Platform.storeAll s.dma (dmaLog ev) } := by
  obtain ⟨served, running, pending, hv⟩ := hv
  have hcalls : completed (dmaLog (s.harts.trace ++ ev)) = s.calls ++ completed (dmaLog ev) :=
    Platform.calls_append s.harts.trace ev
  rcases (hartStep_move hs).made with ⟨hnil, -⟩ | ⟨ph, k, ⟨c, r⟩, hpc, hk, hx, -, -⟩
  · refine ⟨served, running, pending, ?_⟩
    show Vp.Serving (Platform.storeAll s.dma (dmaLog ev))
      (completed (dmaLog (s.harts.trace ++ ev))) s.log served running pending
    rw [hcalls, hnil, completed, List.filterMap_nil, List.append_nil]
    exact hv
  · have hadm : s.dma.Admits c r := hok (c, r) (by rw [nextStore, hpc]; exact hk)
    rw [dmaLog_append, hx] at hlog
    by_cases hr : r = .op
    · subst hr
      rw [regs_of_op hlog] at hregs
      obtain ⟨hsrc, hregs⟩ := Prod.mk.inj hregs
      obtain ⟨hdst, hlen⟩ := Prod.mk.inj hregs
      refine ⟨served, running, some c, ?_⟩
      show Vp.Serving (Platform.storeAll s.dma (dmaLog ev))
        (completed (dmaLog (s.harts.trace ++ ev))) s.log served running (some c)
      rw [hcalls, hx]
      exact hv.call hadm hsrc hdst hlen
    · refine ⟨served, running, pending, ?_⟩
      show Vp.Serving (Platform.storeAll s.dma (dmaLog ev))
        (completed (dmaLog (s.harts.trace ++ ev))) s.log served running pending
      have hnone : completed [(c, r)] = [] := by simp [completed, hr]
      rw [hcalls, hx, hnone, List.append_nil]
      exact hv.store hadm hr

/-- **Every guarded run serves its requests.** -/
theorem platform_serving (h : (platform p caps input).ReachBy (NoClobber p) s) : s.Serving := by
  induction h with
  | init h0 =>
    obtain ⟨⟨-, -, -, htr⟩, -, hd, -, hlog⟩ := h0
    refine ⟨[], none, none, ?_⟩
    rw [Platform.calls, hd, htr, hlog]
    exact serving_reset
  | step hs hok hn ih =>
    have hnext := platform_harts (.step hs hok hn)
    cases (platform_effect hn).2 with
    | hart hstep => exact ih.hart hok hstep (platform_regs hs) (harts_inv hnext).log_ordered
    | fire hf =>
      obtain ⟨served, running, pending, hv⟩ := ih
      exact ⟨_, _, _, hv.fire (hok (SimpleDMA.fire_eq_some hf).1) hf⟩
    | run hpc hr =>
      obtain ⟨served, running, pending, hv⟩ := ih
      exact ⟨_, _, _, hv.run hpc hr⟩
    | readRam _ _ hr =>
      obtain ⟨served, running, pending, hv⟩ := ih
      exact ⟨_, _, _, hv.readDone hr⟩
    | readPe _ _ _ _ hd =>
      obtain ⟨served, running, pending, hv⟩ := ih
      exact ⟨_, _, _, hv.readDone hd⟩
    | writeRam _ _ hd | writePe _ _ _ hd =>
      obtain ⟨served, running, pending, hv⟩ := ih
      obtain ⟨served', running', hv⟩ := hv.writeDone hd
      exact ⟨_, _, _, hv⟩
    | beginRead | readByte | beginWrite | writeByte | thread => exact ih

end Step

/-- **No request is lost, merged or mixed up**: with `NoClobber` the transactions of the DMA are
those of the calls, each call's once, in order and with its own parameters, and all of them once
no request is outstanding. -/
theorem requests_served (p : Program) (caps : List Nat) (input : List UInt8) (s : Platform)
    (h : (platform p caps input).ReachBy (NoClobber p) s) :
    s.log <+: s.calls.flatMap transactions ∧
      (s.dma.Idle → s.log = s.calls.flatMap transactions) := by
  obtain ⟨served, running, pending, hv⟩ := platform_serving h
  exact hv.log_calls

/-! ### Two runs -/

/-- Reset, with `in` a descending sequence and FIFOs of capacity 16. -/
def Platform.reset (p : Program) : Platform where
  harts :=
    { Harts.reset p with
      mem := (Harts.reset p).mem.setArr .in
        ((List.range p.total).map fun i => UInt8.ofNat (p.total - i)) }
  dma := SimpleDMA.reset
  pes _ := Traffic.boot 16
  log := []

def Platform.resetInput (p : Program) : List UInt8 := (Platform.reset p).harts.mem.arr .in

theorem Platform.reset_init (p : Program) :
    (platform p [16, 16, 16, 16, 16] (Platform.resetInput p)).init (Platform.reset p) := by
  refine ⟨⟨rfl, fun a => ?_, fun _ => rfl, rfl⟩, rfl, rfl, fun _ => ?_, rfl⟩
  · cases a <;> cases p <;> rfl
  · exact ⟨Pe.boot_fresh 16, rfl, rfl, rfl, rfl, rfl⟩

def hartSteps (h : Hart) (n : Nat) : List PlatformAct := List.replicate n (.hart h 0)

/-- The event fires, and the DMA moves a block to or from a PE. -/
def moveBlock : List PlatformAct :=
  .fire :: List.replicate 19 (.dma (fun _ => 0) (fun _ => 0))

/-- The threads of the PEs sort one block each. -/
def sortBlocks : List PlatformAct :=
  (List.finRange 4).flatMap fun i =>
    [.mergeW1, .mergeW2, .mergeW4, .mergeW8].flatMap fun w => List.replicate 33 (.pe i w)

/-- `main.cpp` from reset until every block has been to its PE and back. -/
def exchange : List PlatformAct :=
  hartSteps .hart0 12 ++ moveBlock ++ hartSteps .hart0 4 ++ moveBlock ++ hartSteps .hart0 2 ++
  hartSteps .hart1 5 ++ moveBlock ++ hartSteps .hart1 4 ++ moveBlock ++ hartSteps .hart1 2 ++
  sortBlocks ++
  hartSteps .hart0 5 ++ moveBlock ++ hartSteps .hart0 4 ++ moveBlock ++ hartSteps .hart0 2 ++
  hartSteps .hart1 5 ++ moveBlock ++ hartSteps .hart1 4 ++ moveBlock ++ hartSteps .hart1 2

set_option maxRecDepth 4000 in
/-- All eight calls of `main.cpp`, each served before the next. -/
theorem requests_served_exchange :
    ∃ s, (platform .main [16, 16, 16, 16, 16] (Platform.resetInput .main)).ReachBy
        (NoClobber .main) s ∧ s.dma.Idle ∧ s.calls.length = 8 ∧
      s.log = s.calls.flatMap transactions := by
  have hrun : (((platform .main [16, 16, 16, 16, 16] (Platform.resetInput .main)).execBy
      (NoClobber .main) (Platform.reset .main) exchange).map
        fun s => (decide s.dma.Idle, s.calls.length)) = some (true, 8) := by decide +kernel
  obtain ⟨s, hs, hret⟩ := Option.map_eq_some_iff.mp hrun
  have hreach := Machine.reachBy_execBy (.init (Platform.reset_init .main)) hs
  have hidle : s.dma.Idle := of_decide_eq_true (congrArg Prod.fst hret)
  exact ⟨s, hreach, hidle, congrArg Prod.snd hret,
    (requests_served .main _ _ s hreach).2 hidle⟩

/-- **The first request of hart 0 is lost** when the event fires late: the notification of the
second is absorbed, and the registers are those of the second. -/
theorem first_request_lost :
    ∃ s, (platform .main [16, 16, 16, 16, 16] (Platform.resetInput .main)).Reach s ∧
      s.dma.Idle ∧ s.calls = (Program.main.writes .hart0) ∧
      s.log = (Program.main.writes .hart0).tail.flatMap transactions ∧
      ¬ s.log <+: s.calls.flatMap transactions := by
  have hrun : (((platform .main [16, 16, 16, 16, 16] (Platform.resetInput .main)).exec
      (Platform.reset .main) (List.replicate 16 (.hart .hart0 0) ++ moveBlock)).map
        fun s => (decide s.dma.Idle, s.calls, s.log)) =
      some (true, Program.main.writes .hart0,
        (Program.main.writes .hart0).tail.flatMap transactions) := by decide +kernel
  obtain ⟨s, hs, hret⟩ := Option.map_eq_some_iff.mp hrun
  have hcalls : s.calls = Program.main.writes .hart0 := congrArg (fun x => x.2.1) hret
  have hlog : s.log = (Program.main.writes .hart0).tail.flatMap transactions :=
    congrArg (fun x => x.2.2) hret
  refine ⟨s, Machine.reach_exec (.init (Platform.reset_init .main)) hs,
    of_decide_eq_true (congrArg Prod.fst hret), hcalls, hlog, ?_⟩
  rw [hcalls, hlog]
  decide +kernel

end SortPlatform

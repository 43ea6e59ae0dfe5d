import SortPlatform.Lib.Machine
import SortPlatform.Lib.Splice
import SortPlatform.Vp.Dma

/-!
# Copies in RAM

`SimpleDMA` of `src/vp/basic-final/dma.h` copying between addresses of one memory: the software
stores to the registers at any time, the event fires, and `run` goes on by a transaction at a time.
The requests may be of any length and overlap in any way.

* `Copying.Ok` — a store does no harm to an outstanding request, and a request stays in memory.

Principal results:

* `copying_done` — once no request is outstanding, memory has been copied as requested, in order.
* `dma_copies` — and for which requests this is `memmove`.
-/

set_option autoImplicit false

namespace SortPlatform.Vp

open Sw RunMerge Splice

/-- The DMA and the memory it copies in. -/
structure Copying where
  dma : SimpleDMA
  mem : List UInt8
  /-- The requests made. -/
  calls : List Call
  /-- The transactions begun. -/
  log : List Transaction

inductive CopyAct where
  /-- A store to a register. -/
  | store (c : Call) (r : DmaReg)
  /-- `run_event` fires. -/
  | fire
  /-- The next step of `run`. -/
  | run

namespace Copying

def enter (s : Copying) (d : SimpleDMA) : Copying :=
  { s with dma := d, log := s.log ++ d.transaction }

/-- The next step of `run`; `none` while it waits, and for a transaction outside of memory. -/
def runStep (s : Copying) : Option Copying :=
  match s.dma.pc with
  | .dispatch => s.dma.run.map s.enter
  | .read _ n (.addr a) =>
    if a + SimpleDMA.chunk n ≤ s.mem.length then
      (s.dma.readDone (slice s.mem a (a + SimpleDMA.chunk n))).map s.enter
    else none
  | .write _ n (.addr a) =>
    if a + SimpleDMA.chunk n ≤ s.mem.length then
      s.dma.writeDone.map
        { s with mem := patch s.mem a (s.dma.buffer.take (SimpleDMA.chunk n)) }.enter
    else none
  | _ => none

def next (s : Copying) : CopyAct → Option Copying
  | .store c r =>
    some { s with
      dma := s.dma.transport c r
      calls := s.calls ++ if r = .op then [c] else [] }
  | .fire => s.dma.fire.map fun d => { s with dma := d }
  | .run => s.runStep

end Copying

/-- Reset, with `mem` in memory. -/
def copying (mem : List UInt8) : Machine Copying CopyAct where
  init s := s = ⟨SimpleDMA.reset, mem, [], []⟩
  next := Copying.next

/-- The request reads and writes in a memory of the given size. -/
def InMemory (size : Nat) (c : Call) : Prop :=
  ∃ src dst, c.src = .addr src ∧ c.dst = .addr dst ∧ src + c.len ≤ size ∧ dst + c.len ≤ size

/-- The registers hold the other parameters of the request. -/
def SimpleDMA.Prepared (d : SimpleDMA) (c : Call) : Prop :=
  d.src = c.src ∧ d.dst = c.dst ∧ d.len = c.len

/-- **No step clobbers a request**, and every request stays in memory. -/
def Copying.Ok (s : Copying) : CopyAct → Prop
  | .store c r => s.dma.Admits c r ∧ (r = .op → s.dma.Prepared c ∧ InMemory s.mem.length c)
  | .fire => s.dma.notified = true → s.dma.pc = .waiting
  | .run => True

/-! ## What a request does -/

def addrOf : Loc → Nat
  | .addr n => n
  | _ => 0

/-- `_perform_memcpy` from offset `off` on, with `n` bytes to go. -/
def copyFrom (c : Call) (off n : Nat) (mem : List UInt8) : List UInt8 :=
  copyBlocks 64 (addrOf c.src) (addrOf c.dst) off n mem

/-- `_perform_memcpy()` -/
def _perform_memcpy (mem : List UInt8) (c : Call) : List UInt8 := copyFrom c 0 c.len mem

/-- What memory will be when the request in progress is done. -/
def finish (d : SimpleDMA) (mem : List UInt8) : Option Call → List UInt8
  | none => mem
  | some c =>
    match d.pc with
    | .waiting => mem
    | .dispatch => _perform_memcpy mem c
    | .read off n _ => copyFrom c off n mem
    | .write off n _ =>
      let mem := patch mem (addrOf c.dst + off) (d.buffer.take (SimpleDMA.chunk n))
      if 64 < n then copyFrom c (off + 64) (n - 64) mem else mem

/-- **Memory is on its way**: when the request in progress is done, all that have begun will have
been carried out in order. -/
structure Copying.Inv (mem : List UInt8) (s : Copying) : Prop where
  size : s.mem.length = mem.length
  calls : ∀ c ∈ s.calls, InMemory mem.length c
  serving : ∃ served running pending, Serving s.dma s.calls s.log served running pending ∧
    finish s.dma s.mem running = (served ++ running.toList).foldl _perform_memcpy mem

variable {mem : List UInt8} {s s' : Copying} {d d' : SimpleDMA}

theorem chunk_le (n : Nat) : SimpleDMA.chunk n ≤ n := by
  unfold SimpleDMA.chunk
  split <;> omega

/-- One block, and the rest. -/
theorem copyFrom_eq (c : Call) (off n : Nat) (mem : List UInt8) :
    copyFrom c off n mem =
      let mem := copy (addrOf c.src + off) (addrOf c.dst + off) (SimpleDMA.chunk n) mem
      if 64 < n then copyFrom c (off + 64) (n - 64) mem else mem := by
  unfold copyFrom SimpleDMA.chunk
  rw [copyBlocks]
  by_cases hn : 64 < n
  · simp only [hn, if_true, and_true]
    rw [if_pos (by omega)]
  · simp only [hn, if_false, and_false]

section

variable {c : Call} {off n : Nat} {addr : Loc}

theorem finish_waiting (hpc : d.pc = .waiting) (mem : List UInt8) (running : Option Call) :
    finish d mem running = mem := by
  unfold finish
  rw [hpc]
  cases running <;> rfl

theorem finish_dispatch (hpc : d.pc = .dispatch) (mem : List UInt8) :
    finish d mem (some c) = _perform_memcpy mem c := by
  unfold finish
  rw [hpc]

theorem finish_read (hpc : d.pc = .read off n addr) (mem : List UInt8) :
    finish d mem (some c) = copyFrom c off n mem := by
  unfold finish
  rw [hpc]

theorem finish_write (hpc : d.pc = .write off n addr) (mem : List UInt8) :
    finish d mem (some c) =
      let mem := patch mem (addrOf c.dst + off) (d.buffer.take (SimpleDMA.chunk n))
      if 64 < n then copyFrom c (off + 64) (n - 64) mem else mem := by
  unfold finish
  rw [hpc]

end

/-- A store leaves what is on its way alone. -/
theorem finish_transport (d : SimpleDMA) (c : Call) (r : DmaReg) (mem : List UInt8)
    (running : Option Call) : finish (d.transport c r) mem running = finish d mem running := by
  cases r <;> rfl

/-- No request is in progress while `run` waits. -/
theorem Serving.running_none {calls served : List Call} {log : List Transaction}
    {running pending : Option Call} (h : Serving d calls log served running pending)
    (hpc : d.pc = .waiting) : running = none := by
  cases running with
  | none => rfl
  | some c =>
    have hrun := h.run_some c rfl
    unfold SimpleDMA.Running at hrun
    rw [hpc] at hrun
    exact absurd hrun id

/-- Which call is in progress is known from those that have begun. -/
theorem Serving.begun_eq {d d' : SimpleDMA} {calls served served' : List Call}
    {log log' : List Transaction} {running running' pending : Option Call}
    (h : Serving d calls log served running pending)
    (h' : Serving d' calls log' served' running' pending) :
    served' ++ running'.toList = served ++ running.toList := by
  have heq := h'.calls_eq.symm.trans h.calls_eq
  rw [← List.append_assoc, ← List.append_assoc] at heq
  exact List.append_cancel_right heq

theorem writeDone_eq_some_of_write {off n : Nat} {addr : Loc} (hpc : d.pc = .write off n addr)
    (h : d.writeDone = some d') :
    d' = if 64 < n then d._copy_block (off + 64) (n - 64) else { d with pc := .waiting } := by
  unfold SimpleDMA.writeDone at h
  rw [hpc] at h
  cases h
  rfl

namespace Copying.Inv

/-- The request in progress lies in memory. -/
theorem running (hi : s.Inv mem) {served : List Call} {running pending : Option Call}
    (h : Serving s.dma s.calls s.log served running pending) (hpc : s.dma.pc ≠ .waiting) :
    ∃ c, running = some c ∧ s.dma.Running c ∧ InMemory mem.length c := by
  obtain ⟨c, rfl, hrun⟩ := h.running_of_pc hpc
  refine ⟨c, rfl, hrun, hi.calls c ?_⟩
  rw [h.calls_eq]
  simp

theorem store {c : Call} {r : DmaReg} (hi : s.Inv mem) (hok : s.Ok (.store c r))
    (h : s.next (.store c r) = some s') : s'.Inv mem := by
  cases h
  obtain ⟨hadm, hop⟩ := hok
  obtain ⟨hsize, hcalls, served, running, pending, hserv, hfin⟩ := hi
  by_cases hr : r = .op
  · subst hr
    obtain ⟨⟨hsrc, hdst, hlen⟩, hin⟩ := hop rfl
    refine ⟨hsize, ?_, served, running, some c, hserv.call hadm hsrc hdst hlen, ?_⟩
    · intro c' hc'
      rcases List.mem_append.mp hc' with hc' | hc'
      · exact hcalls c' hc'
      · rw [if_pos rfl, List.mem_singleton] at hc'
        subst hc'
        rw [← hsize]
        exact hin
    · rw [finish_transport]
      exact hfin
  · have heq : s.calls ++ (if r = .op then [c] else []) = s.calls := by
      rw [if_neg hr, List.append_nil]
    refine ⟨hsize, ?_, served, running, pending, ?_, ?_⟩
    · rw [heq]
      exact hcalls
    · rw [heq]
      exact hserv.store hadm hr
    · rw [finish_transport]
      exact hfin

theorem fire (hi : s.Inv mem) (hok : s.Ok .fire) (h : s.next .fire = some s') : s'.Inv mem := by
  obtain ⟨d, hd, rfl⟩ := Option.map_eq_some_iff.mp h
  obtain ⟨hsize, hcalls, served, running, pending, hserv, hfin⟩ := hi
  obtain ⟨hnot, -, hpc', -⟩ := SimpleDMA.fire_eq_some hd
  have hpc := hok hnot
  cases hserv.running_none hpc
  refine ⟨hsize, hcalls, served, pending, none, hserv.fire hpc hd, ?_⟩
  rw [if_pos hpc] at hpc'
  rw [finish_waiting hpc, Option.toList_none, List.append_nil] at hfin
  cases pending with
  | none =>
    rw [Option.toList_none, List.append_nil, ← hfin]
    rfl
  | some c =>
    rw [Option.toList_some, List.foldl_append, ← hfin]
    exact finish_dispatch hpc' s.mem

theorem dispatch (hi : s.Inv mem) (hpc : s.dma.pc = .dispatch)
    (h : s.runStep = some s') : s'.Inv mem := by
  unfold runStep at h
  rw [hpc] at h
  obtain ⟨d, hd, rfl⟩ := Option.map_eq_some_iff.mp h
  obtain ⟨hsize, hcalls, served, running, pending, hserv, hfin⟩ := hi
  obtain ⟨c, rfl, hrun⟩ := hserv.running_of_pc (by rw [hpc]; nofun)
  refine ⟨hsize, hcalls, served, some c, pending, hserv.run hpc hd, ?_⟩
  rw [← hfin, finish_dispatch hpc]
  unfold SimpleDMA.Running at hrun
  rw [hpc] at hrun
  obtain ⟨-, -, hlen, hop⟩ := hrun
  cases SimpleDMA.run_eq_some hop hd
  refine (finish_read rfl s.mem).trans ?_
  rw [hlen]
  rfl

/-- What is read is what the block had in memory. -/
theorem read {off n a : Nat} (hi : s.Inv mem) (hpc : s.dma.pc = .read off n (.addr a))
    (h : s.runStep = some s') : s'.Inv mem := by
  unfold runStep at h
  rw [hpc] at h
  dsimp only at h
  split at h
  case isFalse => cases h
  rename_i hin
  obtain ⟨d, hd, rfl⟩ := Option.map_eq_some_iff.mp h
  have ⟨hsize, hcalls, served, running, pending, hserv, hfin⟩ := hi
  obtain ⟨c, rfl, hrun, src, dst, hsrc, -⟩ := hi.running hserv (by rw [hpc]; nofun)
  refine ⟨hsize, hcalls, served, some c, pending, hserv.readDone hd, ?_⟩
  unfold SimpleDMA.Running at hrun
  rw [hpc] at hrun
  obtain ⟨-, haddr, -⟩ := hrun
  rw [hsrc] at haddr
  cases haddr
  obtain ⟨hpc', hbuf⟩ := SimpleDMA.readDone_eq_some hpc hd
  have htake := take_splice_zero s.dma.buffer (slice s.mem (src + off) (src + off + SimpleDMA.chunk n))
  rw [show (slice s.mem (src + off) (src + off + SimpleDMA.chunk n)).length = SimpleDMA.chunk n by
    rw [slice_length hin]; omega] at htake
  rw [← hfin, finish_read hpc, copyFrom_eq, hsrc]
  refine (finish_write hpc' s.mem).trans ?_
  rw [hbuf]
  unfold patch
  unfold splice at htake
  rw [htake]
  rfl

theorem write {off n a : Nat} (hi : s.Inv mem) (hpc : s.dma.pc = .write off n (.addr a))
    (h : s.runStep = some s') : s'.Inv mem := by
  unfold runStep at h
  rw [hpc] at h
  dsimp only at h
  split at h
  case isFalse => cases h
  rename_i hin
  obtain ⟨d, hd, rfl⟩ := Option.map_eq_some_iff.mp h
  have ⟨hsize, hcalls, served, running, pending, hserv, hfin⟩ := hi
  obtain ⟨c, rfl, hrun, src, dst, -, hdst, -⟩ := hi.running hserv (by rw [hpc]; nofun)
  obtain ⟨served', running', hserv'⟩ := hserv.writeDone hd
  have hbegun := hserv.begun_eq hserv'
  unfold SimpleDMA.Running at hrun
  rw [hpc] at hrun
  obtain ⟨⟨-, hsum⟩, haddr, -⟩ := hrun
  rw [hdst] at haddr
  cases haddr
  have hlen : (s.dma.buffer.take (SimpleDMA.chunk n)).length ≤ SimpleDMA.chunk n :=
    List.length_take_le _ _
  refine ⟨?_, hcalls, served', running', pending, hserv', ?_⟩
  · rw [← hsize]
    exact splice_length (by omega)
  · rw [hbegun, ← hfin, finish_write hpc, hdst]
    cases writeDone_eq_some_of_write hpc hd
    by_cases hn : 64 < n
    · rw [if_pos hn] at hserv' ⊢
      obtain ⟨c', rfl, -⟩ := hserv'.running_of_pc nofun
      have hc : c' = c := by simpa using congrArg List.getLast? hbegun
      cases hc
      rw [if_pos hn]
      exact finish_read rfl _
    · rw [if_neg hn] at hserv' ⊢
      rw [if_neg hn]
      exact finish_waiting rfl _ _

/-- What `run` has before it lies in memory: its next step can be taken. -/
theorem runStep_isSome (hi : s.Inv mem) (hpc : s.dma.pc ≠ .waiting) : s.runStep.isSome := by
  have ⟨hsize, _, served, running, pending, hserv, _⟩ := hi
  obtain ⟨c, rfl, hrun, src, dst, hsrc, hdst, hin, hin'⟩ := hi.running hserv hpc
  unfold SimpleDMA.Running at hrun
  unfold runStep
  split at hrun
  · exact absurd hrun id
  · rename_i hd
    obtain ⟨-, -, -, hop⟩ := hrun
    rw [hd]
    unfold SimpleDMA.run
    rw [if_neg (by rw [hop]; decide), if_pos hop]
    rfl
  · rename_i off n addr hd
    obtain ⟨⟨-, hsum⟩, haddr, -⟩ := hrun
    rw [hsrc] at haddr
    cases haddr
    have := chunk_le n
    rw [hd]
    dsimp only [Loc.add]
    rw [if_pos (by omega)]
    unfold SimpleDMA.readDone
    rw [hd]
    rfl
  · rename_i off n addr hd
    obtain ⟨⟨-, hsum⟩, haddr, -⟩ := hrun
    rw [hdst] at haddr
    cases haddr
    have := chunk_le n
    rw [hd]
    dsimp only [Loc.add]
    rw [if_pos (by omega)]
    unfold SimpleDMA.writeDone
    rw [hd]
    rfl

theorem run (hi : s.Inv mem) (h : s.runStep = some s') : s'.Inv mem := by
  have h' := h
  unfold runStep at h'
  split at h'
  · exact hi.dispatch ‹_› h
  · exact hi.read ‹_› h
  · exact hi.write ‹_› h
  · cases h'

end Copying.Inv

/-! ## Runs -/

theorem copying_inv (h : (copying mem).ReachBy Copying.Ok s) : s.Inv mem := by
  refine h.invariant ?_ ?_
  · rintro s rfl
    exact ⟨rfl, nofun, [], none, none, serving_reset, rfl⟩
  · intro s a s' hi hok hnext
    cases a with
    | store c r => exact hi.store hok hnext
    | fire => exact hi.fire hok hnext
    | run => exact hi.run hnext

/-- **Once no request is outstanding**, memory is what carrying out the requests one after the
other makes of it. -/
theorem copying_done (h : (copying mem).ReachBy Copying.Ok s) (hidle : s.dma.Idle) :
    s.mem = s.calls.foldl _perform_memcpy mem := by
  obtain ⟨-, -, served, running, pending, hserv, hfin⟩ := copying_inv h
  have hp : pending = none := by
    cases pending with
    | none => rfl
    | some c =>
      have := (hserv.pend_some c rfl).1
      rw [hidle.2] at this
      cases this
  rw [finish_waiting hidle.1] at hfin
  rw [hfin, hserv.calls_eq, hp, Option.toList_none, List.append_nil]

/-- `memmove` -/
def memmove (mem : List UInt8) (c : Call) : List UInt8 :=
  copy (addrOf c.src) (addrOf c.dst) c.len mem

/-- The blocks do no harm: the destination does not lie above a part of the source that it
overlaps, or one block is enough. -/
def BlockSafe (c : Call) : Prop :=
  addrOf c.dst ≤ addrOf c.src ∨ addrOf c.src + c.len ≤ addrOf c.dst ∨ c.len ≤ 64

instance (c : Call) : Decidable (BlockSafe c) := inferInstanceAs (Decidable (_ ∨ _))

theorem InMemory.bounds {size : Nat} {c : Call} (h : InMemory size c) :
    addrOf c.src + c.len ≤ size ∧ addrOf c.dst + c.len ≤ size := by
  obtain ⟨src, dst, hsrc, hdst, h1, h2⟩ := h
  rw [hsrc, hdst]
  exact ⟨h1, h2⟩

/-- **The copy of a request, against `memmove`.** -/
theorem memcpy_eq_memmove {size : Nat} {c : Call} (h : InMemory size c) :
    (∀ mem, mem.length = size → _perform_memcpy mem c = memmove mem c) ↔ BlockSafe c := by
  obtain ⟨h1, h2⟩ := h.bounds
  have : Nontrivial UInt8 := ⟨0, 1, by decide⟩
  exact copyBlocks_eq_copy_iff (by decide) h1 h2

theorem memmove_length {c : Call} (h : InMemory mem.length c) :
    (memmove mem c).length = mem.length := by
  obtain ⟨h1, h2⟩ := h.bounds
  exact copy_length h1 h2

theorem foldl_memcpy_eq : ∀ {calls : List Call} {mem : List UInt8},
    (∀ c ∈ calls, InMemory mem.length c) → (∀ c ∈ calls, BlockSafe c) →
      calls.foldl _perform_memcpy mem = calls.foldl memmove mem
  | [], _, _, _ => rfl
  | c :: calls, mem, hin, hdis => by
    have hc := hin c List.mem_cons_self
    rw [List.foldl_cons, List.foldl_cons,
      (memcpy_eq_memmove hc).mpr (hdis c List.mem_cons_self) mem rfl]
    refine foldl_memcpy_eq ?_ fun c' hc' => hdis c' (List.mem_cons_of_mem _ hc')
    intro c' hc'
    rw [memmove_length hc]
    exact hin c' (List.mem_cons_of_mem _ hc')

/-- **Requests carried out**: `run` is never held up inside a request, and once no request is
outstanding memory is what the requests make of it one after the other, each in blocks of 64 bytes;
where no block does harm, what `memmove` makes of it. -/
theorem dma_copies (h : (copying mem).ReachBy Copying.Ok s) :
    (s.dma.pc ≠ .waiting → (s.next .run).isSome) ∧
      (s.dma.Idle → s.mem = s.calls.foldl _perform_memcpy mem ∧
        ((∀ c ∈ s.calls, BlockSafe c) → s.mem = s.calls.foldl memmove mem)) := by
  refine ⟨(copying_inv h).runStep_isSome, fun hidle => ⟨copying_done h hidle, fun hdis => ?_⟩⟩
  rw [copying_done h hidle]
  exact foldl_memcpy_eq (copying_inv h).calls hdis

/-! ## Coming to rest -/

/-- A bound on the steps that are left to the DMA. -/
def SimpleDMA.work (d : SimpleDMA) : Nat :=
  d.notified.toNat * (2 * d.len + 4) +
    match d.pc with
    | .waiting => 0
    | .dispatch => 2 * d.len + 3
    | .read _ n _ => 2 * n + 2
    | .write _ n _ => 2 * n + 1

theorem SimpleDMA.work_fire (hpc : d.pc = .waiting) (h : d.fire = some d') : d'.work < d.work := by
  obtain ⟨hnot, hnot', hpc', -⟩ := fire_eq_some h
  have hlen := congrArg (fun r => r.2.2) (regs_fire h)
  dsimp only [regs] at hlen
  rw [if_pos hpc] at hpc'
  simp only [work, hnot, hnot', hpc, hpc', hlen, Bool.toNat_false, Bool.toNat_true]
  omega

theorem SimpleDMA.work_run (hpc : d.pc = .dispatch) (h : d.run = some d') : d'.work < d.work := by
  unfold run at h
  split at h
  · cases h
    simp only [work, hpc]
    omega
  · split at h <;> cases h
    simp only [work, hpc, _copy_block]
    omega

theorem SimpleDMA.work_readDone {bytes : List UInt8} (h : d.readDone bytes = some d') :
    d'.work < d.work := by
  unfold readDone at h
  split at h <;> cases h
  rename_i hpc
  simp only [work, hpc]
  omega

theorem SimpleDMA.work_writeDone (h : d.writeDone = some d') : d'.work < d.work := by
  unfold writeDone at h
  split at h <;> cases h
  rename_i off n addr hpc
  by_cases hn : 64 < n
  · simp only [work, hpc, if_pos hn, _copy_block]
    omega
  · simp only [work, hpc, if_neg hn]
    omega

theorem Copying.work_run (h : s.runStep = some s') :
    s'.dma.work < s.dma.work ∧ s'.calls = s.calls := by
  unfold runStep at h
  split at h
  · obtain ⟨d, hd, rfl⟩ := Option.map_eq_some_iff.mp h
    exact ⟨SimpleDMA.work_run ‹_› hd, rfl⟩
  · split at h
    case isFalse => cases h
    obtain ⟨d, hd, rfl⟩ := Option.map_eq_some_iff.mp h
    exact ⟨SimpleDMA.work_readDone hd, rfl⟩
  · split at h
    case isFalse => cases h
    obtain ⟨d, hd, rfl⟩ := Option.map_eq_some_iff.mp h
    exact ⟨SimpleDMA.work_writeDone hd, rfl⟩
  · cases h

/-- Left alone, the DMA comes to rest with the requests made. -/
theorem copying_drain (h : (copying mem).ReachBy Copying.Ok s) :
    ∃ s', (copying mem).ReachBy Copying.Ok s' ∧ s'.dma.Idle ∧ s'.calls = s.calls := by
  generalize hw : s.dma.work = w
  induction w using Nat.strong_induction_on generalizing s with
  | _ w ih =>
    subst hw
    by_cases hpc : s.dma.pc = .waiting
    · by_cases hnot : s.dma.notified = true
      · obtain ⟨d, hd⟩ : ∃ d, s.dma.fire = some d := by
          unfold SimpleDMA.fire
          rw [if_pos hnot]
          exact ⟨_, rfl⟩
        have hnext : s.next .fire = some { s with dma := d } := by
          show s.dma.fire.map _ = _
          rw [hd]
          rfl
        have hok : s.Ok .fire := fun _ => hpc
        have hreach := Machine.ReachBy.step h hok hnext
        obtain ⟨t, ht, hidle, heq⟩ := ih d.work (SimpleDMA.work_fire hpc hd) hreach rfl
        exact ⟨t, ht, hidle, heq⟩
      · exact ⟨s, h, ⟨hpc, by simpa using hnot⟩, rfl⟩
    · obtain ⟨s', hs'⟩ := Option.isSome_iff_exists.mp ((copying_inv h).runStep_isSome hpc)
      obtain ⟨hlt, hcalls⟩ := Copying.work_run hs'
      have hok : s.Ok .run := trivial
      have hreach := Machine.ReachBy.step h hok hs'
      obtain ⟨t, ht, hidle, heq⟩ := ih s'.dma.work hlt hreach rfl
      exact ⟨t, ht, hidle, heq.trans hcalls⟩

theorem copying_store {c : Call} {r : DmaReg} (h : (copying mem).ReachBy Copying.Ok s)
    (hidle : s.dma.Idle) (hop : r = .op → s.dma.Prepared c ∧ InMemory s.mem.length c) :
    (copying mem).ReachBy Copying.Ok { s with
      dma := s.dma.transport c r
      calls := s.calls ++ if r = .op then [c] else [] } :=
  Machine.ReachBy.step (a := .store c r) h ⟨hidle.admits c r, hop⟩ rfl

/-- The stores of a request, made one after the other. -/
theorem copying_request {c : Call} (hin : InMemory mem.length c) :
    ∃ s, (copying mem).ReachBy Copying.Ok s ∧ s.calls = [c] := by
  have h0 : (copying mem).ReachBy Copying.Ok ⟨SimpleDMA.reset, mem, [], []⟩ := .init rfl
  have h1 := copying_store (c := c) (r := .src) h0 ⟨rfl, rfl⟩ nofun
  have h2 := copying_store (c := c) (r := .dst) h1 ⟨rfl, rfl⟩ nofun
  have h3 := copying_store (c := c) (r := .len) h2 ⟨rfl, rfl⟩ nofun
  have h4 := copying_store (c := c) (r := .op) h3 ⟨rfl, rfl⟩ fun _ => ⟨⟨rfl, rfl, rfl⟩, hin⟩
  exact ⟨_, h4, rfl⟩

/-- **Which requests move memory**: whatever is in memory, every run that makes the one request and
comes to rest has done what `memmove` does, exactly when the destination is not above the source,
or does not overlap it, or one block is enough. -/
theorem dma_memmove_iff {size : Nat} {c : Call} (hin : InMemory size c) :
    (∀ mem s, mem.length = size → (copying mem).ReachBy Copying.Ok s → s.dma.Idle →
      s.calls = [c] → s.mem = memmove mem c) ↔ BlockSafe c := by
  rw [← memcpy_eq_memmove hin]
  constructor
  · intro hall mem hlen
    subst hlen
    obtain ⟨s, hs, hcalls⟩ := copying_request hin
    obtain ⟨s', hs', hidle, hcalls'⟩ := copying_drain hs
    rw [← hall mem s' rfl hs' hidle (hcalls'.trans hcalls), copying_done hs' hidle, hcalls', hcalls]
    rfl
  · intro hall mem s hlen hs hidle hcalls
    rw [copying_done hs hidle, hcalls]
    exact hall mem hlen

/-- Two bytes copied within four. -/
theorem dma_copies_two : ∃ s, (copying [1, 2, 3, 4]).ReachBy Copying.Ok s ∧ s.dma.Idle ∧
    s.mem = [1, 2, 1, 2] := by
  have hin : InMemory [(1 : UInt8), 2, 3, 4].length ⟨.hart0, .addr 0, .addr 2, 2⟩ :=
    ⟨0, 2, rfl, rfl, by decide, by decide⟩
  obtain ⟨s, hs, hcalls⟩ := copying_request hin
  obtain ⟨s', hs', hidle, hcalls'⟩ := copying_drain hs
  refine ⟨s', hs', hidle, ?_⟩
  rw [((dma_copies hs').2 hidle).1, hcalls', hcalls, List.foldl_cons, List.foldl_nil]
  unfold _perform_memcpy copyFrom
  rw [copyBlocks, if_neg (by decide)]
  rfl

/-- Moving 65 bytes up by one takes two blocks. -/
theorem dma_memmove_iff_up : ¬ ∀ mem s, mem.length = 66 →
    (copying mem).ReachBy Copying.Ok s → s.dma.Idle → s.calls = [⟨.hart0, .addr 0, .addr 1, 65⟩] →
      s.mem = memmove mem ⟨.hart0, .addr 0, .addr 1, 65⟩ := by
  rw [dma_memmove_iff ⟨0, 1, rfl, rfl, by decide, by decide⟩]
  decide

end SortPlatform.Vp

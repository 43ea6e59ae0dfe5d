import SortPlatform.Sw.Program
import SortPlatform.Vp.DirectPath

/-!
# The DMA

`SimpleDMA` of `src/vp/basic-final/dma.h`: four registers written through `transport`, and the
thread `run`, which waits for `run_event`, copies blocks of at most 64 bytes and waits again. A
notification is pending from the store to `op` until the event fires; a second one is absorbed, and
one that fires while `run` is not waiting is lost. `src` and `dst` are read again at each
transaction.

* `SimpleDMA.Admits` — a store neither is absorbed nor changes a register that an outstanding
  request has still to read.
* `Serving d calls log` — the transactions made so far are those of the calls, in order, up to
  where `d` is.

Principal results: `Serving.store`, `Serving.call`, `Serving.fire`, `Serving.run`,
`Serving.readDone` and `Serving.writeDone` (admitted steps keep `Serving`) and `Serving.log_calls`.
-/

set_option autoImplicit false

namespace SortPlatform.Vp

open Sw

/-! ## The engine -/

def OP_NOP : Nat := 0

def OP_MEMCPY : Nat := 1

/-- Where `run` is; `n` bytes of the request are left from offset `off` on. -/
inductive DmaPc where
  /-- `wait(run_event)` -/
  | waiting
  /-- `switch (op)` -/
  | dispatch
  /-- `do_transaction(TLM_READ_COMMAND, addr, …)` -/
  | read (off n : Nat) (addr : Loc)
  /-- `do_transaction(TLM_WRITE_COMMAND, addr, …)` -/
  | write (off n : Nat) (addr : Loc)
  deriving DecidableEq, Repr

structure SimpleDMA where
  src : Loc
  dst : Loc
  len : Nat
  op : Nat
  /-- A notification of `run_event` is pending. -/
  notified : Bool
  pc : DmaPc
  buffer : List UInt8

namespace SimpleDMA

/-- All registers zero, `run` at its first `wait`. -/
def reset : SimpleDMA := ⟨.addr 0, .addr 0, 0, OP_NOP, false, .waiting, List.replicate 64 0⟩

/-- A store to a register. -/
def transport (d : SimpleDMA) (c : Call) : DmaReg → SimpleDMA
  | .src => { d with src := c.src }
  | .dst => { d with dst := c.dst }
  | .len => { d with len := c.len }
  | .op => { d with op := OP_MEMCPY, notified := true }

/-- `run_event` fires. -/
def fire (d : SimpleDMA) : Option SimpleDMA :=
  if d.notified then
    some { d with notified := false, pc := if d.pc = .waiting then .dispatch else d.pc }
  else none

/-- `_copy_block(off, …)` with `n` bytes left. -/
def _copy_block (d : SimpleDMA) (off n : Nat) : SimpleDMA :=
  { d with pc := .read off n (d.src.add off) }

/-- The length of the next block. -/
def chunk (n : Nat) : Nat := if 64 < n then 64 else n

/-- `switch (op)`; the other operations are assertions. -/
def run (d : SimpleDMA) : Option SimpleDMA :=
  if d.op = OP_NOP then some { d with pc := .waiting }
  else if d.op = OP_MEMCPY then some (d._copy_block 0 d.len)
  else none

/-- The read transaction returns with `bytes` in `buffer`. -/
def readDone (d : SimpleDMA) (bytes : List UInt8) : Option SimpleDMA :=
  match d.pc with
  | .read off n _ =>
    some { d with buffer := patch d.buffer 0 bytes, pc := .write off n (d.dst.add off) }
  | _ => none

/-- The write transaction returns. -/
def writeDone (d : SimpleDMA) : Option SimpleDMA :=
  match d.pc with
  | .write off n _ =>
    some (if 64 < n then d._copy_block (off + 64) (n - 64) else { d with pc := .waiting })
  | _ => none

end SimpleDMA

/-! ## Transactions -/

structure Transaction where
  command : Command
  addr : Loc
  n : Nat
  deriving DecidableEq

/-- The transaction that `run` has just entered. -/
def SimpleDMA.transaction (d : SimpleDMA) : List Transaction :=
  match d.pc with
  | .read _ n addr => [⟨.read, addr, chunk n⟩]
  | .write _ n addr => [⟨.write, addr, chunk n⟩]
  | _ => []

/-- The transactions of a call from offset `off` on. -/
def blocksFrom (c : Call) (off n : Nat) : List Transaction :=
  (SimpleDMA.blocks off n).flatMap fun b =>
    [⟨.read, c.src.add b.1, b.2⟩, ⟨.write, c.dst.add b.1, b.2⟩]

/-- **What a call asks for**: two transactions a block. -/
def transactions (c : Call) : List Transaction := blocksFrom c 0 c.len

/-- The transactions after the block at `off`. -/
def blocksAfter (c : Call) (off n : Nat) : List Transaction :=
  if 64 < n then blocksFrom c (off + 64) (n - 64) else []

theorem blocksFrom_eq (c : Call) (off n : Nat) : blocksFrom c off n =
    ⟨.read, c.src.add off, SimpleDMA.chunk n⟩ :: ⟨.write, c.dst.add off, SimpleDMA.chunk n⟩ ::
      blocksAfter c off n := by
  unfold blocksFrom blocksAfter SimpleDMA.chunk
  rw [SimpleDMA.blocks]
  split
  · rfl
  · rfl

/-! ## Requests and registers -/

namespace SimpleDMA

/-- The registers are those of the call. -/
structure Programmed (d : SimpleDMA) (c : Call) : Prop where
  src : d.src = c.src
  dst : d.dst = c.dst
  len : d.len = c.len
  op : d.op = OP_MEMCPY

/-- An outstanding request has still to read the register. -/
def Needs (d : SimpleDMA) (r : DmaReg) : Prop :=
  d.notified = true ∨
    match d.pc with
    | .waiting => False
    | .dispatch => True
    | .read _ n _ => r = .dst ∨ (r = .src ∧ 64 < n)
    | .write _ n _ => (r = .src ∨ r = .dst) ∧ 64 < n

instance (d : SimpleDMA) (r : DmaReg) : Decidable (d.Needs r) :=
  @instDecidableOr _ _ _ <|
    match d.pc with
    | .waiting => inferInstanceAs (Decidable False)
    | .dispatch => inferInstanceAs (Decidable True)
    | .read _ _ _ => inferInstanceAs (Decidable (_ ∨ (_ ∧ _)))
    | .write _ _ _ => inferInstanceAs (Decidable (_ ∧ _))

/-- The register has the value that the call stores. -/
def Holds (d : SimpleDMA) (c : Call) : DmaReg → Prop
  | .src => d.src = c.src
  | .dst => d.dst = c.dst
  | .len => d.len = c.len
  | .op => d.op = OP_MEMCPY

instance (d : SimpleDMA) (c : Call) : ∀ r, Decidable (d.Holds c r)
  | .src | .dst | .len | .op => inferInstanceAs (Decidable (_ = _))

/-- **The store does no harm**: no notification is pending when it notifies, and it changes no
register that is still needed. -/
def Admits (d : SimpleDMA) (c : Call) (r : DmaReg) : Prop :=
  (r = .op → d.notified = false) ∧ (d.Needs r → d.Holds c r)

instance (d : SimpleDMA) (c : Call) (r : DmaReg) : Decidable (d.Admits c r) :=
  inferInstanceAs (Decidable (_ ∧ _))

/-- No request is outstanding. -/
def Idle (d : SimpleDMA) : Prop := d.pc = .waiting ∧ d.notified = false

instance (d : SimpleDMA) : Decidable d.Idle := inferInstanceAs (Decidable (_ ∧ _))

/-- A block of `c` begins at `off`, with `n` bytes left. -/
def At (c : Call) (off n : Nat) : Prop := 64 ∣ off ∧ off + n = c.len

/-- A call of one block has one transaction each way. -/
theorem At.eq_zero {c : Call} {off n : Nat} (h : At c off n) (hc : c.len = 16) :
    off = 0 ∧ n = 16 := by
  obtain ⟨hdvd, hsum⟩ := h
  have := Nat.eq_zero_of_dvd_of_lt hdvd (by omega)
  omega

/-- The request in progress is `c`, read as far as it had to be. -/
def Running (d : SimpleDMA) (c : Call) : Prop :=
  match d.pc with
  | .waiting => False
  | .dispatch => d.Programmed c
  | .read off n addr => At c off n ∧ addr = c.src.add off ∧ d.dst = c.dst ∧ (64 < n → d.src = c.src)
  | .write off n addr => At c off n ∧ addr = c.dst.add off ∧ (64 < n → d.src = c.src ∧ d.dst = c.dst)

/-- What is left of the request in progress. -/
def rest (d : SimpleDMA) (c : Call) : List Transaction :=
  match d.pc with
  | .waiting => []
  | .dispatch => transactions c
  | .read off n _ => ⟨.write, c.dst.add off, chunk n⟩ :: blocksAfter c off n
  | .write off n _ => blocksAfter c off n

end SimpleDMA

/-- **The transactions made so far are those of the calls**: of the calls served, of the one in
progress as far as it has come, and of no pending one. -/
structure Serving (d : SimpleDMA) (calls : List Call) (log : List Transaction)
    (served : List Call) (running pending : Option Call) : Prop where
  calls_eq : calls = served ++ (running.toList ++ pending.toList)
  run_none : running = none → d.pc = .waiting
  run_some : ∀ c, running = some c → d.Running c
  pend_none : pending = none → d.notified = false
  pend_some : ∀ c, pending = some c → d.notified = true ∧ d.Programmed c
  log_eq : log ++ running.toList.flatMap d.rest = (served ++ running.toList).flatMap transactions

section Steps

variable {d d' : SimpleDMA} {calls : List Call} {log : List Transaction} {served : List Call}
  {running pending : Option Call} {c : Call} {r : DmaReg}

/-- An idle DMA admits every store. -/
theorem SimpleDMA.Idle.admits {d : SimpleDMA} (h : d.Idle) (c : Call) (r : DmaReg) :
    d.Admits c r := by
  obtain ⟨hpc, hnot⟩ := h
  refine ⟨fun _ => hnot, fun hn => ?_⟩
  unfold SimpleDMA.Needs at hn
  rw [hpc, hnot] at hn
  rcases hn with hn | hn
  · cases hn
  · exact absurd hn id

theorem SimpleDMA.transport_of_holds (h : d.Holds c r) (hr : r ≠ .op) : d.transport c r = d := by
  obtain ⟨src, dst, len, op, notified, pc, buffer⟩ := d
  cases r with
  | op => exact absurd rfl hr
  | _ => cases h; rfl

/-- A store that nobody needs leaves the request in progress alone. -/
theorem SimpleDMA.running_transport (hn : ¬ d.Needs r) (hr : r ≠ .op) {c' : Call}
    (h : d.Running c') : (d.transport c r).Running c' ∧ (d.transport c r).rest c' = d.rest c' := by
  obtain ⟨src, dst, len, op, notified, pc, buffer⟩ := d
  simp only [Needs, not_or] at hn
  obtain ⟨-, hn⟩ := hn
  cases pc with
  | waiting => exact absurd h id
  | dispatch => exact absurd trivial hn
  | read off n addr =>
    obtain ⟨hat, haddr, hdst, hsrc⟩ := h
    dsimp only at hn hdst hsrc
    cases r with
    | src => exact ⟨⟨hat, haddr, hdst, fun hlt => absurd (Or.inr ⟨rfl, hlt⟩) hn⟩, rfl⟩
    | dst => exact absurd (Or.inl rfl) hn
    | len => exact ⟨⟨hat, haddr, hdst, hsrc⟩, rfl⟩
    | op => exact absurd rfl hr
  | write off n addr =>
    obtain ⟨hat, haddr, hregs⟩ := h
    dsimp only at hn hregs
    cases r with
    | src => exact ⟨⟨hat, haddr, fun hlt => absurd ⟨Or.inl rfl, hlt⟩ hn⟩, rfl⟩
    | dst => exact ⟨⟨hat, haddr, fun hlt => absurd ⟨Or.inr rfl, hlt⟩ hn⟩, rfl⟩
    | len => exact ⟨⟨hat, haddr, hregs⟩, rfl⟩
    | op => exact absurd rfl hr

theorem SimpleDMA.transport_pc (d : SimpleDMA) (c : Call) (r : DmaReg) :
    (d.transport c r).pc = d.pc := by
  cases r <;> rfl

theorem SimpleDMA.transport_notified (d : SimpleDMA) (c : Call) (hr : r ≠ .op) :
    (d.transport c r).notified = d.notified := by
  cases r with
  | op => exact absurd rfl hr
  | _ => rfl

/-- **A store before the last one of a call.** -/
theorem Serving.store (h : Serving d calls log served running pending) (ha : d.Admits c r)
    (hr : r ≠ .op) : Serving (d.transport c r) calls log served running pending := by
  by_cases hn : d.Needs r
  · rw [SimpleDMA.transport_of_holds (ha.2 hn) hr]
    exact h
  · obtain ⟨hcalls, hidle, hrun, hquiet, hpend, hlog⟩ := h
    have hnot : d.notified ≠ true := fun hn' => hn (Or.inl hn')
    refine ⟨hcalls, ?_, ?_, ?_, ?_, ?_⟩
    · intro hnone
      rw [SimpleDMA.transport_pc]
      exact hidle hnone
    · intro c' hc'
      exact (SimpleDMA.running_transport hn hr (hrun c' hc')).1
    · intro hnone
      rw [SimpleDMA.transport_notified d c hr]
      exact hquiet hnone
    · intro c' hc'
      exact absurd (hpend c' hc').1 hnot
    · cases running with
      | none => exact hlog
      | some c' =>
        rw [← hlog]
        simp only [Option.toList_some, List.flatMap_singleton, (SimpleDMA.running_transport hn hr (hrun c' rfl)).2]

/-- **The last store of a call** makes it the pending one. -/
theorem Serving.call (h : Serving d calls log served running pending) (ha : d.Admits c .op)
    (hsrc : d.src = c.src) (hdst : d.dst = c.dst) (hlen : d.len = c.len) :
    Serving (d.transport c .op) (calls ++ [c]) log served running (some c) := by
  obtain ⟨hcalls, hnone, hsome, -, hpend, hlog⟩ := h
  have hp : pending = none := by
    cases pending with
    | none => rfl
    | some c' => exact absurd (hpend c' rfl).1 (by simp [ha.1 rfl])
  subst hp
  refine ⟨?_, hnone, ?_, nofun, ?_, ?_⟩
  · simp [hcalls]
  · intro c' hc'
    have hrun := hsome c' hc'
    unfold SimpleDMA.Running at hrun ⊢
    rw [SimpleDMA.transport_pc]
    split
    · rename_i hpc
      rw [hpc] at hrun
      exact hrun
    · rename_i hpc
      rw [hpc] at hrun
      obtain ⟨h1, h2, h3, -⟩ := hrun
      exact ⟨h1, h2, h3, rfl⟩
    · rename_i hpc
      rw [hpc] at hrun
      exact hrun
    · rename_i hpc
      rw [hpc] at hrun
      exact hrun
  · rintro c' ⟨⟩
    exact ⟨rfl, hsrc, hdst, hlen, rfl⟩
  · exact hlog

theorem Serving.running_of_pc (h : Serving d calls log served running pending)
    (hpc : d.pc ≠ .waiting) : ∃ c, running = some c ∧ d.Running c := by
  cases running with
  | none => exact absurd (h.run_none rfl) hpc
  | some c => exact ⟨c, rfl, h.run_some c rfl⟩

/-- **The event wakes `run`**: the pending request is in progress. -/
theorem Serving.fire (h : Serving d calls log served running pending) (hpc : d.pc = .waiting)
    (hf : d.fire = some d') : Serving d' calls log served pending none := by
  obtain ⟨hcalls, -, hsome, hnone, hpend, hlog⟩ := h
  unfold SimpleDMA.fire at hf
  split at hf
  · rename_i hnot
    cases hf
    have hr : running = none := by
      cases running with
      | none => rfl
      | some c =>
        have hrun := hsome c rfl
        unfold SimpleDMA.Running at hrun
        rw [hpc] at hrun
        exact absurd hrun id
    subst hr
    cases pending with
    | none => rw [hnone rfl] at hnot; cases hnot
    | some c =>
      obtain ⟨h1, h2, h3, h4⟩ := (hpend c rfl).2
      refine ⟨by simpa using hcalls, nofun, ?_, fun _ => rfl, nofun, ?_⟩
      · rintro c' ⟨⟩
        exact ⟨h1, h2, h3, h4⟩
      · simp only [Option.toList_none, List.flatMap_nil, List.append_nil] at hlog
        unfold SimpleDMA.rest
        simp [hlog]
  · cases hf

/-- **`_perform_memcpy` begins** with the registers of its call. -/
theorem Serving.run (h : Serving d calls log served running pending) (hpc : d.pc = .dispatch)
    (hr : d.run = some d') :
    Serving d' calls (log ++ d'.transaction) served running pending := by
  obtain ⟨c, rfl, hrun⟩ := h.running_of_pc (by simp [hpc])
  obtain ⟨hcalls, -, -, hnone, hpend, hlog⟩ := h
  unfold SimpleDMA.Running at hrun
  rw [hpc] at hrun
  obtain ⟨hsrc, hdst, hlen, hop⟩ := hrun
  unfold SimpleDMA.run at hr
  rw [if_neg (by rw [hop]; decide), if_pos hop] at hr
  cases hr
  refine ⟨hcalls, nofun, ?_, hnone, ?_, ?_⟩
  · rintro c' ⟨⟩
    exact ⟨⟨Nat.dvd_zero 64, by rw [hlen, Nat.zero_add]⟩, by rw [hsrc], hdst, fun _ => hsrc⟩
  · intro c' hc'
    obtain ⟨hnot, h1, h2, h3, h4⟩ := hpend c' hc'
    exact ⟨hnot, h1, h2, h3, h4⟩
  · rw [← hlog]
    simp only [Option.toList_some, List.flatMap_singleton, SimpleDMA.rest, hpc, transactions,
      blocksFrom_eq, SimpleDMA.transaction, SimpleDMA._copy_block, hsrc, hlen, List.append_assoc,
      List.singleton_append]

/-- **The write transaction follows the read**, at the destination of the same call. -/
theorem Serving.readDone (h : Serving d calls log served running pending) {bytes : List UInt8}
    (hr : d.readDone bytes = some d') :
    Serving d' calls (log ++ d'.transaction) served running pending := by
  unfold SimpleDMA.readDone at hr
  split at hr
  · rename_i off n addr hpc
    cases hr
    obtain ⟨c, rfl, hrun⟩ := h.running_of_pc (by simp [hpc])
    obtain ⟨hcalls, -, -, hnone, hpend, hlog⟩ := h
    unfold SimpleDMA.Running at hrun
    rw [hpc] at hrun
    obtain ⟨hat, -, hdst, hsrc⟩ := hrun
    refine ⟨hcalls, nofun, ?_, hnone, ?_, ?_⟩
    · rintro c' ⟨⟩
      exact ⟨hat, by rw [hdst], fun hlt => ⟨hsrc hlt, hdst⟩⟩
    · intro c' hc'
      obtain ⟨hnot, h1, h2, h3, h4⟩ := hpend c' hc'
      exact ⟨hnot, h1, h2, h3, h4⟩
    · rw [← hlog]
      simp only [Option.toList_some, List.flatMap_singleton, SimpleDMA.rest, hpc,
        SimpleDMA.transaction, hdst, List.append_assoc, List.singleton_append]
  · cases hr

/-- **After the write transaction** the next block is read, or the call is served. -/
theorem Serving.writeDone (h : Serving d calls log served running pending)
    (hw : d.writeDone = some d') :
    ∃ served' running', Serving d' calls (log ++ d'.transaction) served' running' pending := by
  unfold SimpleDMA.writeDone at hw
  split at hw
  · rename_i off n addr hpc
    cases hw
    obtain ⟨c, rfl, hrun⟩ := h.running_of_pc (by simp [hpc])
    obtain ⟨hcalls, -, -, hnone, hpend, hlog⟩ := h
    unfold SimpleDMA.Running at hrun
    rw [hpc] at hrun
    obtain ⟨⟨hdvd, hsum⟩, -, hregs⟩ := hrun
    simp only [Option.toList_some, List.flatMap_singleton, SimpleDMA.rest, hpc, blocksAfter]
      at hlog
    by_cases hlt : 64 < n
    · obtain ⟨hsrc, hdst⟩ := hregs hlt
      refine ⟨served, some c, hcalls, nofun, ?_, ?_, ?_, ?_⟩
      · rintro c' ⟨⟩
        rw [if_pos hlt]
        refine ⟨⟨Nat.dvd_add_self_right.mpr hdvd, ?_⟩, by rw [hsrc], hdst, fun _ => hsrc⟩
        omega
      · rw [if_pos hlt]
        exact hnone
      · intro c' hc'
        obtain ⟨hnot, h1, h2, h3, h4⟩ := hpend c' hc'
        rw [if_pos hlt]
        exact ⟨hnot, h1, h2, h3, h4⟩
      · rw [if_pos hlt] at hlog ⊢
        rw [Option.toList_some, ← hlog, blocksFrom_eq]
        simp only [List.flatMap_singleton, SimpleDMA.rest, SimpleDMA.transaction,
          SimpleDMA._copy_block, hsrc, List.append_assoc, List.singleton_append]
    · refine ⟨served ++ [c], none, by simp [hcalls], ?_, nofun, ?_, ?_, ?_⟩
      · intro _
        rw [if_neg hlt]
      · rw [if_neg hlt]
        exact hnone
      · intro c' hc'
        obtain ⟨hnot, h1, h2, h3, h4⟩ := hpend c' hc'
        rw [if_neg hlt]
        exact ⟨hnot, h1, h2, h3, h4⟩
      · rw [if_neg hlt] at hlog ⊢
        simpa [SimpleDMA.transaction] using hlog
  · cases hw

/-- **What has been served**: the transactions of the calls, in order, and all of them once no
request is outstanding. -/
theorem Serving.log_calls (h : Serving d calls log served running pending) :
    log <+: calls.flatMap transactions ∧ (d.Idle → log = calls.flatMap transactions) := by
  obtain ⟨hcalls, -, hsome, -, hpend, hlog⟩ := h
  rw [hcalls, ← List.append_assoc, List.flatMap_append, ← hlog]
  refine ⟨(List.prefix_append _ _).trans (List.prefix_append _ _), fun ⟨hpc, hnot⟩ => ?_⟩
  have hr : running = none := by
    cases running with
    | none => rfl
    | some c =>
      have hrun := hsome c rfl
      unfold SimpleDMA.Running at hrun
      rw [hpc] at hrun
      exact absurd hrun id
  have hp : pending = none := by
    cases pending with
    | none => rfl
    | some c => rw [hnot] at hpend; exact absurd (hpend c rfl).1 (by simp)
  simp [hr, hp]

end Steps

/-! ## What a step leaves alone -/

namespace SimpleDMA

/-- What the software has stored last. -/
def regs (d : SimpleDMA) : Loc × Loc × Nat := (d.src, d.dst, d.len)

variable {d d' : SimpleDMA}

theorem regs_transport (h : d.regs = d'.regs) (c : Call) (r : DmaReg) :
    (d.transport c r).regs = (d'.transport c r).regs := by
  obtain ⟨h1, h2⟩ := Prod.mk.inj h
  obtain ⟨h2, h3⟩ := Prod.mk.inj h2
  unfold regs
  cases r <;> simp only [transport, h1, h2, h3]

theorem fire_eq_some (h : d.fire = some d') : d.notified = true ∧ d'.notified = false ∧
    d'.pc = (if d.pc = .waiting then .dispatch else d.pc) ∧ d'.buffer = d.buffer := by
  unfold fire at h
  split at h
  · rename_i hnot
    cases h
    exact ⟨hnot, rfl, rfl, rfl⟩
  · cases h

theorem run_eq_some (hop : d.op = OP_MEMCPY) (h : d.run = some d') :
    d' = d._copy_block 0 d.len := by
  unfold run at h
  rw [if_neg (by rw [hop]; decide), if_pos hop] at h
  cases h
  rfl

theorem readDone_eq_some {off n : Nat} {addr : Loc} {bytes : List UInt8}
    (hpc : d.pc = .read off n addr) (h : d.readDone bytes = some d') :
    d'.pc = .write off n (d.dst.add off) ∧ d'.buffer = patch d.buffer 0 bytes := by
  unfold readDone at h
  rw [hpc] at h
  cases h
  exact ⟨rfl, rfl⟩

theorem writeDone_eq_some {off n : Nat} {addr : Loc} (hpc : d.pc = .write off n addr)
    (hn : n ≤ 64) (h : d.writeDone = some d') : d'.pc = .waiting := by
  unfold writeDone at h
  rw [hpc] at h
  dsimp only at h
  rw [if_neg (by omega)] at h
  cases h
  rfl

theorem notified_run (h : d.run = some d') : d'.notified = d.notified := by
  unfold run at h
  split at h
  · cases h
    rfl
  · split at h <;> cases h
    rfl

theorem notified_readDone {bytes : List UInt8} (h : d.readDone bytes = some d') :
    d'.notified = d.notified := by
  unfold readDone at h
  split at h <;> cases h
  rfl

theorem notified_writeDone (h : d.writeDone = some d') : d'.notified = d.notified := by
  unfold writeDone at h
  split at h <;> cases h
  split <;> rfl

theorem regs_fire (h : d.fire = some d') : d'.regs = d.regs := by
  unfold fire at h
  split at h <;> cases h
  rfl

theorem regs_run (h : d.run = some d') : d'.regs = d.regs := by
  unfold run at h
  split at h
  · cases h
    rfl
  · split at h <;> cases h
    rfl

theorem regs_readDone {bytes : List UInt8} (h : d.readDone bytes = some d') :
    d'.regs = d.regs := by
  unfold readDone at h
  split at h <;> cases h
  rfl

theorem regs_writeDone (h : d.writeDone = some d') : d'.regs = d.regs := by
  unfold writeDone at h
  split at h <;> cases h
  split <;> rfl

end SimpleDMA

theorem serving_reset : Serving SimpleDMA.reset [] [] [] none none :=
  ⟨rfl, fun _ => rfl, nofun, fun _ => rfl, nofun, rfl⟩

end SortPlatform.Vp

import Mathlib.Data.Nat.Digits.Defs
import SortPlatform.Lib.History
import SortPlatform.Lib.Machine
import SortPlatform.Lib.RunMerge
import SortPlatform.Vp.Transport

/-!
# The sensor

`SimpleSensor` of `src/vp/basic-final/sensor.h`, with simulated time. `run_event` has at most one
notification pending: `notify` keeps the earlier of two, and `cancel` drops it. A step of time
ends at the pending notification at the latest, and none is taken while `run` has still to be
executed. `none` where an assertion of `transport` fails.

* `SimpleSensor.transport`, `SimpleSensor.run` — the accesses, and the thread up to its next wait.
* `due` — from a history of the sensor, when its next interrupt is due.

Principal results:

* `sensor_paced` — when the interrupts are.
* `sensor_reads` — what software reads.
* `sensor_starves` — writing `scaler` again and again keeps the interrupts away.
-/

set_option autoImplicit false

namespace SortPlatform.Vp

open History RunMerge

/-! ## `sc_event` -/

/-- `sc_time(1, SC_MS)` in picoseconds. -/
@[irreducible] def SC_MS : Nat := 1000000000

theorem SC_MS_pos : 0 < SC_MS := by
  unfold SC_MS
  decide

/-- The time of the notification that `scaler` asks for. -/
def after (now : Nat) (scaler : UInt32) : Nat := now + scaler.toNat * SC_MS

theorem lt_after {now : Nat} {scaler : UInt32} (h : 1 ≤ scaler.toNat) : now < after now scaler := by
  have hpos : 0 < scaler.toNat * SC_MS := Nat.mul_pos h SC_MS_pos
  unfold after
  omega

/-- `notify`, at the absolute time `t`. -/
def notify : Option Nat → Nat → Option Nat
  | none, t => some t
  | some pending, t => some (min pending t)

@[simp] theorem notify_none (t : Nat) : notify none t = some t := rfl

@[simp] theorem notify_same (t : Nat) : notify (some t) t = some t := by simp [notify]

/-! ## The device -/

/-- `*((uint32_t *)ptr)` -/
def load32 (ptr : Nat → UInt8) : UInt32 :=
  UInt32.ofNat (Nat.ofDigits 256 ((bytesOf ptr 4).map UInt8.toNat))

/-- `*((uint32_t *)ptr) = value` -/
def store32 (ptr : Nat → UInt8) (value : UInt32) (i : Nat) : UInt8 :=
  if i < 4 then UInt8.ofNat (value.toNat / 256 ^ i) else ptr i

theorem load32_store32 (ptr : Nat → UInt8) (value : UInt32) :
    load32 (store32 ptr value) = value := by
  have hlt := value.toNat_lt
  have hbytes : bytesOf (store32 ptr value) 4 =
      [UInt8.ofNat value.toNat, UInt8.ofNat (value.toNat / 256),
        UInt8.ofNat (value.toNat / 65536), UInt8.ofNat (value.toNat / 16777216)] := by
    simp [bytesOf, store32, List.range_succ]
  have hsum : Nat.ofDigits 256 ((bytesOf (store32 ptr value) 4).map UInt8.toNat) = value.toNat := by
    rw [hbytes]
    simp only [List.map_cons, List.map_nil, UInt8.toNat_ofNat', Nat.ofDigits_cons, Nat.ofDigits_nil]
    omega
  rw [load32, hsum, UInt32.ofNat_toNat]

/-- What `addr_to_reg` points to. -/
inductive SensorReg where
  | scaler
  | filter
  deriving DecidableEq, Repr

def SCALER_REG_ADDR : Nat := 0x80
def FILTER_REG_ADDR : Nat := 0x84

def addr_to_reg (addr : Nat) : Option SensorReg :=
  if addr = SCALER_REG_ADDR then some .scaler
  else if addr = FILTER_REG_ADDR then some .filter
  else none

/-- Where `run` stands: not begun, in `wait(run_event)`, or woken up. -/
inductive SensorPc where
  | start
  | wait
  | ready
  deriving DecidableEq, Repr

/-- What happens at the sensor. -/
inductive SensorEvent where
  | start
  | interrupt (frame : List UInt8)
  | put (reg : SensorReg) (value : UInt32)
  | get (reg : SensorReg) (value : UInt32)
  | read (addr : Nat) (bytes : List UInt8)
  deriving DecidableEq, Repr

/-- The sensor at time `now`, and its history. -/
structure SimpleSensor where
  data_frame : List UInt8
  scaler : UInt32 := 25
  filter : UInt32 := 0
  run_event : Option Nat := none
  pc : SensorPc := .start
  now : Nat := 0
  log : List (Nat × SensorEvent) := []

namespace SimpleSensor

/-- `*it->second` -/
def get (s : SimpleSensor) : SensorReg → UInt32
  | .scaler => s.scaler
  | .filter => s.filter

/-- `*it->second = value`, with what is triggered after it. -/
def put (s : SimpleSensor) (value : UInt32) : SensorReg → SimpleSensor
  | .scaler => { s with scaler := value, run_event := notify none (after s.now value) }
  | .filter => { s with filter := value }

@[simp] theorem put_log (s : SimpleSensor) (value : UInt32) (reg : SensorReg) :
    (s.put value reg).log = s.log := by
  cases reg <;> rfl

/-- Whether a write is carried out. -/
def accepts (value : UInt32) : SensorReg → Bool
  | .scaler => ¬ (value < 1 ∨ value > 100)
  | .filter => true

def transport (s : SimpleSensor) (trans : Payload) : Option (SimpleSensor × Payload) :=
  let addr := trans.address.toNat
  let len := trans.length
  if addr ≤ 63 then
    if trans.command = .read ∧ addr + len ≤ s.data_frame.length then
      some (s, { trans with data := bufferOf (slice s.data_frame addr (addr + len)) trans.data })
    else none
  else if len = 4 then
    (addr_to_reg addr).bind fun reg =>
      match trans.command with
      | .read => some (s, { trans with data := store32 trans.data (s.get reg) })
      | .write =>
        let value := load32 trans.data
        if accepts value reg then some (s.put value reg, trans) else some (s, trans)
      | .ignore | .other => none
  else none

/-- A byte of the frame, from a result of `rand`. -/
def sample (filter : UInt32) (rand : Nat) : UInt8 :=
  if filter = 1 then UInt8.ofNat (rand % 10 + 48)
  else if filter = 2 then UInt8.ofNat (rand % 26 + 65)
  else UInt8.ofNat (rand % 92 + 32)

/-- An event, now. -/
def record (s : SimpleSensor) (e : SensorEvent) : SimpleSensor :=
  { s with log := s.log ++ [(s.now, e)] }

/-- The loop of `run` from its begin to the wait. -/
def rearm (s : SimpleSensor) : SimpleSensor :=
  { s with run_event := notify s.run_event (after s.now s.scaler), pc := .wait }

/-- `run` up to its next wait, with the results of `rand`. -/
def run (s : SimpleSensor) (rand : Nat → Nat) : Option SimpleSensor :=
  match s.pc with
  | .start => some (s.record .start).rearm
  | .wait => none
  | .ready =>
    let frame := (List.range s.data_frame.length).map fun i => sample s.filter (rand i)
    some (({ s with data_frame := frame }).record (.interrupt frame)).rearm

/-- What software sees of an access that returned. -/
def observed (trans : Payload) (data : Nat → UInt8) : Option SensorEvent :=
  let addr := trans.address.toNat
  if addr ≤ 63 then some (.read addr (bytesOf data trans.length))
  else if trans.command = .read then (addr_to_reg addr).map fun reg => .get reg (load32 data)
  else (addr_to_reg addr).map fun reg => .put reg (load32 trans.data)

end SimpleSensor

inductive SensorAct where
  | run (rand : Nat → Nat)
  | access (payload : Payload)
  | time (t : Nat)

/-- Time moves on to `t`; at the pending notification `run` is woken up. -/
def SimpleSensor.advance (s : SimpleSensor) (t : Nat) : Option SimpleSensor :=
  match s.pc, s.run_event with
  | .wait, some d =>
    if s.now < t ∧ t < d then some { s with now := t }
    else if s.now < t ∧ t = d then some { s with now := t, run_event := none, pc := .ready }
    else none
  | _, _ => none

def SimpleSensor.next (s : SimpleSensor) : SensorAct → Option SimpleSensor
  | .run rand => s.run rand
  | .access payload =>
    (s.transport payload).map fun p =>
      (SimpleSensor.observed payload p.2.data).elim p.1 p.1.record
  | .time t => s.advance t

/-- The sensor whose frame is filled with `frame` at first. -/
def sensor (frame : List UInt8) : Machine SimpleSensor SensorAct where
  init s := s = { data_frame := frame } ∧ frame.length = 64
  next := SimpleSensor.next

namespace SimpleSensor

/-! ## Histories of the sensor -/

/-- When the sensor was armed: by the thread, or by a write to `scaler`. -/
def armed : Nat × SensorEvent → Option Nat
  | (t, .start) => some t
  | (t, .interrupt _) => some t
  | (t, .put .scaler v) => if accepts v .scaler then some t else none
  | _ => none

/-- What a register was set to. -/
def stored (reg : SensorReg) : Nat × SensorEvent → Option UInt32
  | (_, .put r v) => if r = reg ∧ accepts v r then some v else none
  | _ => none

def filled : Nat × SensorEvent → Option (List UInt8)
  | (_, .interrupt frame) => some frame
  | _ => none

/-- The initial value of a register. -/
def initial : SensorReg → UInt32
  | .scaler => 25
  | .filter => 0

/-- What a register holds after a history. -/
def setting (reg : SensorReg) (log : List (Nat × SensorEvent)) : UInt32 :=
  (latest (stored reg) log).getD (initial reg)

/-- **When the next interrupt is due**: `scaler` milliseconds after the sensor was last armed. -/
def due (log : List (Nat × SensorEvent)) : Option Nat :=
  (latest armed log).map fun t => after t (setting .scaler log)

/-- The part of a history before the time `t`. -/
def earlier (t : Nat) (log : List (Nat × SensorEvent)) : List (Nat × SensorEvent) :=
  log.filter fun e => e.1 < t

/-- The number of interrupts. -/
def interrupts (log : List (Nat × SensorEvent)) : Nat := log.countP fun e => (filled e).isSome

/-- The number of writes to `scaler` that were carried out. -/
def rescaled (log : List (Nat × SensorEvent)) : Nat :=
  log.countP fun e => (stored .scaler e).isSome

@[simp] theorem earlier_snoc (t : Nat) (log : List (Nat × SensorEvent)) (e : SensorEvent) :
    earlier t (log ++ [(t, e)]) = earlier t log := by
  simp [earlier]

theorem earlier_eq {t now : Nat} {log : List (Nat × SensorEvent)} (h : ∀ e ∈ log, e.1 ≤ now)
    (ht : now < t) : earlier t log = log := by
  refine List.filter_eq_self.mpr fun e he => ?_
  have hle := h e he
  exact decide_eq_true (by omega)

theorem accepts_scaler {v : UInt32} (h : accepts v .scaler = true) :
    1 ≤ v.toNat ∧ v.toNat ≤ 100 := by
  have hnot : ¬ (v < 1 ∨ v > 100) := of_decide_eq_true h
  rw [UInt32.lt_iff_toNat_lt, gt_iff_lt, UInt32.lt_iff_toNat_lt] at hnot
  rw [show (1 : UInt32).toNat = 1 from rfl, show (100 : UInt32).toNat = 100 from rfl] at hnot
  omega

/-! ## Steps -/

variable {frame : List UInt8} {s s' : SimpleSensor} {a : SensorAct}

/-- What a step does. -/
inductive Effect (s : SimpleSensor) : SimpleSensor → Prop
  | start (hpc : s.pc = .start) : Effect s (s.record .start).rearm
  | interrupt (hpc : s.pc = .ready) (frame : List UInt8) (rand : Nat → Nat)
      (hframe : frame = (List.range s.data_frame.length).map fun i => sample s.filter (rand i)) :
      Effect s (({ s with data_frame := frame }).record (.interrupt frame)).rearm
  | read (addr len : Nat) (hin : addr + len ≤ s.data_frame.length) :
      Effect s (s.record (.read addr (slice s.data_frame addr (addr + len))))
  | get (reg : SensorReg) : Effect s (s.record (.get reg (s.get reg)))
  | put (reg : SensorReg) (v : UInt32) (hok : accepts v reg = true) :
      Effect s ((s.put v reg).record (.put reg v))
  | reject (reg : SensorReg) (v : UInt32) (hno : accepts v reg = false) :
      Effect s (s.record (.put reg v))
  | time (t d : Nat) (hpc : s.pc = .wait) (hd : s.run_event = some d) (hnow : s.now < t)
      (ht : t < d) : Effect s { s with now := t }
  | fire (d : Nat) (hpc : s.pc = .wait) (hd : s.run_event = some d) (hnow : s.now < d) :
      Effect s { s with now := d, run_event := none, pc := .ready }

theorem transport_effect {payload payload' : Payload}
    (h : s.transport payload = some (s', payload')) :
    Effect s ((observed payload payload'.data).elim s' s'.record) := by
  unfold transport at h
  unfold observed
  dsimp only at h ⊢
  by_cases haddr : payload.address.toNat ≤ 63
  · rw [if_pos haddr] at h ⊢
    split at h
    · rename_i hin
      cases h
      have hlen : (slice s.data_frame payload.address.toNat
          (payload.address.toNat + payload.length)).length = payload.length := by
        rw [slice_length hin.2]
        omega
      have hbytes := bytesOf_bufferOf (slice s.data_frame payload.address.toNat
        (payload.address.toNat + payload.length)) payload.data
      rw [hlen] at hbytes
      dsimp only [Option.elim]
      rw [hbytes]
      exact .read _ _ hin.2
    · cases h
  · rw [if_neg haddr] at h ⊢
    split at h
    · obtain ⟨reg, hreg, h⟩ := Option.bind_eq_some_iff.mp h
      rw [hreg]
      split at h
      · rename_i hcmd
        cases h
        rw [if_pos hcmd]
        dsimp only [Option.map, Option.elim]
        rw [load32_store32]
        exact .get reg
      · rename_i hcmd
        rw [if_neg (by rw [hcmd]; decide)]
        dsimp only [Option.map, Option.elim]
        split at h
        · rename_i hok
          cases h
          exact .put reg _ hok
        · rename_i hno
          cases h
          exact .reject reg _ (Bool.not_eq_true _ ▸ hno)
      all_goals cases h
    · cases h

theorem next_effect (h : s.next a = some s') : Effect s s' := by
  cases a with
  | run rand =>
    simp only [next, run] at h
    split at h
    · rename_i hpc
      cases h
      exact .start hpc
    · cases h
    · rename_i hpc
      cases h
      exact .interrupt hpc _ rand rfl
  | access payload =>
    obtain ⟨⟨s1, payload'⟩, htr, h⟩ := Option.map_eq_some_iff.mp h
    cases h
    exact transport_effect htr
  | time t =>
    simp only [next, advance] at h
    split at h
    · rename_i hpc hd
      split at h
      · rename_i ht
        cases h
        exact .time t _ hpc hd ht.1 ht.2
      · split at h
        · rename_i ht
          cases h
          obtain ⟨hnow, rfl⟩ := ht
          exact .fire t hpc hd hnow
        · cases h
    · cases h

/-! ## The invariant -/

/-- What is pending when the thread arms the event is there already, or not before. -/
def Fresh (s : SimpleSensor) : Prop :=
  notify s.run_event (after s.now s.scaler) = some (after s.now s.scaler)

/-- When `run` goes on. -/
structure Pending (s : SimpleSensor) : Prop where
  fresh : s.pc ≠ .wait → s.Fresh
  start : s.pc = .start → s.now = 0
  wait : s.pc = .wait → ∃ d, s.run_event = some d ∧ due s.log = some d ∧ s.now < d
  ready : s.pc = .ready → due (earlier s.now s.log) = some s.now ∧
    ∀ e ∈ s.log, (filled e).isSome → e.1 < s.now

/-- The invariant of the sensor. -/
structure Inv (frame : List UInt8) (s : SimpleSensor) : Prop where
  get : ∀ reg, s.get reg = setting reg s.log
  scaler : 1 ≤ s.scaler.toNat ∧ s.scaler.toNat ≤ 100
  frame : s.data_frame = (latest filled s.log).getD frame
  length : s.data_frame.length = 64
  past : ∀ e ∈ s.log, e.1 ≤ s.now
  pending : s.Pending
  late : ∀ d, due (earlier s.now s.log) = some d → s.now ≤ d

theorem setting_snoc (reg : SensorReg) (log : List (Nat × SensorEvent)) (e : Nat × SensorEvent) :
    setting reg (log ++ [e]) = (stored reg e).getD (setting reg log) := by
  unfold setting
  rw [latest_snoc]
  cases stored reg e <;> rfl

/-- An event that is no interrupt is none of the last interrupts either. -/
theorem Pending.ready_record (hp : s.Pending) {e : SensorEvent} (hfill : filled (s.now, e) = none)
    (hpc : s.pc = .ready) : due (earlier s.now (s.record e).log) = some s.now ∧
      ∀ e' ∈ (s.record e).log, (filled e').isSome → e'.1 < s.now := by
  obtain ⟨hd, hfilled⟩ := hp.ready hpc
  refine ⟨?_, fun e' he' hsome => ?_⟩
  · rw [record, earlier_snoc]
    exact hd
  · rcases List.mem_append.mp he' with he' | he'
    · exact hfilled e' he' hsome
    · rw [List.mem_singleton.mp he', hfill] at hsome
      cases hsome

/-- An event that is no interrupt leaves the thread where it stands. -/
theorem Pending.record (hp : s.Pending) {e : SensorEvent} (hdue : due (s.record e).log = due s.log)
    (hfill : filled (s.now, e) = none) : (s.record e).Pending :=
  ⟨hp.fresh, hp.start, fun hpc => hdue ▸ hp.wait hpc, hp.ready_record hfill⟩

theorem Inv.past_record (hi : s.Inv frame) (e : SensorEvent) :
    ∀ e' ∈ (s.record e).log, e'.1 ≤ s.now := by
  intro e' he'
  rcases List.mem_append.mp he' with he' | he'
  · exact hi.past e' he'
  · rw [List.mem_singleton.mp he']

theorem Inv.late_record (hi : s.Inv frame) (e : SensorEvent) (d : Nat)
    (hd : due (earlier s.now (s.record e).log) = some d) : s.now ≤ d := by
  rw [record, earlier_snoc] at hd
  exact hi.late d hd

/-- An event that arms the sensor and stores nothing. -/
theorem Inv.due_record (hi : s.Inv frame) {e : SensorEvent} (harm : armed (s.now, e) = some s.now)
    (hstore : stored .scaler (s.now, e) = none) :
    due (s.record e).log = some (after s.now s.scaler) := by
  have hset : setting .scaler (s.record e).log = s.scaler := by
    rw [record, setting_snoc, hstore]
    exact (hi.get .scaler).symm
  unfold due
  rw [hset, record, latest_snoc, harm]
  rfl

/-- An event that neither arms the sensor nor stores anything changes nothing. -/
theorem Inv.quiet (hi : s.Inv frame) {e : SensorEvent} (harm : armed (s.now, e) = none)
    (hstore : ∀ reg, stored reg (s.now, e) = none) (hfill : filled (s.now, e) = none) :
    (s.record e).Inv frame := by
  have hset : ∀ reg, setting reg (s.record e).log = setting reg s.log := by
    intro reg
    rw [record, setting_snoc, hstore]
    rfl
  have hdue : due (s.record e).log = due s.log := by
    unfold due
    rw [hset, record, latest_snoc, harm]
    rfl
  refine ⟨fun reg => (hi.get reg).trans (hset reg).symm, hi.scaler, ?_, hi.length,
    hi.past_record e, ?_, hi.late_record e⟩
  · show s.data_frame = (latest filled (s.log ++ [(s.now, e)])).getD frame
    rw [latest_snoc, hfill]
    exact hi.frame
  · exact hi.pending.record hdue hfill

/-- The thread arms the event and waits. -/
theorem pending_rearm (hfresh : s.Fresh) (hpos : 1 ≤ s.scaler.toNat)
    (hdue : due s.log = some (after s.now s.scaler)) : s.rearm.Pending := by
  refine ⟨fun hpc => absurd rfl hpc, fun hpc => ?_, fun _ => ?_, fun hpc => ?_⟩
  · cases hpc
  · exact ⟨_, hfresh, hdue, lt_after hpos⟩
  · cases hpc

theorem Inv.start (hi : s.Inv frame) (hpc : s.pc = .start) : (s.record .start).rearm.Inv frame := by
  refine ⟨fun reg => ?_, hi.scaler, ?_, hi.length, hi.past_record _, ?_, hi.late_record _⟩
  · show s.get reg = setting reg (s.log ++ [(s.now, .start)])
    rw [setting_snoc]
    exact hi.get reg
  · show s.data_frame = (latest filled (s.log ++ [(s.now, .start)])).getD frame
    rw [latest_snoc]
    exact hi.frame
  · have hfresh : s.Fresh := hi.pending.fresh (by rw [hpc]; decide)
    exact pending_rearm hfresh hi.scaler.1 (hi.due_record rfl rfl)

theorem Inv.interrupt (hi : s.Inv frame) (hpc : s.pc = .ready) {frame' : List UInt8}
    (hlen : frame'.length = 64) :
    (({ s with data_frame := frame' }).record (.interrupt frame')).rearm.Inv frame := by
  refine ⟨fun reg => ?_, hi.scaler, ?_, hlen, hi.past_record _, ?_, hi.late_record _⟩
  · show s.get reg = setting reg (s.log ++ [(s.now, .interrupt frame')])
    rw [setting_snoc]
    exact hi.get reg
  · show frame' = (latest filled (s.log ++ [(s.now, .interrupt frame')])).getD frame
    rw [latest_snoc]
    rfl
  · have hfresh : s.Fresh := hi.pending.fresh (by rw [hpc]; decide)
    have hdue : due (s.record (.interrupt frame')).log = some (after s.now s.scaler) :=
      hi.due_record rfl rfl
    exact pending_rearm hfresh hi.scaler.1 hdue

/-- A write to `scaler` that is carried out arms the sensor anew. -/
theorem Inv.put_scaler (hi : s.Inv frame) {v : UInt32} (hok : accepts v .scaler = true) :
    ((s.put v .scaler).record (.put .scaler v)).Inv frame := by
  have hv := accepts_scaler hok
  have hstore : stored .scaler (s.now, .put .scaler v) = some v := by simp [stored, hok]
  have hset : setting .scaler (s.log ++ [(s.now, .put .scaler v)]) = v := by
    rw [setting_snoc, hstore]
    rfl
  have hdue : due (s.log ++ [(s.now, .put .scaler v)]) = some (after s.now v) := by
    unfold due
    rw [hset, latest_snoc]
    simp [armed, hok]
  refine ⟨fun reg => ?_, hv, ?_, hi.length, hi.past_record _, ?_, hi.late_record _⟩
  · cases reg with
    | scaler => exact hset.symm
    | filter =>
      show s.filter = setting .filter (s.log ++ [(s.now, .put .scaler v)])
      rw [setting_snoc]
      exact hi.get .filter
  · show s.data_frame = (latest filled (s.log ++ [(s.now, .put .scaler v)])).getD frame
    rw [latest_snoc]
    exact hi.frame
  · refine ⟨fun _ => notify_same _, hi.pending.start, fun _ => ?_, hi.pending.ready_record rfl⟩
    exact ⟨_, rfl, hdue, lt_after hv.1⟩

theorem Inv.put_filter (hi : s.Inv frame) (v : UInt32) :
    ((s.put v .filter).record (.put .filter v)).Inv frame := by
  have hset : setting .scaler (s.log ++ [(s.now, .put .filter v)]) = setting .scaler s.log := by
    rw [setting_snoc]
    rfl
  have hdue : due (s.log ++ [(s.now, .put .filter v)]) = due s.log := by
    unfold due
    rw [hset, latest_snoc]
    rfl
  refine ⟨fun reg => ?_, hi.scaler, ?_, hi.length, hi.past_record _, ?_, hi.late_record _⟩
  · cases reg with
    | scaler => exact (hi.get .scaler).trans hset.symm
    | filter =>
      show v = setting .filter (s.log ++ [(s.now, .put .filter v)])
      rw [setting_snoc]
      rfl
  · show s.data_frame = (latest filled (s.log ++ [(s.now, .put .filter v)])).getD frame
    rw [latest_snoc]
    exact hi.frame
  · have hp := hi.pending.record hdue rfl
    exact ⟨hp.fresh, hp.start, hp.wait, hp.ready⟩

/-- Time that wakes nobody up. -/
theorem Inv.time (hi : s.Inv frame) {t d : Nat} (hpc : s.pc = .wait) (hd : s.run_event = some d)
    (hnow : s.now < t) (ht : t < d) : ({ s with now := t } : SimpleSensor).Inv frame := by
  obtain ⟨d', hev, hdue, -⟩ := hi.pending.wait hpc
  obtain rfl : d = d' := Option.some.inj (hd.symm.trans hev)
  refine ⟨hi.get, hi.scaler, hi.frame, hi.length, fun e he => ?_, ?_, fun d'' hd'' => ?_⟩
  · exact Nat.le_trans (hi.past e he) (Nat.le_of_lt hnow)
  · refine ⟨fun h => absurd hpc h, fun h => ?_, fun _ => ⟨d, hd, hdue, ht⟩, fun h => ?_⟩
    · exact SensorPc.noConfusion (hpc.symm.trans h)
    · exact SensorPc.noConfusion (hpc.symm.trans h)
  · rw [earlier_eq hi.past hnow, hdue] at hd''
    cases hd''
    exact Nat.le_of_lt ht

/-- The notification wakes `run` up. -/
theorem Inv.fire (hi : s.Inv frame) {d : Nat} (hpc : s.pc = .wait) (hd : s.run_event = some d)
    (hnow : s.now < d) :
    ({ s with now := d, run_event := none, pc := .ready } : SimpleSensor).Inv frame := by
  obtain ⟨d', hev, hdue, -⟩ := hi.pending.wait hpc
  obtain rfl : d = d' := Option.some.inj (hd.symm.trans hev)
  have hearlier : due (earlier d s.log) = some d := by
    rw [earlier_eq hi.past hnow]
    exact hdue
  refine ⟨hi.get, hi.scaler, hi.frame, hi.length, fun e he => ?_, ?_, fun d' hd' => ?_⟩
  · exact Nat.le_trans (hi.past e he) (Nat.le_of_lt hnow)
  · refine ⟨fun _ => notify_none _, fun h => ?_, fun h => ?_, fun _ => ⟨hearlier, fun e he _ => ?_⟩⟩
    · cases h
    · cases h
    · exact Nat.lt_of_le_of_lt (hi.past e he) hnow
  · rw [hearlier] at hd'
    cases hd'
    exact Nat.le_refl d

/-- **Step lemma.** -/
theorem Inv.effect (hi : s.Inv frame) (he : s.Effect s') : s'.Inv frame := by
  cases he with
  | start hpc => exact hi.start hpc
  | interrupt hpc frame' rand hframe =>
    refine hi.interrupt hpc ?_
    rw [hframe, List.length_map, List.length_range]
    exact hi.length
  | read addr len hin => exact hi.quiet rfl (fun _ => rfl) rfl
  | get reg => exact hi.quiet rfl (fun _ => rfl) rfl
  | put reg v hok =>
    cases reg with
    | scaler => exact hi.put_scaler hok
    | filter => exact hi.put_filter v
  | reject reg v hno =>
    cases reg with
    | scaler => exact hi.quiet (by simp [armed, hno]) (fun r => by simp [stored, hno]) rfl
    | filter => cases hno
  | time t d hpc hd hnow ht => exact hi.time hpc hd hnow ht
  | fire d hpc hd hnow => exact hi.fire hpc hd hnow

end SimpleSensor

open SimpleSensor

variable {frame : List UInt8} {s s' : SimpleSensor}

/-- **Run lemma.** -/
theorem sensor_inv (h : (sensor frame).Reach s) : s.Inv frame := by
  refine h.invariant ?_ ?_
  · rintro s ⟨rfl, hlen⟩
    refine ⟨?_, ⟨?_, ?_⟩, rfl, hlen, ?_, ?_, ?_⟩
    · intro reg
      cases reg <;> rfl
    · exact show 1 ≤ 25 by decide
    · exact show 25 ≤ 100 by decide
    · intro e he
      cases he
    · refine ⟨fun _ => notify_none _, fun _ => rfl, fun h => ?_, fun h => ?_⟩
      · cases h
      · cases h
    · intro d hd
      cases hd
  · intro s a s' hi _ hn
    exact hi.effect (next_effect hn)

/-! ## Interrupts -/

theorem after_between (now : Nat) {scaler : UInt32}
    (h : 1 ≤ scaler.toNat ∧ scaler.toNat ≤ 100) :
    now + SC_MS ≤ after now scaler ∧ after now scaler ≤ now + 100 * SC_MS := by
  have h1 := Nat.mul_le_mul_right SC_MS h.1
  have h2 := Nat.mul_le_mul_right SC_MS h.2
  unfold after
  omega

namespace SimpleSensor

/-- What `k` interrupts and `w` writes to `scaler` tell about the time. -/
structure Counted (k w : Nat) (s : SimpleSensor) : Prop where
  least : k * SC_MS ≤ s.now
  most : s.now ≤ (k + w + 1) * (100 * SC_MS)
  wait : ∀ d, s.pc = .wait → s.run_event = some d →
    (k + 1) * SC_MS ≤ d ∧ d ≤ (k + w + 1) * (100 * SC_MS)
  ready : s.pc = .ready → (k + 1) * SC_MS ≤ s.now

variable {k w : Nat}

theorem Counted.rearm (hleast : k * SC_MS ≤ s.now)
    (hroom : s.now + 100 * SC_MS ≤ (k + w + 1) * (100 * SC_MS)) (hfresh : s.Fresh)
    (hscaler : 1 ≤ s.scaler.toNat ∧ s.scaler.toNat ≤ 100) : s.rearm.Counted k w := by
  have hbetween := after_between s.now hscaler
  refine ⟨hleast, ?_, fun d _ hd => ?_, fun hpc => ?_⟩
  · show s.now ≤ _
    omega
  · obtain rfl : after s.now s.scaler = d := Option.some.inj (hfresh.symm.trans hd)
    rw [Nat.succ_mul]
    omega
  · cases hpc

theorem interrupts_snoc (log : List (Nat × SensorEvent)) (e : Nat × SensorEvent) :
    interrupts (log ++ [e]) = interrupts log + if (filled e).isSome then 1 else 0 := by
  simp [interrupts, List.countP_append, List.countP_singleton]

theorem rescaled_snoc (log : List (Nat × SensorEvent)) (e : Nat × SensorEvent) :
    rescaled (log ++ [e]) = rescaled log + if (stored .scaler e).isSome then 1 else 0 := by
  simp [rescaled, List.countP_append, List.countP_singleton]

/-- The numbers after one event more. -/
theorem Counted.record {e : SensorEvent} {f r : Bool} (hf : (filled (s.now, e)).isSome = f)
    (hr : (stored .scaler (s.now, e)).isSome = r)
    (hc : s'.Counted (interrupts s.log + if f then 1 else 0) (rescaled s.log + if r then 1 else 0)) :
    s'.Counted (interrupts (s.record e).log) (rescaled (s.record e).log) := by
  rw [SimpleSensor.record, interrupts_snoc, rescaled_snoc, hf, hr]
  exact hc

/-- **Step lemma** for the numbers. -/
theorem Counted.effect (hc : s.Counted (interrupts s.log) (rescaled s.log)) (hi : s.Inv frame)
    (he : s.Effect s') : s'.Counted (interrupts s'.log) (rescaled s'.log) := by
  have hleast := hc.least
  have hmost := hc.most
  cases he with
  | start hpc =>
    have hnow := hi.pending.start hpc
    refine Counted.record rfl rfl (.rearm hleast ?_ (hi.pending.fresh ?_) hi.scaler)
    · show s.now + 100 * SC_MS ≤ _
      rw [hnow]
      exact Nat.le_trans (by omega) (Nat.le_mul_of_pos_left _ (Nat.succ_pos _))
    · rw [hpc]
      decide
  | interrupt hpc frame' rand hframe =>
    refine Counted.record rfl rfl (.rearm (hc.ready hpc) ?_ (hi.pending.fresh ?_) hi.scaler)
    · show s.now + 100 * SC_MS ≤ (interrupts s.log + 1 + rescaled s.log + 1) * (100 * SC_MS)
      rw [Nat.add_right_comm (interrupts s.log), Nat.succ_mul (interrupts s.log + rescaled s.log + 1)]
      omega
    · rw [hpc]
      decide
  | read addr len hin => exact Counted.record rfl rfl ⟨hleast, hmost, hc.wait, hc.ready⟩
  | get reg => exact Counted.record rfl rfl ⟨hleast, hmost, hc.wait, hc.ready⟩
  | put reg v hok =>
    cases reg with
    | scaler =>
      have hbetween := after_between s.now (accepts_scaler hok)
      refine Counted.record (s := s) rfl (r := true) (by simp [stored, hok]) ⟨hleast, ?_, ?_, hc.ready⟩
      · show s.now ≤ (interrupts s.log + (rescaled s.log + 1) + 1) * (100 * SC_MS)
        rw [← Nat.add_assoc, Nat.succ_mul (interrupts s.log + rescaled s.log + 1)]
        omega
      · intro d _ hd
        obtain rfl : after s.now v = d := Option.some.inj hd
        show (interrupts s.log + 1) * SC_MS ≤ _ ∧
          _ ≤ (interrupts s.log + (rescaled s.log + 1) + 1) * (100 * SC_MS)
        rw [← Nat.add_assoc, Nat.succ_mul (interrupts s.log + rescaled s.log + 1),
          Nat.succ_mul (interrupts s.log)]
        omega
    | filter => exact Counted.record (s := s) rfl rfl ⟨hleast, hmost, hc.wait, hc.ready⟩
  | reject reg v hno =>
    have hstore : stored .scaler (s.now, .put reg v) = none := by simp [stored, hno]
    exact Counted.record (r := false) rfl (by rw [hstore]; rfl) ⟨hleast, hmost, hc.wait, hc.ready⟩
  | time t d hpc hd hnow ht =>
    obtain ⟨hlow, hhigh⟩ := hc.wait d hpc hd
    refine ⟨?_, ?_, hc.wait, fun h => SensorPc.noConfusion (hpc.symm.trans h)⟩
    · exact Nat.le_trans hleast (Nat.le_of_lt hnow)
    · exact Nat.le_trans (Nat.le_of_lt ht) hhigh
  | fire d hpc hd hnow =>
    obtain ⟨hlow, hhigh⟩ := hc.wait d hpc hd
    exact ⟨Nat.le_trans hleast (Nat.le_of_lt hnow), hhigh, fun _ _ hd => (nomatch hd), fun _ => hlow⟩

/-- An interrupt when one is due, and the first at its time. -/
def OnTime (before : List (Nat × SensorEvent)) (e : Nat × SensorEvent) : Prop :=
  (filled e).isSome → due (earlier e.1 before) = some e.1 ∧
    ∀ e' ∈ before, (filled e').isSome → e'.1 < e.1

theorem every_onTime (hall : Every OnTime s.log) (hi : s.Inv frame) (he : s.Effect s') :
    Every OnTime s'.log := by
  cases he with
  | interrupt hpc frame' rand hframe => exact every_snoc.mpr ⟨hall, fun _ => hi.pending.ready hpc⟩
  | start | read | get | reject => exact every_snoc.mpr ⟨hall, fun h => nomatch h⟩
  | put => exact every_snoc.mpr ⟨(put_log s _ _).symm ▸ hall, fun h => nomatch h⟩
  | time | fire => exact hall

/-- Every interrupt that was due has come, but for one that the thread is about to make. -/
def Kept (s : SimpleSensor) : Prop :=
  ∀ d, d < s.now ∨ d = s.now ∧ s.pc ≠ .ready → due (earlier d s.log) = some d →
    ∃ frame, (d, .interrupt frame) ∈ s.log

theorem earlier_record {d : Nat} (hd : d ≤ s.now) (e : SensorEvent) :
    earlier d (s.record e).log = earlier d s.log := by
  simp [record, earlier, Nat.not_lt.mpr hd]

/-- An event is not earlier than any moment up to now. -/
theorem Kept.record {d : Nat} (hk : s.Kept) (hd : d < s.now ∨ d = s.now ∧ s.pc ≠ .ready)
    {e : SensorEvent} (hdue : due (earlier d (s.record e).log) = some d) :
    ∃ frame, (d, .interrupt frame) ∈ (s.record e).log := by
  rw [earlier_record (by omega)] at hdue
  obtain ⟨frame, hmem⟩ := hk d hd hdue
  exact ⟨frame, List.mem_append_left _ hmem⟩

/-- Between now and the pending notification nothing is due. -/
theorem Kept.wait {d next : Nat} (hk : s.Kept) (hi : s.Inv frame) (hpc : s.pc = .wait)
    (hnext : s.run_event = some next) (hd : d < next) (hdue : due (earlier d s.log) = some d) :
    ∃ frame, (d, .interrupt frame) ∈ s.log := by
  by_cases hnow : s.now < d
  · obtain ⟨d', hev, hlog, -⟩ := hi.pending.wait hpc
    rw [earlier_eq hi.past hnow, hlog] at hdue
    have heq := Option.some.inj hdue
    have := Option.some.inj (hnext.symm.trans hev)
    omega
  · have hready : s.pc ≠ .ready := by
      rw [hpc]
      decide
    have hle := Nat.lt_or_eq_of_le (Nat.not_lt.mp hnow)
    exact hk d (hle.imp_right fun heq => ⟨heq, hready⟩) hdue

/-- **Step lemma** for the interrupts that are due. -/
theorem Kept.effect (hk : s.Kept) (hi : s.Inv frame) (he : s.Effect s') : s'.Kept := by
  intro d hd hdue
  cases he with
  | start hpc =>
    have hready : s.pc ≠ .ready := by
      rw [hpc]
      decide
    exact hk.record (hd.imp_right fun h => ⟨h.1, hready⟩) hdue
  | interrupt hpc frame' rand hframe =>
    rcases hd with hlt | ⟨heq, -⟩
    · exact hk.record (Or.inl hlt) hdue
    · exact ⟨frame', heq ▸ List.mem_append_right _ (List.mem_singleton_self _)⟩
  | read addr len hin => exact hk.record hd hdue
  | get reg => exact hk.record hd hdue
  | put reg v hok => cases reg <;> exact hk.record hd hdue
  | reject reg v hno => exact hk.record hd hdue
  | time t next hpc hnext hnow ht =>
    have hle : d ≤ t := hd.elim Nat.le_of_lt fun h => Nat.le_of_eq h.1
    exact hk.wait hi hpc hnext (by omega) hdue
  | fire next hpc hnext hnow =>
    exact hk.wait hi hpc hnext (hd.resolve_right fun h => h.2 rfl) hdue

/-- The characters that the sensor makes under a setting of `filter`. -/
def Shows (filter : UInt32) (b : UInt8) : Prop :=
  if filter = 1 then 48 ≤ b.toNat ∧ b.toNat ≤ 57
  else if filter = 2 then 65 ≤ b.toNat ∧ b.toNat ≤ 90
  else 32 ≤ b.toNat ∧ b.toNat ≤ 123

theorem sample_shows (filter : UInt32) (rand : Nat) : Shows filter (sample filter rand) := by
  unfold Shows sample
  split
  · rw [UInt8.toNat_ofNat']
    omega
  · split <;> rw [UInt8.toNat_ofNat'] <;> omega

/-- What is seen of the sensor goes back to what was done before. -/
def Seen (frame : List UInt8) (before : List (Nat × SensorEvent)) (e : Nat × SensorEvent) : Prop :=
  match e.2 with
  | .interrupt frame' => frame'.length = 64 ∧ ∀ b ∈ frame', Shows (setting .filter before) b
  | .get reg v => v = setting reg before
  | .read addr bytes => ∃ len, addr + len ≤ 64 ∧
      bytes = slice ((latest filled before).getD frame) addr (addr + len)
  | .start | .put _ _ => True

theorem every_seen (hall : Every (Seen frame) s.log) (hi : s.Inv frame) (he : s.Effect s') :
    Every (Seen frame) s'.log := by
  cases he with
  | interrupt hpc frame' rand hframe =>
    refine every_snoc.mpr ⟨hall, ?_, ?_⟩
    · rw [hframe, List.length_map, List.length_range]
      exact hi.length
    · intro b hb
      rw [hframe] at hb
      obtain ⟨i, -, rfl⟩ := List.mem_map.mp hb
      rw [← hi.get .filter]
      exact sample_shows s.filter (rand i)
  | read addr len hin =>
    refine every_snoc.mpr ⟨hall, len, ?_, ?_⟩
    · rw [← hi.length]
      exact hin
    · rw [hi.frame]
  | get reg => exact every_snoc.mpr ⟨hall, hi.get reg⟩
  | start | reject => exact every_snoc.mpr ⟨hall, trivial⟩
  | put => exact every_snoc.mpr ⟨(put_log s _ _).symm ▸ hall, trivial⟩
  | time | fire => exact hall

end SimpleSensor

/-- **When the interrupts are**, in every run: one exactly `scaler` milliseconds after the sensor
was last armed, by an interrupt, the start or a write to `scaler`, as things stood before that
time; it is never late, comes once, and comes although `scaler` is written at that very time. So
after `k` interrupts and `w` writes the time is between `k` and `100 (k + w + 1)` milliseconds. -/
theorem sensor_paced (frame : List UInt8) (s : SimpleSensor) (h : (sensor frame).Reach s) :
    Every OnTime s.log ∧ (∀ d, due (earlier s.now s.log) = some d → s.now ≤ d) ∧
      (∀ d < s.now, due (earlier d s.log) = some d → ∃ frame, (d, .interrupt frame) ∈ s.log) ∧
      interrupts s.log * SC_MS ≤ s.now ∧
      s.now ≤ (interrupts s.log + rescaled s.log + 1) * (100 * SC_MS) := by
  have hall : Every OnTime s.log ∧ s.Kept ∧ s.Counted (interrupts s.log) (rescaled s.log) := by
    induction h with
    | init h0 =>
      obtain ⟨rfl, -⟩ := h0
      refine ⟨every_nil, ?_, Nat.le_of_eq (Nat.zero_mul _), Nat.zero_le _, ?_, ?_⟩
      · intro d _ hdue
        cases hdue
      · intro d hpc _
        cases hpc
      · intro hpc
        cases hpc
    | step hs _ hn ih =>
      have hi := sensor_inv hs
      have he := next_effect hn
      exact ⟨every_onTime ih.1 hi he, ih.2.1.effect hi he, ih.2.2.effect hi he⟩
  obtain ⟨hontime, hkept, hcounted⟩ := hall
  exact ⟨hontime, (sensor_inv h).late, fun d hd => hkept d (Or.inl hd), hcounted.least,
    hcounted.most⟩

/-- **What software reads**, in every run: every frame has 64 characters of the kind that `filter`
asked for at its interrupt, a read of the frame returns its part of the frame of the last
interrupt, and a register reads as the last value written to it that was not ignored. -/
theorem sensor_reads (frame : List UInt8) (s : SimpleSensor) (h : (sensor frame).Reach s) :
    Every (Seen frame) s.log := by
  induction h with
  | init h0 =>
    obtain ⟨rfl, -⟩ := h0
    exact every_nil
  | step hs _ hn ih => exact every_seen ih (sensor_inv hs) (next_effect hn)

/-! ## Runs -/

/-- A write of `v` to `scaler`. -/
def putScaler (v : UInt32) : SensorAct :=
  .access ⟨.write, 0x80, store32 (fun _ => 0) v, 4, .incomplete⟩

theorem next_putScaler (s : SimpleSensor) {v : UInt32} (hok : accepts v .scaler = true) :
    s.next (putScaler v) = some ((s.put v .scaler).record (.put .scaler v)) := by
  have htr : s.transport ⟨.write, 0x80, store32 (fun _ => 0) v, 4, .incomplete⟩ =
      some (s.put v .scaler, ⟨.write, 0x80, store32 (fun _ => 0) v, 4, .incomplete⟩) := by
    simp [transport, addr_to_reg, SCALER_REG_ADDR, load32_store32, hok]
  unfold SimpleSensor.next putScaler
  dsimp only
  rw [htr]
  simp [observed, addr_to_reg, SCALER_REG_ADDR, load32_store32]

/-- The sensor before `run` is executed. -/
def SimpleSensor.boot : SimpleSensor := { data_frame := List.replicate 64 0 }

/-- **The interrupts can be kept away for ever**: a write of 2 every millisecond does it. -/
theorem sensor_starves (n : Nat) : ∃ s, (sensor (List.replicate 64 0)).Reach s ∧
    s.now = n * SC_MS ∧ interrupts s.log = 0 := by
  have hpos := SC_MS_pos
  suffices h : ∃ s, (sensor (List.replicate 64 0)).Reach s ∧ s.now = n * SC_MS ∧
      interrupts s.log = 0 ∧ s.pc = .wait ∧ s.run_event = some (after s.now 2) by
    obtain ⟨s, hs, hnow, hzero, -⟩ := h
    exact ⟨s, hs, hnow, hzero⟩
  induction n with
  | zero =>
    have hboot : (sensor (List.replicate 64 0)).Reach SimpleSensor.boot := .init ⟨rfl, rfl⟩
    have hput := next_putScaler (SimpleSensor.boot.record .start).rearm (v := 2) rfl
    have hstart : (sensor (List.replicate 64 0)).Reach (SimpleSensor.boot.record .start).rearm :=
      .step hboot (a := .run fun _ => 0) trivial rfl
    refine ⟨_, .step hstart (a := putScaler 2) trivial hput, ?_⟩
    exact ⟨(Nat.zero_mul _).symm, rfl, rfl, rfl⟩
  | succ n ih =>
    obtain ⟨s, hs, hnow, hzero, hpc, hd⟩ := ih
    have htime : s.next (.time (s.now + SC_MS)) = some { s with now := s.now + SC_MS } := by
      have hlt : s.now < s.now + SC_MS ∧ s.now + SC_MS < after s.now 2 := by
        have htwo : (2 : UInt32).toNat = 2 := rfl
        unfold after
        rw [htwo]
        omega
      simp only [SimpleSensor.next, advance, hpc, hd]
      rw [if_pos hlt]
    have hreach : (sensor (List.replicate 64 0)).Reach { s with now := s.now + SC_MS } :=
      .step hs (a := .time (s.now + SC_MS)) trivial htime
    have hput := next_putScaler { s with now := s.now + SC_MS } (v := 2) rfl
    refine ⟨_, .step hreach (a := putScaler 2) trivial hput, ?_⟩
    refine ⟨?_, ?_, hpc, rfl⟩
    · show s.now + SC_MS = (n + 1) * SC_MS
      rw [hnow, Nat.succ_mul]
    · show interrupts (s.log ++ [(s.now + SC_MS, .put .scaler 2)]) = 0
      rw [interrupts_snoc, hzero]
      rfl

/-- `run` begins, `scaler` is set to 10 after 20 ms, and 10 ms later there is an interrupt. -/
def tenLater : List SensorAct :=
  [.run (fun _ => 0), .time 20000000000, putScaler 10, .time 30000000000, .run (fun i => i),
    .access ⟨.read, 60, fun _ => 0, 4, .incomplete⟩]

set_option maxRecDepth 4000 in
theorem tenLater_reach : ∃ s, (sensor (List.replicate 64 0)).Reach s ∧
    interrupts s.log = 1 ∧ (30000000000, .read 60 [92, 93, 94, 95]) ∈ s.log := by
  have hrun : ((sensor (List.replicate 64 0)).exec .boot tenLater).map
      (fun s => decide (interrupts s.log = 1 ∧
        (30000000000, SensorEvent.read 60 [92, 93, 94, 95]) ∈ s.log)) = some true := by
    decide +kernel
  obtain ⟨s, hs, hlog⟩ := Option.map_eq_some_iff.mp hrun
  exact ⟨s, Machine.reach_exec (.init ⟨rfl, rfl⟩) hs, of_decide_eq_true hlog⟩

theorem sensor_paced_ten : ∃ s : SimpleSensor, interrupts s.log = 1 ∧ Every OnTime s.log := by
  obtain ⟨s, hs, hone, -⟩ := tenLater_reach
  exact ⟨s, hone, (sensor_paced _ s hs).1⟩

theorem sensor_reads_ten : ∃ s : SimpleSensor,
    (30000000000, SensorEvent.read 60 [92, 93, 94, 95]) ∈ s.log ∧
      Every (Seen (List.replicate 64 0)) s.log := by
  obtain ⟨s, hs, -, hread⟩ := tenLater_reach
  exact ⟨s, hread, sensor_reads _ s hs⟩

end SortPlatform.Vp

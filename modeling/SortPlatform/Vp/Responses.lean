import SortPlatform.Vp.Transport

/-!
# What an OK from a sorting PE means

`MergeW1::blocking_transport` and `MergeW8::blocking_transport` of `src/vp/basic-final`, for any
payload.

* `MergeW1.RespectsLength`, `MergeW8.RespectsLength` — a transfer answered OK moves exactly the
  payload's bytes.
* `MergeW1.Reports`, `MergeW8.Reports` — only the transfer a PE serves is answered OK, and any
  other payload changes nothing.

Principal results: `transports_respect_length_iff` and `rejected_reported_iff`.
-/

set_option autoImplicit false

namespace SortPlatform.Vp

/-- A write at `SOBEL_FILTER_R_ADDR`. -/
def MergeW1.Serves (payload : Payload) : Prop :=
  payload.command = .write ∧ payload.address = SOBEL_FILTER_R_ADDR

/-- A read at `SOBEL_FILTER_RESULT_ADDR`. -/
def MergeW8.Serves (payload : Payload) : Prop :=
  payload.command = .read ∧ payload.address = SOBEL_FILTER_RESULT_ADDR

section Outcomes

variable {junk : Nat → UInt8} {payload : Payload} {o_array : List UInt8}

theorem MergeW1.transport_of_serves (h : MergeW1.Serves payload) :
    MergeW1.blocking_transport payload =
      (bytesOf payload.data 16, { payload with status := .ok }) := by
  obtain ⟨hcmd, haddr⟩ := h
  simp only [MergeW1.blocking_transport, hcmd, if_pos haddr]

/-- **Reads and writes at other addresses are answered OK.** -/
theorem MergeW1.transport_of_not_serves (h : ¬ MergeW1.Serves payload)
    (hcmd : payload.command = .read ∨ payload.command = .write) :
    MergeW1.blocking_transport payload = ([], { payload with status := .ok }) := by
  rcases hcmd with hcmd | hcmd
  · simp only [MergeW1.blocking_transport, hcmd]
  · have haddr : payload.address ≠ SOBEL_FILTER_R_ADDR := fun haddr => h ⟨hcmd, haddr⟩
    simp only [MergeW1.blocking_transport, hcmd, if_neg haddr]

theorem MergeW1.transport_of_ignored (h : payload.command = .ignore ∨ payload.command = .other) :
    MergeW1.blocking_transport payload = ([], { payload with status := .genericError }) := by
  rcases h with h | h <;> simp only [MergeW1.blocking_transport, h]

theorem MergeW8.transport_of_serves (h : MergeW8.Serves payload) :
    MergeW8.blocking_transport junk payload o_array =
      if o_array.length < 16 then none
      else some (MergeW8.copyOut payload (bufferOf (o_array.take 16) junk), o_array.drop 16) := by
  obtain ⟨hcmd, haddr⟩ := h
  simp only [MergeW8.blocking_transport, MergeW8.demand, MergeW8.finish, hcmd, if_pos haddr]

/-- **Writes, and reads at other addresses, are answered OK.** -/
theorem MergeW8.transport_of_not_serves (h : ¬ MergeW8.Serves payload)
    (hcmd : payload.command = .read ∨ payload.command = .write) :
    ∃ payload', MergeW8.blocking_transport junk payload o_array = some (payload', o_array) ∧
      payload'.status = .ok := by
  rcases hcmd with hcmd | hcmd
  · have haddr : payload.address ≠ SOBEL_FILTER_RESULT_ADDR := fun haddr => h ⟨hcmd, haddr⟩
    refine ⟨MergeW8.copyOut payload junk, ?_, rfl⟩
    simp [MergeW8.blocking_transport, MergeW8.demand, MergeW8.finish, hcmd, haddr]
  · refine ⟨{ payload with status := .ok }, ?_, rfl⟩
    simp [MergeW8.blocking_transport, MergeW8.demand, MergeW8.finish, hcmd]

/-- A served read moves the first sixteen bytes to the front of the buffer. -/
theorem MergeW8.moved_of_serves (h : MergeW8.Serves payload) {payload' : Payload}
    {rest : List UInt8}
    (ht : MergeW8.blocking_transport junk payload o_array = some (payload', rest)) :
    o_array = bytesOf payload'.data 16 ++ rest ∧ ∀ i, 16 ≤ i → payload'.data i = payload.data i := by
  rw [MergeW8.transport_of_serves h] at ht
  split at ht
  · cases ht
  · rename_i hlen
    cases ht
    have htake : (o_array.take 16).length = 16 := by
      rw [List.length_take]
      omega
    have hcopy : bytesOf (MergeW8.copyOut payload (bufferOf (o_array.take 16) junk)).data 16 =
      o_array.take 16 := bytesOf_finish_readPayload junk payload.data 16 htake
    rw [hcopy, List.take_append_drop]
    exact ⟨rfl, fun i hi => if_neg (Nat.not_lt.mpr hi)⟩

theorem MergeW8.transport_of_ignored (h : payload.command = .ignore ∨ payload.command = .other) :
    MergeW8.blocking_transport junk payload o_array =
      some ({ payload with status := .genericError }, o_array) := by
  rcases h with h | h <;> simp [MergeW8.blocking_transport, MergeW8.demand, MergeW8.finish, h]

end Outcomes

/-! ## The payload's length -/

/-- A served write answered OK depends on no byte of the buffer behind the payload's and pushes
exactly the payload's bytes. -/
def MergeW1.RespectsLength (payload : Payload) : Prop :=
  MergeW1.Serves payload → (MergeW1.blocking_transport payload).2.status = .ok →
    (∀ data : Nat → UInt8, (∀ i < payload.length, data i = payload.data i) →
      (MergeW1.blocking_transport { payload with data := data }).1 =
        (MergeW1.blocking_transport payload).1) ∧
    (MergeW1.blocking_transport payload).1 = bytesOf payload.data payload.length

/-- A served read answered OK pops exactly as many bytes as the payload has, leaves them in its
buffer in order, and touches nothing behind. -/
def MergeW8.RespectsLength (junk : Nat → UInt8) (payload : Payload) (o_array : List UInt8) : Prop :=
  MergeW8.Serves payload → ∀ payload' rest,
    MergeW8.blocking_transport junk payload o_array = some (payload', rest) →
      payload'.status = .ok →
        o_array = bytesOf payload'.data payload.length ++ rest ∧
          ∀ i, payload.length ≤ i → payload'.data i = payload.data i

theorem MergeW1.respectsLength_iff (payload : Payload) :
    MergeW1.RespectsLength payload ↔ (MergeW1.Serves payload → payload.length = 16) := by
  constructor
  · intro h hserves
    obtain ⟨-, hpushed⟩ := h hserves (by rw [MergeW1.transport_of_serves hserves])
    rw [MergeW1.transport_of_serves hserves] at hpushed
    have hlen := congrArg List.length hpushed
    rw [bytesOf_length, bytesOf_length] at hlen
    exact hlen.symm
  · intro h hserves _
    have hlen := h hserves
    rw [MergeW1.transport_of_serves hserves]
    refine ⟨fun data hdata => ?_, by rw [hlen]⟩
    have hserves' : MergeW1.Serves { payload with data := data } := hserves
    rw [MergeW1.transport_of_serves hserves']
    exact bytesOf_eq_iff.mpr fun i hi => hdata i (by omega)

theorem MergeW8.respectsLength_iff (junk : Nat → UInt8) (payload : Payload)
    (o_array : List UInt8) : MergeW8.RespectsLength junk payload o_array ↔
      (MergeW8.Serves payload → 16 ≤ o_array.length → payload.length = 16) := by
  constructor
  · intro h hserves hlen
    have ht : MergeW8.blocking_transport junk payload o_array = some
        (MergeW8.copyOut payload (bufferOf (o_array.take 16) junk), o_array.drop 16) := by
      rw [MergeW8.transport_of_serves hserves, if_neg (by omega)]
    obtain ⟨heq, -⟩ := h hserves _ _ ht rfl
    have := congrArg List.length heq
    rw [List.length_append, bytesOf_length, List.length_drop] at this
    omega
  · intro h hserves payload' rest ht _
    obtain ⟨hmoved, hbehind⟩ := MergeW8.moved_of_serves hserves ht
    have hle : 16 ≤ o_array.length := by
      rw [hmoved, List.length_append, bytesOf_length]
      exact Nat.le_add_right 16 _
    rw [h hserves hle]
    exact ⟨hmoved, hbehind⟩

/-- **Which lengths are respected**: sixteen, and no other, by a served transfer that is not
blocked. -/
theorem transports_respect_length_iff (junk : Nat → UInt8) (payload : Payload)
    (o_array : List UInt8) :
    (MergeW1.RespectsLength payload ↔ (MergeW1.Serves payload → payload.length = 16)) ∧
      (MergeW8.RespectsLength junk payload o_array ↔
        (MergeW8.Serves payload → 16 ≤ o_array.length → payload.length = 16)) :=
  ⟨MergeW1.respectsLength_iff payload, MergeW8.respectsLength_iff junk payload o_array⟩

/-- A write of the four bytes 1, 2, 3, 4, with zeros behind them, pushes sixteen; a read of four
bytes takes sixteen. -/
theorem four_bytes_move_sixteen :
    (MergeW1.blocking_transport (writePayload (bufferOf [1, 2, 3, 4] fun _ => 0) 4)).1 =
        [1, 2, 3, 4, 0, 0, 0, 0, 0, 0, 0, 0, 0, 0, 0, 0] ∧
      ¬ MergeW1.RespectsLength (writePayload (bufferOf [1, 2, 3, 4] fun _ => 0) 4) ∧
      (MergeW8.blocking_transport (fun _ => 0) (readPayload (fun _ => 0) 4)
        (List.replicate 32 7)).map (fun p => p.2.length) = some 16 ∧
      ¬ MergeW8.RespectsLength (fun _ => 0) (readPayload (fun _ => 0) 4)
        (List.replicate 32 7) := by
  refine ⟨by decide, fun h => ?_, by decide, fun h => ?_⟩
  · have h4 : 4 = 16 := (MergeW1.respectsLength_iff _).mp h ⟨rfl, rfl⟩
    omega
  · have h4 : 4 = 16 := (MergeW8.respectsLength_iff _ _ _).mp h ⟨rfl, rfl⟩ (by decide)
    omega

/-! ## Rejected accesses -/

/-- Only the write it serves is answered OK, and then it is made; any other payload is an error
and changes nothing. -/
def MergeW1.Reports (payload : Payload) : Prop :=
  ((MergeW1.blocking_transport payload).2.status = .ok → MergeW1.Serves payload ∧
    (MergeW1.blocking_transport payload).1 = bytesOf payload.data 16) ∧
  (¬ MergeW1.Serves payload → (MergeW1.blocking_transport payload).2.status = .genericError ∧
    (MergeW1.blocking_transport payload).1 = [] ∧
    (MergeW1.blocking_transport payload).2.data = payload.data)

/-- Only the read it serves is answered OK, and then it is made; any other payload is an error
and changes nothing. -/
def MergeW8.Reports (junk : Nat → UInt8) (payload : Payload) (o_array : List UInt8) : Prop :=
  (∀ payload' rest, MergeW8.blocking_transport junk payload o_array = some (payload', rest) →
    payload'.status = .ok → MergeW8.Serves payload ∧ o_array = bytesOf payload'.data 16 ++ rest) ∧
  (¬ MergeW8.Serves payload → ∃ payload',
    MergeW8.blocking_transport junk payload o_array = some (payload', o_array) ∧
      payload'.status = .genericError ∧ payload'.data = payload.data)

theorem command_cases (c : Command) :
    (c = .read ∨ c = .write) ∨ (c = .ignore ∨ c = .other) := by
  cases c <;> simp

theorem MergeW1.reports_iff (payload : Payload) : MergeW1.Reports payload ↔
    MergeW1.Serves payload ∨ payload.command = .ignore ∨ payload.command = .other := by
  constructor
  · rintro ⟨hok, -⟩
    by_cases hserves : MergeW1.Serves payload
    · exact Or.inl hserves
    · refine Or.inr ((command_cases payload.command).resolve_left fun hcmd => hserves ?_)
      exact (hok (by rw [MergeW1.transport_of_not_serves hserves hcmd])).1
  · rintro (hserves | hignored)
    · refine ⟨fun _ => ⟨hserves, ?_⟩, fun h => absurd hserves h⟩
      rw [MergeW1.transport_of_serves hserves]
    · rw [MergeW1.Reports, MergeW1.transport_of_ignored hignored]
      exact ⟨nofun, fun _ => ⟨rfl, rfl, rfl⟩⟩

theorem MergeW8.reports_iff (junk : Nat → UInt8) (payload : Payload) (o_array : List UInt8) :
    MergeW8.Reports junk payload o_array ↔
      MergeW8.Serves payload ∨ payload.command = .ignore ∨ payload.command = .other := by
  constructor
  · rintro ⟨hok, -⟩
    by_cases hserves : MergeW8.Serves payload
    · exact Or.inl hserves
    · refine Or.inr ((command_cases payload.command).resolve_left fun hcmd => hserves ?_)
      have hmiss : ∃ payload', MergeW8.blocking_transport junk payload o_array =
          some (payload', o_array) ∧ payload'.status = .ok :=
        MergeW8.transport_of_not_serves hserves hcmd
      obtain ⟨payload', ht, hstatus⟩ := hmiss
      exact (hok payload' o_array ht hstatus).1
  · rintro (hserves | hignored)
    · refine ⟨fun payload' rest ht _ => ⟨hserves, ?_⟩, fun h => absurd hserves h⟩
      exact (MergeW8.moved_of_serves hserves ht).1
    · rw [MergeW8.Reports, MergeW8.transport_of_ignored hignored]
      refine ⟨fun payload' rest ht hstatus => ?_, fun _ => ⟨_, rfl, rfl, rfl⟩⟩
      cases ht
      cases hstatus

/-- **Which accesses are reported**: the transfers that are served, and the payloads that are
neither read nor write. -/
theorem rejected_reported_iff (junk : Nat → UInt8) (payload : Payload) (o_array : List UInt8) :
    (MergeW1.Reports payload ↔
      MergeW1.Serves payload ∨ payload.command = .ignore ∨ payload.command = .other) ∧
    (MergeW8.Reports junk payload o_array ↔
      MergeW8.Serves payload ∨ payload.command = .ignore ∨ payload.command = .other) :=
  ⟨MergeW1.reports_iff payload, MergeW8.reports_iff junk payload o_array⟩

/-- A read at local address 8 of `MergeW8` is answered OK with the indeterminate bytes of
`o_buffer`, here 170, in place of the zeros of its buffer. -/
theorem wrong_address_reads_junk :
    (MergeW8.blocking_transport (fun _ => 170)
        { command := .read, address := 8, data := fun _ => 0, length := 16, status := .incomplete }
        []).map (fun p => (p.1.status, p.1.data 0, p.2)) = some (.ok, 170, []) ∧
      ¬ MergeW8.Reports (fun _ => 170)
        { command := .read, address := 8, data := fun _ => 0, length := 16, status := .incomplete }
        [] := by
  refine ⟨by decide, fun h => ?_⟩
  rcases (MergeW8.reports_iff _ _ _).mp h with ⟨-, haddr⟩ | hcmd | hcmd
  · exact absurd haddr (by decide)
  · cases hcmd
  · cases hcmd

end SortPlatform.Vp

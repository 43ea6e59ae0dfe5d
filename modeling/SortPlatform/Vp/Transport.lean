import Mathlib.Data.List.OfFn

/-!
# The TLM transports of a sorting PE

`MergeW1::blocking_transport` and `MergeW8::blocking_transport` of `src/vp/basic-final`, with the
addresses of `merge_def.h`.

A payload's data is the memory from `data_ptr` on: nothing in the two functions looks at the
payload's length, so they can reach bytes behind it.

* `MergeW1.blocking_transport` — the bytes written to `i_array`, in order, and the payload left.
* `MergeW8.blocking_transport` — the payload left and what remains of the bytes `o_array`
  delivers; `none` while it blocks on an empty FIFO. `junk` is the indeterminate content of the
  local `o_buffer`.
-/

set_option autoImplicit false

namespace SortPlatform.Vp

/-- `tlm::tlm_command`; `other` is the `default:` case of the switch. -/
inductive Command where
  | read
  | write
  | ignore
  | other
  deriving DecidableEq, Repr

/-- `tlm::tlm_response_status`, as far as the PEs set it. -/
inductive Status where
  | incomplete
  | ok
  | genericError
  deriving DecidableEq, Repr

/-- `tlm::tlm_generic_payload`; `data i` is `data_ptr[i]`. -/
structure Payload where
  command : Command
  address : UInt64
  data : Nat → UInt8
  length : Nat
  status : Status

def SOBEL_FILTER_R_ADDR : UInt64 := 0x00000000
def SOBEL_FILTER_RESULT_ADDR : UInt64 := 0x00000004

/-- `data_ptr[0], …, data_ptr[n-1]`. -/
def bytesOf (data : Nat → UInt8) (n : Nat) : List UInt8 := (List.range n).map data

@[simp] theorem bytesOf_length (data : Nat → UInt8) (n : Nat) : (bytesOf data n).length = n := by
  simp [bytesOf]

/-- The data of a payload whose buffer holds `bs`, followed in memory by `stray`. -/
def bufferOf (bs : List UInt8) (stray : Nat → UInt8) (i : Nat) : UInt8 := bs.getD i (stray i)

theorem bytesOf_bufferOf (bs : List UInt8) (stray : Nat → UInt8) :
    bytesOf (bufferOf bs stray) bs.length = bs := by
  apply List.ext_getElem (by simp)
  intro i h1 h2
  simp [bytesOf, bufferOf, h2]

theorem bytesOf_eq_iff {f g : Nat → UInt8} {n : Nat} :
    bytesOf f n = bytesOf g n ↔ ∀ i < n, f i = g i := by
  simp [bytesOf]

/-- `MergeW1::blocking_transport`. -/
def MergeW1.blocking_transport (payload : Payload) : List UInt8 × Payload :=
  match payload.command with
  | .read => ([], { payload with status := .ok })
  | .write =>
    if payload.address = SOBEL_FILTER_R_ADDR then
      (bytesOf payload.data 16, { payload with status := .ok })
    else ([], { payload with status := .ok })
  | .ignore => ([], { payload with status := .genericError })
  | .other => ([], { payload with status := .genericError })

/-- The copy-out of `o_buffer` behind the address switch: `data_ptr[0], …, data_ptr[15]`. -/
def MergeW8.copyOut (payload : Payload) (o_buffer : Nat → UInt8) : Payload :=
  { payload with data := fun i => if i < 16 then o_buffer i else payload.data i, status := .ok }

/-- The number of bytes `MergeW8::blocking_transport` reads from `o_array`. -/
def MergeW8.demand (payload : Payload) : Nat :=
  match payload.command with
  | .read => if payload.address = SOBEL_FILTER_RESULT_ADDR then 16 else 0
  | _ => 0

/-- The payload `MergeW8::blocking_transport` leaves once it has read `got` from `o_array`. -/
def MergeW8.finish (junk : Nat → UInt8) (payload : Payload) (got : List UInt8) : Payload :=
  match payload.command with
  | .read =>
    if payload.address = SOBEL_FILTER_RESULT_ADDR then MergeW8.copyOut payload (bufferOf got junk)
    else MergeW8.copyOut payload junk
  | .write => { payload with status := .ok }
  | .ignore => { payload with status := .genericError }
  | .other => { payload with status := .genericError }

/-- `MergeW8::blocking_transport` on a FIFO that delivers `o_array`. -/
def MergeW8.blocking_transport (junk : Nat → UInt8) (payload : Payload) (o_array : List UInt8) :
    Option (Payload × List UInt8) :=
  let n := MergeW8.demand payload
  if o_array.length < n then none
  else some (MergeW8.finish junk payload (o_array.take n), o_array.drop n)

/-! ## The transfers the platform uses -/

/-- A write of `data` to `SOBEL_FILTER_R_ADDR`. -/
def writePayload (data : Nat → UInt8) (n : Nat) : Payload :=
  { command := .write, address := SOBEL_FILTER_R_ADDR, data := data, length := n,
    status := .incomplete }

/-- A read into `data` from `SOBEL_FILTER_RESULT_ADDR`. -/
def readPayload (data : Nat → UInt8) (n : Nat) : Payload :=
  { command := .read, address := SOBEL_FILTER_RESULT_ADDR, data := data, length := n,
    status := .incomplete }

@[simp] theorem blocking_transport_writePayload (data : Nat → UInt8) (n : Nat) :
    (MergeW1.blocking_transport (writePayload data n)).1 = bytesOf data 16 := rfl

@[simp] theorem demand_readPayload (data : Nat → UInt8) (n : Nat) :
    MergeW8.demand (readPayload data n) = 16 := rfl

/-- A completed read leaves the sixteen bytes it took at the front of the buffer. -/
theorem bytesOf_finish_readPayload (junk data : Nat → UInt8) (n : Nat) {got : List UInt8}
    (h : got.length = 16) :
    bytesOf (MergeW8.finish junk (readPayload data n) got).data 16 = got := by
  rw [← h]
  conv => rhs; rw [← bytesOf_bufferOf got junk]
  rw [bytesOf_eq_iff]
  intro i hi
  show (if i < 16 then bufferOf got junk i else data i) = bufferOf got junk i
  rw [if_pos (by omega)]

end SortPlatform.Vp

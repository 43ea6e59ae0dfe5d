import Mathlib.Data.List.GetD
import SortPlatform.Vp.AddressMap
import SortPlatform.Vp.Transport

/-!
# The two ways to reach a PE

`write_data_to_ACC` and `read_data_from_ACC` of `src/sw/final/main.cpp` with a length of 16. With
`_is_using_dma` the DMA copies in blocks of at most 64 bytes; without it `memcpy` makes aligned
CPU accesses of 1, 2 or 4 bytes. Either way a transfer is a list of accesses `(off, n)`, each one
TLM payload of length `n` at offset `off`.

The transports do not look at the length. `stray off` is the memory behind the data buffer of the
access at offset `off`, `junk off` the indeterminate `o_buffer` of its transport.

Principal result: `paths_agree_iff` — the two ways agree exactly when the memory that the short
accesses wrongly pick up holds the missing bytes.
-/

set_option autoImplicit false

namespace SortPlatform.Vp

open BasicOptions

/-! ## Accesses -/

/-- The blocks of `SimpleDMA::_perform_memcpy` from offset `off` on, with `n` bytes to go. -/
def SimpleDMA.blocks (off n : Nat) : List (Nat × Nat) :=
  if 64 < n then (off, 64) :: SimpleDMA.blocks (off + 64) (n - 64) else [(off, n)]

/-- The accesses a `memcpy` of `len` bytes may be carried out as, from offset `off` on. -/
def IsMemcpy (len : Nat) : Nat → List (Nat × Nat) → Prop
  | off, [] => off = len
  | off, (o, n) :: rest =>
    o = off ∧ (n = 1 ∨ n = 2 ∨ n = 4) ∧ n ∣ off ∧ IsMemcpy len (off + n) rest

instance (len : Nat) : ∀ (off : Nat) (split : List (Nat × Nat)), Decidable (IsMemcpy len off split)
  | off, [] => inferInstanceAs (Decidable (off = len))
  | off, (o, n) :: rest =>
    have := instDecidableIsMemcpy len (off + n) rest
    inferInstanceAs (Decidable (o = off ∧ (n = 1 ∨ n = 2 ∨ n = 4) ∧ n ∣ off ∧
      IsMemcpy len (off + n) rest))

/-- `PE_START_ADDR_0`, …, `PE_START_ADDR_3`. -/
def PE_START_ADDR : Fin 4 → UInt32 := ![0x73000000, 0x75000000, 0x77000000, 0x79000000]

/-- `PE_READ_ADDR_0`, …, `PE_READ_ADDR_3`. -/
def PE_READ_ADDR : Fin 4 → UInt32 := ![0x74000004, 0x76000004, 0x78000004, 0x80000004]

/-- The windows of `mergeW1_0`, …, `mergeW1_3`. -/
def mergew1_start_addr : Fin 4 → UInt32 :=
  ![mergew1_0_start_addr, mergew1_1_start_addr, mergew1_2_start_addr, mergew1_3_start_addr]

/-- The windows of `mergeW8_0`, …, `mergeW8_3`. -/
def mergew8_start_addr : Fin 4 → UInt32 :=
  ![mergew8_0_start_addr, mergew8_1_start_addr, mergew8_2_start_addr, mergew8_3_start_addr]

/-- The local address that the bus hands to the target. -/
def localAddr (start addr : UInt32) : UInt64 := (addr - start).toUInt64

theorem localAddr_add (start : UInt32) {k : Nat} (hk : k < 2 ^ 32) :
    localAddr start (start + UInt32.ofNat k) = UInt64.ofNat k := by
  rw [localAddr, UInt32.add_comm, UInt32.add_sub_cancel]
  apply UInt64.toNat_inj.mp
  rw [UInt32.toNat_toUInt64, UInt32.toNat_ofNat_of_lt' hk, UInt64.toNat_ofNat_of_lt' (by
    exact Nat.lt_trans hk (by decide))]

/-- An access to `PE_START_ADDR_i + off` arrives at local address `off`. -/
theorem localAddr_start (i : Fin 4) {off : Nat} (hoff : off < 2 ^ 32) :
    localAddr (mergew1_start_addr i) (PE_START_ADDR i + UInt32.ofNat off) = UInt64.ofNat off := by
  rw [show PE_START_ADDR i = mergew1_start_addr i by revert i; decide, localAddr_add _ hoff]

/-- An access to `PE_READ_ADDR_i + off` arrives at local address `4 + off`. -/
theorem localAddr_read (i : Fin 4) {off : Nat} (hoff : 4 + off < 2 ^ 32) :
    localAddr (mergew8_start_addr i) (PE_READ_ADDR i + UInt32.ofNat off) =
      UInt64.ofNat (4 + off) := by
  rw [show PE_READ_ADDR i = mergew8_start_addr i + UInt32.ofNat 4 by revert i; decide,
    UInt32.add_assoc, ← UInt32.ofNat_add, localAddr_add _ hoff]

/-! ## Writes -/

/-- The payload of a write access of `n` bytes at `PE_START_ADDR_i + off`. -/
def writeAccess (i : Fin 4) (stray : Nat → UInt8) (buffer : List UInt8) (off n : Nat) : Payload :=
  { command := .write
    address := localAddr (mergew1_start_addr i) (PE_START_ADDR i + UInt32.ofNat off)
    data := bufferOf ((buffer.drop off).take n) stray
    length := n
    status := .incomplete }

/-- What the accesses push into `MergeW1_i.i_array`. -/
def pushed (i : Fin 4) (stray : Nat → Nat → UInt8) (buffer : List UInt8)
    (accesses : List (Nat × Nat)) : List UInt8 :=
  accesses.flatMap fun a =>
    (MergeW1.blocking_transport (writeAccess i (stray a.1) buffer a.1 a.2)).1

/-- `write_data_to_ACC(PE_START_ADDR_i, buffer, len)`: the bytes that reach `i_array`. `split` are
the accesses of `memcpy`. -/
def write_data_to_ACC (_is_using_dma : Bool) (split : List (Nat × Nat)) (i : Fin 4)
    (stray : Nat → Nat → UInt8) (buffer : List UInt8) (len : Nat) : List UInt8 :=
  pushed i stray buffer (if _is_using_dma then SimpleDMA.blocks 0 len else split)

/-! ## Reads -/

/-- The payload of a read access of `n` bytes at `PE_READ_ADDR_i + off`. -/
def readAccess (i : Fin 4) (stray : Nat → UInt8) (off n : Nat) : Payload :=
  { command := .read
    address := localAddr (mergew8_start_addr i) (PE_READ_ADDR i + UInt32.ofNat off)
    data := stray
    length := n
    status := .incomplete }

/-- `buffer` with the bytes from offset `off` on replaced by `bs`. -/
def patch (buffer : List UInt8) (off : Nat) (bs : List UInt8) : List UInt8 :=
  buffer.take off ++ bs ++ buffer.drop (off + bs.length)

/-- The accesses fill `buffer` from `MergeW8_i.o_array`; `none` while one blocks. -/
def popped (i : Fin 4) (stray junk : Nat → Nat → UInt8) :
    List (Nat × Nat) → List UInt8 → List UInt8 → Option (List UInt8 × List UInt8)
  | [], buffer, o_array => some (buffer, o_array)
  | (off, n) :: rest, buffer, o_array =>
    (MergeW8.blocking_transport (junk off) (readAccess i (stray off) off n) o_array).bind fun p =>
      popped i stray junk rest (patch buffer off (bytesOf p.1.data n)) p.2

/-- `read_data_from_ACC(PE_READ_ADDR_i, buffer, len)`: the buffer and what is left in `o_array`.
`split` are the accesses of `memcpy`. -/
def read_data_from_ACC (_is_using_dma : Bool) (split : List (Nat × Nat)) (i : Fin 4)
    (stray junk : Nat → Nat → UInt8) (buffer o_array : List UInt8) (len : Nat) :
    Option (List UInt8 × List UInt8) :=
  popped i stray junk (if _is_using_dma then SimpleDMA.blocks 0 len else split) buffer o_array

/-! ## What the two ways do -/

theorem SimpleDMA.blocks_of_le {off n : Nat} (h : n ≤ 64) : SimpleDMA.blocks off n = [(off, n)] := by
  rw [SimpleDMA.blocks, if_neg (by omega)]

/-- Only the access at offset 0 pushes, and always sixteen bytes. -/
theorem transport_writeAccess (i : Fin 4) (stray : Nat → UInt8) (buffer : List UInt8)
    {off : Nat} (n : Nat) (hoff : off < 2 ^ 32) :
    (MergeW1.blocking_transport (writeAccess i stray buffer off n)).1 =
      if off = 0 then bytesOf (bufferOf (buffer.take n) stray) 16 else [] := by
  have haddr : (writeAccess i stray buffer off n).address = UInt64.ofNat off :=
    localAddr_start i hoff
  have hzero : UInt64.ofNat off = SOBEL_FILTER_R_ADDR ↔ off = 0 := by
    rw [← UInt64.toNat_inj, UInt64.toNat_ofNat_of_lt' (Nat.lt_trans hoff (by decide))]
    rfl
  unfold MergeW1.blocking_transport
  rw [haddr]
  simp only [writeAccess, hzero]
  split
  · rename_i h0
    rw [h0, List.drop_zero]
  · rfl

/-- The address of a read access matches only at offset 0. -/
theorem address_readAccess (i : Fin 4) (stray : Nat → UInt8) (off n : Nat)
    (hoff : 4 + off < 2 ^ 32) :
    (readAccess i stray off n).address = SOBEL_FILTER_RESULT_ADDR ↔ off = 0 := by
  show localAddr _ _ = _ ↔ _
  rw [localAddr_read i hoff, ← UInt64.toNat_inj,
    UInt64.toNat_ofNat_of_lt' (Nat.lt_trans hoff (by decide))]
  show 4 + off = 4 ↔ off = 0
  omega

/-- The read access at offset 0 takes sixteen bytes. -/
theorem transport_readAccess_zero (i : Fin 4) (stray junk : Nat → UInt8) (n : Nat)
    (o_array : List UInt8) :
    MergeW8.blocking_transport junk (readAccess i stray 0 n) o_array =
      if o_array.length < 16 then none
      else some (MergeW8.copyOut (readAccess i stray 0 n) (bufferOf (o_array.take 16) junk),
        o_array.drop 16) := by
  have haddr := (address_readAccess i stray 0 n (by decide)).mpr rfl
  have hdemand : MergeW8.demand (readAccess i stray 0 n) = 16 := by
    rw [MergeW8.demand, if_pos haddr]; rfl
  simp only [MergeW8.blocking_transport, hdemand]
  rw [MergeW8.finish, if_pos haddr]
  rfl

/-- A read access at another offset takes nothing and copies out the indeterminate buffer. -/
theorem transport_readAccess_pos (i : Fin 4) (stray junk : Nat → UInt8) (n : Nat)
    (o_array : List UInt8) {off : Nat} (hpos : 0 < off) (hoff : 4 + off < 2 ^ 32) :
    MergeW8.blocking_transport junk (readAccess i stray off n) o_array =
      some (MergeW8.copyOut (readAccess i stray off n) junk, o_array) := by
  have haddr : ¬ (readAccess i stray off n).address = SOBEL_FILTER_RESULT_ADDR := by
    rw [address_readAccess i stray off n hoff]; omega
  have hdemand : MergeW8.demand (readAccess i stray off n) = 0 := by
    rw [MergeW8.demand, if_neg haddr]; rfl
  simp only [MergeW8.blocking_transport, hdemand, Nat.not_lt_zero, if_false, List.drop_zero]
  rw [MergeW8.finish, if_neg haddr]
  rfl

theorem bytesOf_copyOut (payload : Payload) (o_buffer : Nat → UInt8) {n : Nat} (hn : n ≤ 16) :
    bytesOf (MergeW8.copyOut payload o_buffer).data n = bytesOf o_buffer n := by
  rw [bytesOf_eq_iff]
  intro k hk
  exact if_pos (by omega)

/-- The offsets of a `memcpy` stay within its length. -/
theorem IsMemcpy.le {len : Nat} : ∀ {off : Nat} {split : List (Nat × Nat)},
    IsMemcpy len off split → off ≤ len
  | off, [], h => Nat.le_of_eq h
  | off, (_, n) :: rest, ⟨_, _, _, h⟩ => by
    have := h.le
    omega

/-- **Direct writes**: behind the first access nothing is pushed. -/
theorem pushed_tail (i : Fin 4) (stray : Nat → Nat → UInt8) (buffer : List UInt8) :
    ∀ {off : Nat} {split : List (Nat × Nat)}, 0 < off → IsMemcpy 16 off split →
      pushed i stray buffer split = []
  | off, [], _, _ => rfl
  | off, (_, n) :: rest, hpos, ⟨rfl, hn, _, h⟩ => by
    have hle := h.le
    rw [pushed, List.flatMap_cons, transport_writeAccess i _ buffer n (by omega), if_neg (by omega)]
    exact pushed_tail i stray buffer (by omega) h

/-- **Direct reads**: behind the first access nothing is popped, and the buffer gets the
indeterminate bytes. -/
theorem popped_tail (i : Fin 4) (stray junk : Nat → Nat → UInt8) (o_array : List UInt8) :
    ∀ {off : Nat} {split : List (Nat × Nat)} {buffer : List UInt8}, 0 < off →
      IsMemcpy 16 off split → buffer.length = 16 →
      popped i stray junk split buffer o_array =
        some (buffer.take off ++ split.flatMap fun a => bytesOf (junk a.1) a.2, o_array)
  | off, [], buffer, _, h, hb => by
    rw [popped, List.take_of_length_le (by rw [hb]; exact Nat.le_of_eq h.symm)]
    simp
  | off, (_, n) :: rest, buffer, hpos, ⟨rfl, hn, _, h⟩, hb => by
    have hle := h.le
    have hlen : (bytesOf (junk off) n).length = n := bytesOf_length _ n
    have hpatch : (patch buffer off (bytesOf (junk off) n)).length = 16 := by
      simp only [patch, List.length_append, List.length_take, List.length_drop, hlen, hb]
      omega
    rw [popped, transport_readAccess_pos i _ _ n o_array hpos (by omega), Option.bind_some,
      bytesOf_copyOut _ _ (by omega), popped_tail i stray junk o_array (by omega) h hpatch]
    have htake : (patch buffer off (bytesOf (junk off) n)).take (off + n) =
        buffer.take off ++ bytesOf (junk off) n := by
      rw [patch]
      exact List.take_left' (by rw [List.length_append, List.length_take, hlen, hb]; omega)
    rw [htake, List.flatMap_cons, List.append_assoc]

/-! ## Agreement -/

/-- The memory behind the first write access holds the rest of the block. -/
def StrayHoldsRest (split : List (Nat × Nat)) (stray : Nat → Nat → UInt8) (buffer : List UInt8) :
    Prop :=
  ∀ a ∈ split, a.1 = 0 → ∀ k, a.2 ≤ k → k < 16 → stray 0 k = buffer.getD k 0

/-- The indeterminate buffers of the later read accesses hold the rest of the block. -/
def JunkHoldsRest (split : List (Nat × Nat)) (junk : Nat → Nat → UInt8) (o_array : List UInt8) :
    Prop :=
  ∀ a ∈ split, a.1 ≠ 0 → ∀ k < a.2, junk a.1 k = o_array.getD (a.1 + k) 0

/-- A `memcpy` of sixteen bytes starts with an access at offset 0 and goes on behind it. -/
theorem IsMemcpy.cons {split : List (Nat × Nat)} (h : IsMemcpy 16 0 split) :
    ∃ n rest, split = (0, n) :: rest ∧ 0 < n ∧ n ≤ 4 ∧ IsMemcpy 16 n rest := by
  match split, h with
  | (_, n) :: rest, ⟨rfl, hn, _, h⟩ =>
    rw [Nat.zero_add] at h
    exact ⟨n, rest, rfl, by omega, by omega, h⟩

theorem IsMemcpy.bounds {len : Nat} : ∀ {off : Nat} {split : List (Nat × Nat)},
    IsMemcpy len off split → ∀ a ∈ split, off ≤ a.1 ∧ a.1 + a.2 ≤ len
  | _, [], _, a, ha => by cases ha
  | off, (_, n) :: rest, ⟨rfl, _, _, h⟩, a, ha => by
    have hle := h.le
    rcases List.mem_cons.mp ha with rfl | ha
    · exact ⟨Nat.le_refl _, hle⟩
    · have := h.bounds a ha
      omega

/-- The pieces of a tail are right exactly when each is. -/
theorem flatMap_eq_drop_iff {len : Nat} (f : Nat → Nat → UInt8) {target : List UInt8}
    (ht : target.length = len) : ∀ {off : Nat} {split : List (Nat × Nat)}, IsMemcpy len off split →
      ((split.flatMap fun a => bytesOf (f a.1) a.2) = target.drop off ↔
        ∀ a ∈ split, ∀ k < a.2, f a.1 k = target.getD (a.1 + k) 0)
  | off, [], h => by
    have hoff : off = len := h
    simp [hoff, ← ht]
  | off, (_, n) :: rest, ⟨rfl, hn, _, h⟩ => by
    have hle := h.le
    have hsplit : target.drop off = bytesOf (fun k => target.getD (off + k) 0) n ++
        target.drop (off + n) := by
      rw [← List.take_append_drop n (target.drop off), List.drop_drop]
      congr 1
      apply List.ext_getElem (by simp; omega)
      intro k h1 h2
      have hk : k < n := by simpa using h2
      have hin : off + k < target.length := by omega
      simp [bytesOf, hin]
    rw [List.flatMap_cons, hsplit, List.forall_mem_cons, ← flatMap_eq_drop_iff f ht h,
      ← bytesOf_eq_iff]
    constructor
    · intro heq
      exact List.append_inj heq (by simp)
    · rintro ⟨h1, h2⟩
      rw [h1, h2]

section Agree

variable (i : Fin 4) (stray junk : Nat → Nat → UInt8)

/-- The DMA pushes the sixteen bytes of the buffer. -/
theorem write_data_to_ACC_dma (split : List (Nat × Nat)) {buffer : List UInt8}
    (hb : buffer.length = 16) : write_data_to_ACC true split i stray buffer 16 = buffer := by
  rw [write_data_to_ACC, if_pos rfl, SimpleDMA.blocks_of_le (by omega), pushed,
    List.flatMap_singleton, transport_writeAccess i _ buffer 16 (by decide), if_pos rfl,
    List.take_of_length_le (by omega)]
  conv => lhs; rw [← hb]
  exact bytesOf_bufferOf buffer (stray 0)

/-- The direct path pushes one access and the memory behind it. -/
theorem write_data_to_ACC_direct {split : List (Nat × Nat)} {n : Nat} {rest : List (Nat × Nat)}
    (hs : split = (0, n) :: rest) (hn : 0 < n) (h : IsMemcpy 16 n rest) (buffer : List UInt8) :
    write_data_to_ACC false split i stray buffer 16 =
      bytesOf (bufferOf (buffer.take n) (stray 0)) 16 := by
  rw [write_data_to_ACC, if_neg (by decide), hs, pushed, List.flatMap_cons,
    transport_writeAccess i _ buffer n (Nat.zero_lt_of_lt (by decide : 0 < 2 ^ 32)), if_pos rfl]
  have htail := pushed_tail i stray buffer hn h
  rw [pushed] at htail
  rw [htail, List.append_nil]

/-- **Writes agree** exactly when the memory behind the first access holds the rest. -/
theorem write_agree_iff {split : List (Nat × Nat)} (h : IsMemcpy 16 0 split) {buffer : List UInt8}
    (hb : buffer.length = 16) :
    write_data_to_ACC false split i stray buffer 16 =
      write_data_to_ACC true split i stray buffer 16 ↔ StrayHoldsRest split stray buffer := by
  obtain ⟨n, rest, hs, hn, hn4, hrest⟩ := h.cons
  have hbuf : buffer = bytesOf (fun k => buffer.getD k 0) 16 := by
    rw [← hb]
    conv => lhs; rw [← bytesOf_bufferOf buffer fun _ => 0]
    rfl
  rw [write_data_to_ACC_dma i stray split hb, write_data_to_ACC_direct i stray hs hn hrest]
  conv => lhs; rhs; rw [hbuf]
  rw [bytesOf_eq_iff]
  constructor
  · intro heq a ha h0 k hk hk16
    rw [hs] at ha
    rcases List.mem_cons.mp ha with rfl | ha
    · have := heq k hk16
      rwa [bufferOf, List.getD_eq_default _ _ (by rw [List.length_take]; omega)] at this
    · have := hrest.bounds a ha
      omega
  · intro hstray k hk
    by_cases hkn : k < n
    · rw [bufferOf, List.getD_eq_getElem _ _ (by rw [List.length_take]; omega),
        List.getD_eq_getElem _ _ (by omega), List.getElem_take]
    · rw [bufferOf, List.getD_eq_default _ _ (by rw [List.length_take]; omega)]
      exact hstray (0, n) (by rw [hs]; exact List.mem_cons_self) rfl k (by omega) hk

/-- **Reads agree** exactly when both block or the indeterminate bytes are the right ones. -/
theorem read_agree_iff {split : List (Nat × Nat)} (h : IsMemcpy 16 0 split) {buffer : List UInt8}
    (hb : buffer.length = 16) (o_array : List UInt8) :
    read_data_from_ACC false split i stray junk buffer o_array 16 =
      read_data_from_ACC true split i stray junk buffer o_array 16 ↔
        (16 ≤ o_array.length → JunkHoldsRest split junk o_array) := by
  obtain ⟨n, rest, hs, hn, hn4, hrest⟩ := h.cons
  rw [read_data_from_ACC, read_data_from_ACC, if_neg (by decide), if_pos rfl,
    SimpleDMA.blocks_of_le (by omega), hs]
  simp only [popped, transport_readAccess_zero]
  by_cases hshort : o_array.length < 16
  · simp only [if_pos hshort, Option.bind_none, true_iff]
    omega
  · have htake : (o_array.take 16).length = 16 := by rw [List.length_take]; omega
    have hread : ∀ m ≤ 16, bytesOf (MergeW8.copyOut (readAccess i (stray 0) 0 m)
        (bufferOf (o_array.take 16) (junk 0))).data m = o_array.take m := by
      intro m hm
      rw [bytesOf_copyOut _ _ hm]
      apply List.ext_getElem (by simp; omega)
      intro k h1 h2
      have hk : k < m := by simpa using h1
      have hko : k < o_array.length := by omega
      have hk16 : k < 16 := by omega
      simp [bytesOf, bufferOf, hk16, hko]
    have hfill : ∀ m ≤ 16, patch buffer 0 (o_array.take m) =
        o_array.take m ++ buffer.drop m := by
      intro m hm
      rw [patch, List.take_zero, List.nil_append, Nat.zero_add, List.length_take,
        Nat.min_eq_left (by omega)]
    have hlen : (patch buffer 0 (o_array.take n)).length = 16 := by
      rw [hfill n (by omega), List.length_append, List.length_take, List.length_drop]; omega
    rw [if_neg hshort, if_neg hshort]
    simp only [Option.bind_some, hread n (by omega), hread 16 (Nat.le_refl _)]
    rw [popped_tail i stray junk _ hn hrest hlen, hfill n (by omega), hfill 16 (Nat.le_refl _),
      List.take_left' (by rw [List.length_take]; omega),
      List.drop_of_length_le (by omega : buffer.length ≤ 16), List.append_nil]
    have hsplit : o_array.take 16 = o_array.take n ++ (o_array.take 16).drop n := by
      conv => lhs; rw [← List.take_append_drop n (o_array.take 16), List.take_take]
      rw [Nat.min_eq_left (by omega)]
    rw [hsplit, Option.some_inj, Prod.mk.injEq, List.append_cancel_left_eq,
      flatMap_eq_drop_iff junk htake hrest]
    constructor
    · rintro ⟨heq, -⟩ - a ha ha0 k hk
      rcases List.mem_cons.mp ha with rfl | ha
      · exact absurd rfl ha0
      · have hb := hrest.bounds a ha
        rw [heq a ha k hk, List.getD_eq_getElem _ _ (by omega), List.getElem_take,
          List.getD_eq_getElem]
    · intro hjunk
      refine ⟨fun a ha k hk => ?_, rfl⟩
      have hb := hrest.bounds a ha
      rw [hjunk (by omega) a (List.mem_cons_of_mem _ ha) (by omega) k hk,
        List.getD_eq_getElem _ _ (by omega), List.getD_eq_getElem _ _ (by omega),
        List.getElem_take]

/-- **DMA path and direct path**: for every split into CPU accesses both transfers agree exactly
when the memory the first write access runs into and the indeterminate bytes the later read
accesses return happen to be the rest of the block. -/
theorem paths_agree_iff (split : List (Nat × Nat)) (h : IsMemcpy 16 0 split)
    (buffer : List UInt8) (hb : buffer.length = 16) (out : List UInt8) (hout : out.length = 16)
    (o_array : List UInt8) :
    (write_data_to_ACC false split i stray buffer 16 =
        write_data_to_ACC true split i stray buffer 16 ∧
      read_data_from_ACC false split i stray junk out o_array 16 =
        read_data_from_ACC true split i stray junk out o_array 16) ↔
    StrayHoldsRest split stray buffer ∧ (16 ≤ o_array.length → JunkHoldsRest split junk o_array) :=
  and_congr (write_agree_iff i stray h hb) (read_agree_iff i stray junk h hout o_array)

end Agree

/-! ### Word accesses -/

/-- Four aligned accesses of four bytes. -/
def fourWords : List (Nat × Nat) := [(0, 4), (4, 4), (8, 4), (12, 4)]

/-- Word accesses with the block 1, …, 16, the memory around holding just the rest of it: nothing is
lost in either direction. -/
theorem paths_agree_iff_fourWords :
    write_data_to_ACC false fourWords 0 (fun off k => UInt8.ofNat (off + k + 1))
        [1, 2, 3, 4, 5, 6, 7, 8, 9, 10, 11, 12, 13, 14, 15, 16] 16 =
      write_data_to_ACC true fourWords 0 (fun off k => UInt8.ofNat (off + k + 1))
        [1, 2, 3, 4, 5, 6, 7, 8, 9, 10, 11, 12, 13, 14, 15, 16] 16 ∧
    read_data_from_ACC false fourWords 0 (fun off k => UInt8.ofNat (off + k + 1))
        (fun off k => UInt8.ofNat (off + k + 1)) (List.replicate 16 0)
        [1, 2, 3, 4, 5, 6, 7, 8, 9, 10, 11, 12, 13, 14, 15, 16] 16 =
      read_data_from_ACC true fourWords 0 (fun off k => UInt8.ofNat (off + k + 1))
        (fun off k => UInt8.ofNat (off + k + 1)) (List.replicate 16 0)
        [1, 2, 3, 4, 5, 6, 7, 8, 9, 10, 11, 12, 13, 14, 15, 16] 16 :=
  (paths_agree_iff 0 _ _ fourWords (by decide) _ rfl _ rfl _).mpr
    ⟨by unfold StrayHoldsRest; decide, fun _ => by unfold JunkHoldsRest; decide⟩

/-- Word accesses with the block 1, …, 16 and zeros around it: twelve bytes are lost in either
direction. -/
theorem fourWords_lose_bytes : IsMemcpy 16 0 fourWords ∧
    write_data_to_ACC true fourWords 0 (fun _ _ => 0)
        [1, 2, 3, 4, 5, 6, 7, 8, 9, 10, 11, 12, 13, 14, 15, 16] 16 =
      [1, 2, 3, 4, 5, 6, 7, 8, 9, 10, 11, 12, 13, 14, 15, 16] ∧
    write_data_to_ACC false fourWords 0 (fun _ _ => 0)
        [1, 2, 3, 4, 5, 6, 7, 8, 9, 10, 11, 12, 13, 14, 15, 16] 16 =
      [1, 2, 3, 4, 0, 0, 0, 0, 0, 0, 0, 0, 0, 0, 0, 0] ∧
    read_data_from_ACC false fourWords 0 (fun _ _ => 0) (fun _ _ => 0) (List.replicate 16 7)
        [1, 2, 3, 4, 5, 6, 7, 8, 9, 10, 11, 12, 13, 14, 15, 16] 16 =
      some ([1, 2, 3, 4, 0, 0, 0, 0, 0, 0, 0, 0, 0, 0, 0, 0], []) := by
  refine ⟨by decide, ?_, by decide, by decide⟩
  exact write_data_to_ACC_dma 0 _ fourWords rfl

end SortPlatform.Vp

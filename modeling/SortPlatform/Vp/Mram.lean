import SortPlatform.Lib.History
import SortPlatform.Lib.Machine
import SortPlatform.Lib.Splice
import SortPlatform.Vp.AddressMap
import SortPlatform.Vp.Transport

/-!
# The MRAM

`SimpleMRAM` of `src/vp/basic-final/mram.h`: memory behind which there is a file, if one is named.
A file that is named can be opened and resized here. `none` where an assertion fails.

* `SimpleMRAM.create`, `SimpleMRAM.transport` — the constructor and the accesses.
* `MramHost` — one simulation after the other on the same file, each with options of its own.
* `lastByte` — what a history made of a byte.

Principal result: `mram_persists` — the bytes read are the bytes last written, by whichever
simulation, except that one with a smaller image cuts off what is beyond it.
-/

set_option autoImplicit false

namespace SortPlatform.Vp

open History RunMerge Splice

/-- The file behind an open `fstream`, and whether the stream is good. -/
structure MramFile where
  bytes : List UInt8
  good : Bool

structure SimpleMRAM where
  mSize : UInt32
  file : Option MramFile

/-- `truncate` -/
def truncate (bytes : List UInt8) (n : Nat) : List UInt8 :=
  bytes.take n ++ List.replicate (n - bytes.length) 0

namespace SimpleMRAM

/-- The constructor; `disk` is what there is under `filepath`, if that is not empty. -/
def create (filepath : Bool) (disk : Option (List UInt8)) (size : UInt32) : SimpleMRAM :=
  if filepath = false ∨ size = 0 then ⟨size, none⟩
  else ⟨size, some ⟨truncate (disk.getD []) size.toNat, true⟩⟩

def write_data (s : SimpleMRAM) (addr : UInt32) (src : List UInt8) : Option SimpleMRAM :=
  let num_bytes := UInt32.ofNat src.length
  if addr + num_bytes ≤ s.mSize then
    some { s with file := s.file.map fun f =>
      if f.good then { f with bytes := splice f.bytes addr.toNat src } else f }
  else none

/-- A read that comes to the end of the file leaves the stream bad. -/
def read_data (s : SimpleMRAM) (addr : UInt32) (dst : Nat → UInt8) (n : Nat) :
    Option (SimpleMRAM × (Nat → UInt8)) :=
  let num_bytes := UInt32.ofNat n
  if addr + num_bytes ≤ s.mSize then
    match s.file with
    | none => some (s, dst)
    | some f =>
      if f.good then
        let got := slice f.bytes addr.toNat (addr.toNat + n)
        some ({ s with file := some { f with good := got.length = n } }, bufferOf got dst)
      else some (s, dst)
  else none

def transport (s : SimpleMRAM) (payload : Payload) : Option (SimpleMRAM × Payload) :=
  let addr := payload.address.toUInt32
  let len := payload.length
  if addr < s.mSize then
    match payload.command with
    | .write => (s.write_data addr (bytesOf payload.data len)).map fun s => (s, payload)
    | .read => (s.read_data addr payload.data len).map fun p => (p.1, { payload with data := p.2 })
    | .ignore | .other => none
  else none

/-- **Without an image** every access is answered and none has an effect. -/
theorem transport_unnamed {disk : Option (List UInt8)} {size : UInt32} {s' : SimpleMRAM}
    {payload payload' : Payload}
    (h : (create false disk size).transport payload = some (s', payload')) :
    s' = create false disk size ∧ payload' = payload := by
  have hfile : create false disk size = ⟨size, none⟩ := if_pos (Or.inl rfl)
  rw [hfile] at h ⊢
  unfold transport at h
  dsimp only at h
  split at h
  · split at h
    · obtain ⟨t, hw, h⟩ := Option.map_eq_some_iff.mp h
      cases h
      unfold write_data at hw
      dsimp only at hw
      split at hw
      · cases hw
        exact ⟨rfl, rfl⟩
      · cases hw
    · obtain ⟨p, hr, h⟩ := Option.map_eq_some_iff.mp h
      cases h
      unfold read_data at hr
      dsimp only at hr
      split at hr
      · cases hr
        exact ⟨rfl, rfl⟩
      · cases hr
    all_goals cases h
  · cases h

end SimpleMRAM

/-! ## Simulations on one file -/

/-- What happens at the MRAM. -/
inductive MramEvent where
  | boot (size : Nat)
  | write (addr : Nat) (bytes : List UInt8)
  | read (addr : Nat) (bytes : List UInt8)
  deriving DecidableEq, Repr

/-- The file under `mram-image`, the simulation that runs, and the history of all of them. -/
structure MramHost where
  disk : Option (List UInt8)
  running : Option (BasicOptions × SimpleMRAM)
  log : List MramEvent

inductive MramAct where
  | start (mem_start_addr mem_size mram_size : UInt32)
  | access (addr : UInt32) (payload : Payload)
  | stop

/-- What software sees of an access at `addr`. -/
def mramSeen (addr : Nat) (payload payload' : Payload) : MramEvent :=
  if payload.command = .write then .write addr (bytesOf payload.data payload.length)
  else .read addr (bytesOf payload'.data payload.length)

/-- `bus.ports[7]` -/
def mramPort (opt : BasicOptions) : PortMapping :=
  ⟨BasicOptions.mram_start_addr, opt.mram_end_addr⟩

theorem ports_seven (framebuffer : UInt32) (opt : BasicOptions) :
    BasicOptions.ports framebuffer opt 7 = mramPort opt := rfl

/-- An address in the port of the MRAM reaches it less the start address. -/
def MramHost.next (framebuffer : UInt32) (s : MramHost) : MramAct → Option MramHost
  | .start mem_start_addr mem_size mram_size =>
    if s.running.isNone then
      (BasicOptions.parse framebuffer mem_start_addr mem_size mram_size).map fun opt =>
        { s with
          running := some (opt, SimpleMRAM.create true s.disk opt.mram_size)
          log := s.log ++ [.boot opt.mram_size.toNat] }
    else none
  | .access addr payload =>
    s.running.bind fun r =>
      if (mramPort r.1).contains addr then
        let offset := addr - BasicOptions.mram_start_addr
        (r.2.transport { payload with address := offset.toUInt64 }).map fun p =>
          { s with
            running := some (r.1, p.1)
            log := s.log ++ [mramSeen offset.toNat payload p.2] }
      else none
  | .stop =>
    s.running.map fun r =>
      { s with disk := (r.2.file.map MramFile.bytes).or s.disk, running := none }

/-- One simulation after the other, with `disk` in the beginning. -/
def mramHost (framebuffer : UInt32) (disk : Option (List UInt8)) : Machine MramHost MramAct where
  init s := s = ⟨disk, none, []⟩
  next := MramHost.next framebuffer

/-- What an event makes of byte `a`. -/
def byteAt (a : Nat) : MramEvent → Option UInt8
  | .boot size => if 0 < size ∧ size ≤ a then some 0 else none
  | .write addr bytes => if addr ≤ a then bytes[a - addr]? else none
  | .read _ _ => none

/-- **What a history made of byte `a`** of the file. -/
def lastByte (disk : Option (List UInt8)) (log : List MramEvent) (a : Nat) : UInt8 :=
  (latest (byteAt a) log).getD ((disk.getD []).getD a 0)

/-- What is in the file, or in the stream to it. -/
def MramHost.image (s : MramHost) : List UInt8 :=
  ((s.running.bind fun r => r.2.file.map MramFile.bytes).or s.disk).getD []

/-! ## Bytes -/

theorem getD_truncate (bytes : List UInt8) (n a : Nat) :
    (truncate bytes n).getD a 0 = if a < n then bytes.getD a 0 else 0 := by
  unfold truncate
  simp only [List.getD_eq_getElem?_getD, List.getElem?_append, List.length_take,
    List.getElem?_take, List.getElem?_replicate]
  by_cases hn : a < n
  · by_cases hlen : a < bytes.length
    · simp [hn, hlen]
    · rw [if_neg (by omega), if_pos hn, List.getElem?_eq_none (by omega)]
      split <;> rfl
  · rw [if_neg (by omega), if_neg hn, if_neg (by omega)]
    rfl

theorem truncate_length (bytes : List UInt8) (n : Nat) : (truncate bytes n).length = n := by
  simp [truncate]
  omega

theorem getD_splice {xs bs : List UInt8} {off : Nat} (h : off + bs.length ≤ xs.length) (a : Nat) :
    (splice xs off bs).getD a 0 =
      ((if off ≤ a then bs[a - off]? else none).getD (xs.getD a 0)) := by
  rw [List.getD_eq_getElem?_getD, List.getD_eq_getElem?_getD, getElem?_splice h]
  by_cases hle : off ≤ a
  · by_cases hlt : a < off + bs.length
    · rw [if_pos ⟨hle, hlt⟩, if_pos hle, List.getElem?_eq_getElem (by omega)]
      rfl
    · rw [if_neg (by omega), if_pos hle, List.getElem?_eq_none (show bs.length ≤ a - off by omega)]
      rfl
  · rw [if_neg (by omega), if_neg hle]
    rfl

theorem lastByte_snoc (disk : Option (List UInt8)) (log : List MramEvent) (e : MramEvent) (a : Nat) :
    lastByte disk (log ++ [e]) a = (byteAt a e).getD (lastByte disk log a) := by
  unfold lastByte
  rw [latest_snoc]
  cases byteAt a e <;> rfl

/-! ## What the bus lets through -/

section Routed

variable {framebuffer mem_start_addr mem_size mram_size addr : UInt32} {opt : BasicOptions}

theorem parse_mram
    (h : BasicOptions.parse framebuffer mem_start_addr mem_size mram_size = some opt) :
    opt.mram_end_addr = BasicOptions.mram_start_addr + opt.mram_size - 1 ∧
      opt.mram_end_addr < BasicOptions.dma_start_addr := by
  unfold BasicOptions.parse at h
  dsimp only at h
  split at h
  · split at h
    · rename_i hmram
      cases h
      exact ⟨rfl, hmram⟩
    · cases h
  · cases h

/-- **The port of the MRAM is as large as the image**, which has at most 256 MiB then. -/
theorem mram_routed
    (h : BasicOptions.parse framebuffer mem_start_addr mem_size mram_size = some opt)
    (ha : (mramPort opt).contains addr) :
    (addr - BasicOptions.mram_start_addr).toNat < opt.mram_size.toNat ∧
      opt.mram_size.toNat ≤ 0x10000000 := by
  obtain ⟨hend, hlt⟩ := parse_mram h
  obtain ⟨hfrom, hto⟩ := BasicOptions.contains_iff.mp ha
  change (0x60000000 : UInt32).toNat ≤ addr.toNat at hfrom
  change addr.toNat ≤ opt.mram_end_addr.toNat at hto
  have hstart : BasicOptions.mram_start_addr.toNat = 0x60000000 := rfl
  have hlimit : opt.mram_end_addr.toNat < 0x70000000 := UInt32.lt_iff_toNat_lt.mp hlt
  have hsize := opt.mram_size.toNat_lt
  have hendN : opt.mram_end_addr.toNat = (0x60000000 + opt.mram_size.toNat + 0xffffffff) % 2 ^ 32 := by
    rw [hend, UInt32.toNat_sub, UInt32.toNat_add, hstart]
    show (2 ^ 32 - 1 + (0x60000000 + opt.mram_size.toNat) % 2 ^ 32) % 2 ^ 32 = _
    omega
  have hfrom' : 0x60000000 ≤ addr.toNat := hfrom
  rw [UInt32.toNat_sub, hstart]
  omega

end Routed

/-! ## Accesses -/

/-- The longest payload whose end is no address beyond the last one, from the first 256 MiB on. -/
def maxLength : Nat := 0xf0000000

/-- An MRAM with an image. -/
def SimpleMRAM.opened (mSize : UInt32) (bytes : List UInt8) : SimpleMRAM :=
  ⟨mSize, some ⟨bytes, true⟩⟩

section Open

variable {mSize offset : UInt32} {bytes : List UInt8} {n : Nat} {payload : Payload}

/-- The assertion on the end of an access. -/
theorem in_image_iff (mSize : UInt32) (hoff : offset.toNat < 0x10000000) (hn : n ≤ maxLength) :
    offset + UInt32.ofNat n ≤ mSize ↔ offset.toNat + n ≤ mSize.toNat := by
  have hlt : n < 2 ^ 32 := Nat.lt_of_le_of_lt hn (by decide)
  unfold maxLength at hn
  rw [UInt32.le_iff_toNat_le, UInt32.toNat_add, UInt32.toNat_ofNat_of_lt' hlt,
    Nat.mod_eq_of_lt (by omega)]

/-- What becomes of an access at `offset`. -/
def SimpleMRAM.served (mSize : UInt32) (bytes : List UInt8) (offset : UInt32) (payload : Payload) :
    Option (SimpleMRAM × Payload) :=
  let a := offset.toNat
  let len := payload.length
  let payload := { payload with address := offset.toUInt64 }
  match payload.command with
  | .write => some (opened mSize (splice bytes a (bytesOf payload.data len)), payload)
  | .read =>
    let got := slice bytes a (a + len)
    some (opened mSize bytes, { payload with data := bufferOf got payload.data })
  | .ignore | .other => none

/-- **An access to an image.** -/
theorem SimpleMRAM.transport_opened (hlen : bytes.length = mSize.toNat)
    (hoff : offset.toNat < mSize.toNat) (hsize : mSize.toNat ≤ 0x10000000)
    (hshort : payload.length ≤ maxLength) :
    (opened mSize bytes).transport { payload with address := offset.toUInt64 } =
      if offset.toNat + payload.length ≤ mSize.toNat then served mSize bytes offset payload
      else none := by
  have hin := in_image_iff mSize (show offset.toNat < 0x10000000 by omega) hshort
  have haddr : offset.toUInt64.toUInt32 = offset := UInt32.toUInt32_toUInt64 offset
  unfold transport served opened
  dsimp only
  rw [haddr, if_pos (UInt32.lt_iff_toNat_lt.mpr hoff)]
  by_cases hle : offset.toNat + payload.length ≤ mSize.toNat
  · rw [if_pos hle]
    have hgot : (slice bytes offset.toNat (offset.toNat + payload.length)).length =
        payload.length := by
      rw [slice_length (by omega)]
      omega
    cases payload.command with
    | write =>
      simp only [write_data, bytesOf_length, if_pos (hin.mpr hle)]
      rfl
    | read =>
      simp only [read_data, if_pos (hin.mpr hle), hgot]
      rfl
    | ignore | other => rfl
  · rw [if_neg hle]
    cases payload.command with
    | write =>
      simp only [write_data, bytesOf_length, if_neg (mt hin.mp hle)]
      rfl
    | read =>
      simp only [read_data, if_neg (mt hin.mp hle)]
      rfl
    | ignore | other => rfl

end Open

/-! ## The invariant -/

/-- What is known of the simulation that runs. -/
structure MramHost.Running (framebuffer : UInt32) (opt : BasicOptions) (m : SimpleMRAM) : Prop where
  accepted : ∃ mem_start_addr mem_size mram_size,
    BasicOptions.parse framebuffer mem_start_addr mem_size mram_size = some opt
  opened : opt.mram_size ≠ 0 → ∃ bytes, m = .opened opt.mram_size bytes ∧
    bytes.length = opt.mram_size.toNat

/-- The invariant of the file and of what is done with it. -/
structure MramHost.Inv (framebuffer : UInt32) (disk : Option (List UInt8)) (s : MramHost) :
    Prop where
  running : ∀ opt m, s.running = some (opt, m) → MramHost.Running framebuffer opt m
  image : ∀ a, s.image.getD a 0 = lastByte disk s.log a

/-- The bytes read are what the history made of them. -/
def ReadsLast (disk : Option (List UInt8)) (before : List MramEvent) (e : MramEvent) : Prop :=
  ∀ addr bytes, e = .read addr bytes →
    ∀ i < bytes.length, bytes.getD i 0 = lastByte disk before (addr + i)

namespace MramHost

variable {framebuffer : UInt32} {disk : Option (List UInt8)} {s s' : MramHost}

theorem Inv.start (hi : s.Inv framebuffer disk) {mem_start_addr mem_size mram_size : UInt32}
    {opt : BasicOptions} (hnone : s.running = none)
    (hparse : BasicOptions.parse framebuffer mem_start_addr mem_size mram_size = some opt) :
    MramHost.Inv framebuffer disk
      { s with
        running := some (opt, SimpleMRAM.create true s.disk opt.mram_size)
        log := s.log ++ [.boot opt.mram_size.toNat] } := by
  have himage : s.image = s.disk.getD [] := by
    unfold MramHost.image
    rw [hnone]
    rfl
  by_cases hzero : opt.mram_size = 0
  · have hcreate : SimpleMRAM.create true s.disk opt.mram_size = ⟨opt.mram_size, none⟩ :=
      if_pos (Or.inr hzero)
    refine ⟨?_, fun a => ?_⟩
    · rintro _ _ ⟨⟩
      exact ⟨⟨_, _, _, hparse⟩, fun hne => absurd hzero hne⟩
    · rw [lastByte_snoc, hcreate, hzero, ← hi.image, himage]
      rfl
  · have hcreate : SimpleMRAM.create true s.disk opt.mram_size =
        .opened opt.mram_size (truncate (s.disk.getD []) opt.mram_size.toNat) :=
      if_neg (by simp [hzero])
    have hpos : 0 < opt.mram_size.toNat :=
      Nat.pos_of_ne_zero fun h => hzero (UInt32.toNat_inj.mp h)
    refine ⟨?_, fun a => ?_⟩
    · rintro _ _ ⟨⟩
      exact ⟨⟨_, _, _, hparse⟩, fun _ => ⟨_, hcreate, truncate_length _ _⟩⟩
    · rw [lastByte_snoc, hcreate, ← hi.image, himage]
      show (truncate (s.disk.getD []) opt.mram_size.toNat).getD a 0 = _
      rw [getD_truncate]
      by_cases ha : a < opt.mram_size.toNat
      · rw [if_pos ha, byteAt, if_neg (by omega)]
        rfl
      · rw [if_neg ha, byteAt, if_pos ⟨hpos, by omega⟩]
        rfl

/-- The file is closed. -/
theorem Inv.stop (hi : s.Inv framebuffer disk) {r : BasicOptions × SimpleMRAM}
    (hr : s.running = some r) :
    MramHost.Inv framebuffer disk
      { s with disk := (r.2.file.map MramFile.bytes).or s.disk, running := none } := by
  refine ⟨fun _ _ h => (nomatch h), fun a => ?_⟩
  rw [← hi.image]
  unfold MramHost.image
  rw [hr]
  rfl

/-- A running simulation whose port has an address has an image open. -/
theorem Inv.opened (hi : s.Inv framebuffer disk) {opt : BasicOptions} {m : SimpleMRAM}
    (hr : s.running = some (opt, m)) (hpos : 0 < opt.mram_size.toNat) :
    ∃ bytes, m = .opened opt.mram_size bytes ∧ bytes.length = opt.mram_size.toNat ∧
      ∀ a, bytes.getD a 0 = lastByte disk s.log a := by
  obtain ⟨bytes, rfl, hlen⟩ := (hi.running opt m hr).opened fun hzero => by
    rw [hzero] at hpos
    exact Nat.not_lt_zero _ hpos
  refine ⟨bytes, rfl, hlen, fun a => ?_⟩
  rw [← hi.image]
  unfold MramHost.image
  rw [hr]
  rfl

/-- **An access to the image** keeps the invariant, and a read returns what was last written. -/
theorem Inv.access (hi : s.Inv framebuffer disk) {opt : BasicOptions} {m m' : SimpleMRAM}
    {offset : UInt32} {payload payload' : Payload} (hr : s.running = some (opt, m))
    (hoff : offset.toNat < opt.mram_size.toNat) (hsize : opt.mram_size.toNat ≤ 0x10000000)
    (hshort : payload.length ≤ maxLength)
    (htr : m.transport { payload with address := offset.toUInt64 } = some (m', payload')) :
    MramHost.Inv framebuffer disk
        { s with
          running := some (opt, m')
          log := s.log ++ [mramSeen offset.toNat payload payload'] } ∧
      ReadsLast disk s.log (mramSeen offset.toNat payload payload') := by
  have haccepted := (hi.running opt m hr).accepted
  obtain ⟨bytes, rfl, hlen, hbytes⟩ := hi.opened hr (Nat.zero_lt_of_lt hoff)
  rw [SimpleMRAM.transport_opened hlen hoff hsize hshort] at htr
  split at htr
  · rename_i hle
    unfold SimpleMRAM.served at htr
    unfold mramSeen
    cases hcmd : payload.command with
    | write =>
      rw [hcmd] at htr
      cases htr
      have hin : offset.toNat + (bytesOf payload.data payload.length).length ≤ bytes.length := by
        rw [bytesOf_length, hlen]
        exact hle
      refine ⟨⟨?_, fun a => ?_⟩, fun _ _ h => (nomatch h)⟩
      · rintro _ _ ⟨⟩
        exact ⟨haccepted, fun _ => ⟨_, rfl, (splice_length hin).trans hlen⟩⟩
      · rw [lastByte_snoc, ← hbytes]
        exact getD_splice hin a
    | read =>
      rw [hcmd] at htr
      cases htr
      have hgot : (slice bytes offset.toNat (offset.toNat + payload.length)).length =
          payload.length := by
        rw [slice_length (by omega)]
        omega
      have hdata := bytesOf_bufferOf (slice bytes offset.toNat (offset.toNat + payload.length))
        payload.data
      rw [hgot] at hdata
      rw [if_neg (by decide)]
      dsimp only
      rw [hdata]
      refine ⟨⟨?_, fun a => ?_⟩, ?_⟩
      · rintro _ _ ⟨⟩
        exact ⟨haccepted, fun _ => ⟨_, rfl, hlen⟩⟩
      · rw [lastByte_snoc]
        exact hbytes a
      · rintro _ _ ⟨⟩ i hlt
        rw [hgot] at hlt
        rw [← hbytes, List.getD_eq_getElem?_getD, getElem?_slice, if_pos (by omega),
          List.getD_eq_getElem?_getD]
    | ignore | other =>
      rw [hcmd] at htr
      cases htr
  · cases htr

end MramHost

/-- The payloads are not too long; those of the harts and of the DMA have at most 64 bytes. -/
def Short (_ : MramHost) : MramAct → Prop
  | .access _ payload => payload.length ≤ maxLength
  | .start _ _ _ | .stop => True

theorem mram_inv {framebuffer : UInt32} {disk : Option (List UInt8)} {s : MramHost}
    (h : (mramHost framebuffer disk).ReachBy Short s) :
    s.Inv framebuffer disk ∧ Every (ReadsLast disk) s.log := by
  induction h with
  | init h0 =>
    cases h0
    refine ⟨⟨fun _ _ h => (nomatch h), fun a => rfl⟩, every_nil⟩
  | @step s s' a _ hok hn ih =>
    obtain ⟨hi, hall⟩ := ih
    cases a with
    | start mem_start_addr mem_size mram_size =>
      simp only [mramHost, MramHost.next] at hn
      split at hn
      · rename_i hnone
        obtain ⟨opt, hparse, hn⟩ := Option.map_eq_some_iff.mp hn
        cases hn
        have hi' := hi.start (Option.isNone_iff_eq_none.mp hnone) hparse
        exact ⟨hi', every_snoc.mpr ⟨hall, fun _ _ h => (nomatch h)⟩⟩
      · cases hn
    | access addr payload =>
      obtain ⟨⟨opt, m⟩, hr, hn⟩ := Option.bind_eq_some_iff.mp hn
      split at hn
      · rename_i ha
        obtain ⟨⟨m', payload'⟩, htr, hn⟩ := Option.map_eq_some_iff.mp hn
        cases hn
        obtain ⟨_, _, _, hparse⟩ := (hi.running opt m hr).accepted
        obtain ⟨hoff, hsize⟩ := mram_routed hparse ha
        have hacc := hi.access hr hoff hsize hok htr
        exact ⟨hacc.1, every_snoc.mpr ⟨hall, hacc.2⟩⟩
      · cases hn
    | stop =>
      obtain ⟨r, hr, hn⟩ := Option.map_eq_some_iff.mp hn
      cases hn
      exact ⟨hi.stop hr, hall⟩

/-- Which accesses through the bus fail an assertion. -/
theorem MramHost.Inv.access_isSome {framebuffer : UInt32} {disk : Option (List UInt8)} {s : MramHost}
    (hi : s.Inv framebuffer disk) {opt : BasicOptions} {m : SimpleMRAM} {addr : UInt32}
    {payload : Payload} (hr : s.running = some (opt, m))
    (ha : (mramPort opt).contains addr)
    (hshort : payload.length ≤ maxLength) :
    (s.next framebuffer (.access addr payload)).isSome ↔
      (payload.command = .read ∨ payload.command = .write) ∧
        (addr - BasicOptions.mram_start_addr).toNat + payload.length ≤ opt.mram_size.toNat := by
  obtain ⟨_, _, _, hparse⟩ := (hi.running opt m hr).accepted
  obtain ⟨hoff, hsize⟩ := mram_routed hparse ha
  obtain ⟨bytes, rfl, hlen, -⟩ := hi.opened hr (Nat.zero_lt_of_lt hoff)
  simp only [MramHost.next, hr, Option.bind_some, if_pos ha, Option.isSome_map]
  rw [SimpleMRAM.transport_opened hlen hoff hsize hshort]
  by_cases hle : (addr - BasicOptions.mram_start_addr).toNat + payload.length ≤ opt.mram_size.toNat
  · rw [if_pos hle]
    unfold SimpleMRAM.served
    cases payload.command <;> simp [hle]
  · rw [if_neg hle]
    simp [hle]

/-- 1, 2 and 3 are written at the end of an image; the image is cut by a byte and extended again. -/
def cutByOne : List MramAct :=
  [.start 0 0x2000000 19, .access 0x60000010 ⟨.write, 0, bufferOf [1, 2, 3] fun _ => 0, 3, .incomplete⟩,
    .stop, .start 0 0x2000000 18, .stop, .start 0 0x2000000 19,
    .access 0x60000010 ⟨.read, 0, fun _ => 7, 3, .incomplete⟩, .stop]

instance (s : MramHost) : ∀ a, Decidable (Short s a)
  | .access _ payload => inferInstanceAs (Decidable (payload.length ≤ maxLength))
  | .start _ _ _ | .stop => inferInstanceAs (Decidable True)

end SortPlatform.Vp

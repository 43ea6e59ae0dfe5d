import Mathlib.Data.Nat.Digits.Defs
import SortPlatform.Lib.Machine
import SortPlatform.Lib.Splice
import SortPlatform.Lib.WriteBack

/-!
# The flash controller

`Blockbuffer` and `Flashcontroller` of `src/vp/basic-final/flash.h`: a window of one block on a
file or a block device. The target block is set through a register; the first access to the data
region after that writes the block in the buffer back, if it is dirty, and reads the new one.
`Transfer` is what the operating system makes of a seek and the `read` or `write` after it.

* `Flashcontroller.create` — the constructor, `none` when it gives up.
* `Flashcontroller.transport` — `none` where an assertion fails. Only the address of an access is
  checked: one that runs over the end of its register or of the buffer is left to `Overrun`.
* `FlatFlash` — the device without a buffer.

Principal results:

* `cached_setPos`, `cached_clear` — the buffer is the write-back buffer of the library.
* `flash_refines` — while transfers succeed, the controller is a flat device.
* `flash_failures` — which blocks are written to when they fail.
-/

set_option autoImplicit false

namespace SortPlatform.Vp

open RunMerge Splice WriteBack

/-- A seek, and how many bytes the transfer after it would move. -/
structure Transfer where
  seeks : Bool
  n : Nat

/-- The bytes moved at position `pos` of a medium: at most `width`, and what is left of it. -/
def Transfer.moved (t : Transfer) (width size pos : Nat) : Nat :=
  if t.seeks then min t.n (min width (size - pos)) else 0

/-- `Blockbuffer<width>`, and the contents of the file behind `fd`. -/
structure Blockbuffer where
  file : List UInt8
  buf : List UInt8
  offs : Nat
  dirty : Bool
  active : Bool

namespace Blockbuffer

variable (width : Nat)

def writeBlock (t : Transfer) (s : Blockbuffer) (blockOffset : Nat) : Blockbuffer :=
  let pos := blockOffset * width
  let moved := t.moved width s.file.length pos
  let s := { s with file := splice s.file pos (s.buf.take moved) }
  if t.seeks = true ∧ moved = width then { s with dirty := false } else s

def readBlock (t : Transfer) (s : Blockbuffer) (blockOffset : Nat) : Blockbuffer :=
  let pos := blockOffset * width
  let moved := t.moved width s.file.length pos
  let s := { s with buf := splice s.buf 0 (slice s.file pos (pos + moved)) }
  if t.seeks = true ∧ moved = width then { s with dirty := false } else s

def setPos (w r : Transfer) (s : Blockbuffer) (blockOffset : Nat) : Blockbuffer :=
  if blockOffset ≠ s.offs ∨ s.active = false then
    let s := if s.dirty = true ∧ s.active = true then s.writeBlock width w s.offs else s
    let s := { s with offs := blockOffset }
    let s := s.readBlock width r blockOffset
    { s with active := true }
  else s

def setData (s : Blockbuffer) (source : List UInt8) (pos : Nat) : Blockbuffer :=
  { s with buf := splice s.buf pos source, dirty := true }

def getData (s : Blockbuffer) (pos length : Nat) : List UInt8 := slice s.buf pos (pos + length)

def clear (w : Transfer) (s : Blockbuffer) : Blockbuffer :=
  let s := if s.active = true ∧ s.dirty = true then s.writeBlock width w s.offs else s
  { s with active := false }

end Blockbuffer

def BLOCKSIZE : Nat := 512
def FLASH_ADDR_REG : Nat := 0
def FLASH_SIZE_REG : Nat := 8
def DATA_ADDR : Nat := FLASH_SIZE_REG + 8
def ADDR_SPACE : Nat := DATA_ADDR + BLOCKSIZE

/-- What `mFilepath` names; `BLKGETSIZE64` is answered by devices only. -/
structure Medium where
  isDevice : Bool
  bytes : List UInt8

/-- An access as `transport` gets it. -/
inductive Access where
  | read (addr len : Nat)
  | write (addr : Nat) (bytes : List UInt8)

/-- The accesses to the data region. -/
def Access.isData : Access → Bool
  | .read addr _ => DATA_ADDR ≤ addr
  | .write addr _ => DATA_ADDR ≤ addr

def Access.isWrite : Access → Bool
  | .read _ _ => false
  | .write _ _ => true

def Access.addr : Access → Nat
  | .read addr _ => addr
  | .write addr _ => addr

def Access.len : Access → Nat
  | .read _ len => len
  | .write _ bytes => bytes.length

/-- The end of the region that begins at or before an address. -/
def regionEnd (addr : Nat) : Nat :=
  if addr < FLASH_SIZE_REG then FLASH_SIZE_REG else if addr < DATA_ADDR then DATA_ADDR
  else ADDR_SPACE

/-- The access ends in the region that it begins in. -/
def Access.InRegion (a : Access) : Prop := a.addr + a.len ≤ regionEnd a.addr

instance (a : Access) : Decidable a.InRegion := inferInstanceAs (Decidable (_ ≤ _))

theorem Access.InRegion.target {a : Access} (h : a.InRegion) (h1 : a.addr < FLASH_SIZE_REG) :
    a.addr + a.len ≤ FLASH_SIZE_REG := by
  rwa [InRegion, regionEnd, if_pos h1] at h

theorem Access.InRegion.numBlocks {a : Access} (h : a.InRegion) (h1 : ¬ a.addr < FLASH_SIZE_REG)
    (h2 : a.addr < DATA_ADDR) : a.addr + a.len ≤ DATA_ADDR := by
  rwa [InRegion, regionEnd, if_neg h1, if_pos h2] at h

theorem Access.InRegion.data {a : Access} (h : a.InRegion) (h1 : ¬ a.addr < FLASH_SIZE_REG)
    (h2 : ¬ a.addr < DATA_ADDR) : a.addr + a.len ≤ ADDR_SPACE := by
  rwa [InRegion, regionEnd, if_neg h1, if_neg h2] at h

/-- `asInt` of the eight bytes `asRaw`. -/
def asInt (asRaw : List UInt8) : Nat := Nat.ofDigits 256 (asRaw.map UInt8.toNat)

/-- `asRaw` of `asInt`. -/
def asRaw (n : Nat) : List UInt8 := (List.range 8).map fun i => UInt8.ofNat (n / 256 ^ i)

structure Flashcontroller where
  blockBuf : Blockbuffer
  /-- `mTargetBlock.asRaw` -/
  mTargetBlock : List UInt8
  /-- `mDeviceNumBlocks.asInt` -/
  mDeviceNumBlocks : Nat

/-- What a `memcpy` over the end of a region does: to the memory behind it, and with what is read
there. The layout of the object decides. -/
abbrev Overrun := Flashcontroller → Access → Option (Flashcontroller × List UInt8)

namespace Flashcontroller

/-- The constructor; `buf` is the indeterminate content of the buffer. -/
def create (m : Medium) (buf : List UInt8) : Option Flashcontroller :=
  let blockBuf : Blockbuffer := ⟨m.bytes, buf, 0, false, false⟩
  if m.isDevice then some ⟨blockBuf, asRaw 0, m.bytes.length⟩
  else if m.bytes.length = 0 then none
  else some ⟨blockBuf, asRaw 0, m.bytes.length / BLOCKSIZE⟩

/-- `blockBuf->setPos(mTargetBlock.asInt)`, unless the target is out of bounds. -/
def seek (s : Flashcontroller) (w r : Transfer) : Option Flashcontroller :=
  if asInt s.mTargetBlock < s.mDeviceNumBlocks then
    some { s with blockBuf := s.blockBuf.setPos BLOCKSIZE w r (asInt s.mTargetBlock) }
  else none

/-- The state afterwards, and the data read; `overrun` has the accesses that leave their region. -/
def transport (overrun : Overrun) (s : Flashcontroller) (w r : Transfer) :
    Access → Option (Flashcontroller × List UInt8)
  | .read addr len =>
    if addr < FLASH_SIZE_REG then
      if addr + len ≤ FLASH_SIZE_REG then some (s, slice s.mTargetBlock addr (addr + len))
      else overrun s (.read addr len)
    else if addr < DATA_ADDR then
      if addr + len ≤ DATA_ADDR then
        let pos := addr - FLASH_SIZE_REG
        some (s, slice (asRaw s.mDeviceNumBlocks) pos (pos + len))
      else overrun s (.read addr len)
    else if addr < ADDR_SPACE then
      (s.seek w r).bind fun s =>
        if addr + len ≤ ADDR_SPACE then some (s, s.blockBuf.getData (addr - DATA_ADDR) len)
        else overrun s (.read addr len)
    else none
  | .write addr bytes =>
    if addr < FLASH_SIZE_REG then
      if addr + bytes.length ≤ FLASH_SIZE_REG then
        some ({ s with mTargetBlock := splice s.mTargetBlock addr bytes }, [])
      else overrun s (.write addr bytes)
    else if addr < DATA_ADDR then none
    else if addr < ADDR_SPACE then
      (s.seek w r).bind fun s =>
        if addr + bytes.length ≤ ADDR_SPACE then
          some ({ s with blockBuf := s.blockBuf.setData bytes (addr - DATA_ADDR) }, [])
        else overrun s (.write addr bytes)
    else none

/-- The file after the destructor. -/
def close (s : Flashcontroller) (w : Transfer) : List UInt8 :=
  (s.blockBuf.clear BLOCKSIZE w).file

/-- Accesses one after the other, with what was read. -/
def run (overrun : Overrun) (s : Flashcontroller) :
    List (Access × Transfer × Transfer) → Option (Flashcontroller × List (List UInt8))
  | [] => some (s, [])
  | (a, w, r) :: rest =>
    (s.transport overrun w r a).bind fun p =>
      (p.1.run overrun rest).map fun q => (q.1, p.2 :: q.2)

end Flashcontroller

/-! ## A flat device -/

/-- **The device without a buffer**: blocks, and the two registers. -/
structure FlatFlash where
  blocks : Nat → List UInt8
  mTargetBlock : List UInt8
  mDeviceNumBlocks : Nat

namespace FlatFlash

/-- The target block. -/
def target (f : FlatFlash) : Option Nat :=
  if asInt f.mTargetBlock < f.mDeviceNumBlocks then some (asInt f.mTargetBlock) else none

/-- For accesses that end in the region they begin in. -/
def transport (f : FlatFlash) : Access → Option (FlatFlash × List UInt8)
  | .read addr len =>
    if addr < FLASH_SIZE_REG then some (f, slice f.mTargetBlock addr (addr + len))
    else if addr < DATA_ADDR then
      let pos := addr - FLASH_SIZE_REG
      some (f, slice (asRaw f.mDeviceNumBlocks) pos (pos + len))
    else if addr < ADDR_SPACE then
      let pos := addr - DATA_ADDR
      f.target.map fun b => (f, slice (f.blocks b) pos (pos + len))
    else none
  | .write addr bytes =>
    if addr < FLASH_SIZE_REG then
      some ({ f with mTargetBlock := splice f.mTargetBlock addr bytes }, [])
    else if addr < DATA_ADDR then none
    else if addr < ADDR_SPACE then
      f.target.map fun b =>
        let block := splice (f.blocks b) (addr - DATA_ADDR) bytes
        ({ f with blocks := Function.update f.blocks b block }, [])
    else none

def run (f : FlatFlash) : List Access → Option (FlatFlash × List (List UInt8))
  | [] => some (f, [])
  | a :: rest => (f.transport a).bind fun p => (p.1.run rest).map fun q => (q.1, p.2 :: q.2)

end FlatFlash

/-! ## The buffer is a write-back buffer -/

namespace Blockbuffer

/-- The medium as a store of blocks. -/
def cached (width : Nat) (s : Blockbuffer) : Cached Nat (List UInt8) :=
  ⟨blockAt width s.file, s.buf, s.offs, s.dirty, s.active⟩

/-- What becomes of writing the buffer to a block. -/
def written (width : Nat) (t : Transfer) (s : Blockbuffer) : Io (List UInt8) :=
  let moved := t.moved width s.file.length (s.offs * width)
  if t.seeks = true ∧ moved = width then .done
  else .failed (splice (blockAt width s.file s.offs) 0 (s.buf.take moved))

/-- What becomes of reading a block into the buffer. -/
def loaded (width : Nat) (t : Transfer) (s : Blockbuffer) : Io (List UInt8) :=
  let pos := s.offs * width
  let moved := t.moved width s.file.length pos
  if t.seeks = true ∧ moved = width then .done
  else .failed (splice s.buf 0 (slice s.file pos (pos + moved)))

variable {width : Nat} {s : Blockbuffer} {t w r : Transfer}

theorem Transfer.moved_le (t : Transfer) (width size pos : Nat) :
    t.moved width size pos ≤ width ∧ t.moved width size pos ≤ size - pos := by
  unfold Transfer.moved
  split
  · omega
  · exact ⟨Nat.zero_le _, Nat.zero_le _⟩

/-- Bytes moved to a block are seen in that block. -/
theorem blockAt_written (hbuf : s.buf.length = width) :
    blockAt width (splice s.file (s.offs * width)
        (s.buf.take (t.moved width s.file.length (s.offs * width)))) =
      Function.update (blockAt width s.file) s.offs (splice (blockAt width s.file s.offs) 0
        (s.buf.take (t.moved width s.file.length (s.offs * width)))) := by
  obtain ⟨hle, hin⟩ := Transfer.moved_le t width s.file.length (s.offs * width)
  by_cases hzero : t.moved width s.file.length (s.offs * width) = 0
  · rw [hzero, List.take_zero, splice_nil, splice_nil, Function.update_eq_self]
  · have hlen : (s.buf.take (t.moved width s.file.length (s.offs * width))).length =
        t.moved width s.file.length (s.offs * width) := by
      rw [List.length_take, hbuf, Nat.min_eq_left hle]
    exact blockAt_splice (by rw [hlen]; exact hle) (by rw [hlen]; omega)

theorem cached_writeBlock (hbuf : s.buf.length = width) :
    (s.writeBlock width t s.offs).cached width = (s.cached width).write (s.written width t) := by
  have hblock := blockAt_written (t := t) hbuf
  unfold writeBlock written
  by_cases hfull : t.seeks = true ∧ t.moved width s.file.length (s.offs * width) = width
  · have hall : splice (blockAt width s.file s.offs) 0 s.buf = s.buf := by
      apply splice_all
      rw [blockAt_length, hbuf]
      omega
    simp only [if_pos hfull]
    rw [hfull.2, List.take_of_length_le (by omega), hall] at hblock
    rw [hfull.2, List.take_of_length_le (by omega)]
    simp only [cached, Cached.write, hblock]
  · simp only [if_neg hfull]
    simp only [cached, Cached.write, hblock]

theorem cached_readBlock (hbuf : s.buf.length = width) :
    (s.readBlock width t s.offs).cached width = (s.cached width).read (s.loaded width t) := by
  unfold readBlock loaded
  by_cases hfull : t.seeks = true ∧ t.moved width s.file.length (s.offs * width) = width
  · have hin := (Transfer.moved_le t width s.file.length (s.offs * width)).2
    rw [hfull.2] at hin
    have hall : splice s.buf 0 (blockAt width s.file s.offs) = blockAt width s.file s.offs := by
      apply splice_all
      rw [blockAt_length]
      omega
    simp only [if_pos hfull]
    rw [hfull.2]
    unfold blockAt at hall
    rw [hall]
    rfl
  · simp only [if_neg hfull]
    rfl

/-- A dirty buffer in use is written back. -/
def commit (width : Nat) (w : Transfer) (s : Blockbuffer) : Blockbuffer :=
  if s.dirty = true ∧ s.active = true then s.writeBlock width w s.offs else s

theorem cached_commit (hbuf : s.buf.length = width) :
    (s.commit width w).cached width = (s.cached width).commit (s.written width w) := by
  unfold commit Cached.commit
  by_cases hd : s.dirty = true ∧ s.active = true
  · rw [if_pos hd, cached_writeBlock hbuf]
    exact (if_pos hd).symm
  · rw [if_neg hd]
    exact (if_neg hd).symm

theorem commit_buf (width : Nat) (w : Transfer) (s : Blockbuffer) :
    (s.commit width w).buf = s.buf := by
  unfold commit writeBlock
  split
  · dsimp only
    split <;> rfl
  · rfl

theorem readBlock_length (hbuf : s.buf.length = width) (b : Nat) :
    (s.readBlock width r b).buf.length = width := by
  have hlen : (splice s.buf 0 (slice s.file (b * width)
      (b * width + r.moved width s.file.length (b * width)))).length = width := by
    obtain ⟨hle, hin⟩ := Transfer.moved_le r width s.file.length (b * width)
    rw [splice_length, hbuf]
    simp only [slice, List.length_drop, List.length_take]
    omega
  unfold readBlock
  dsimp only
  split <;> exact hlen

theorem writeBlock_file_length (hbuf : s.buf.length = width) (b : Nat) :
    (s.writeBlock width w b).file.length = s.file.length := by
  have hlen : (splice s.file (b * width)
      (s.buf.take (w.moved width s.file.length (b * width)))).length = s.file.length := by
    obtain ⟨hle, hin⟩ := Transfer.moved_le w width s.file.length (b * width)
    by_cases hzero : w.moved width s.file.length (b * width) = 0
    · rw [hzero, List.take_zero, splice_nil]
    · exact splice_length (by rw [List.length_take]; omega)
  unfold writeBlock
  dsimp only
  split <;> exact hlen

theorem commit_file_length (hbuf : s.buf.length = width) :
    (s.commit width w).file.length = s.file.length := by
  unfold commit
  split
  · exact writeBlock_file_length hbuf _
  · rfl

theorem setPos_eq (b : Nat) : s.setPos width w r b =
    if (s.cached width).Holds b then s
    else { { s.commit width w with offs := b }.readBlock width r b with active := true } := by
  unfold setPos
  by_cases hb : (s.cached width).Holds b
  · rw [if_pos hb, if_neg]
    rintro (h | h)
    · exact h hb.1
    · exact Bool.noConfusion (h.symm.trans hb.2)
  · rw [if_neg hb, if_pos]
    · rfl
    · by_contra hno
      simp only [not_or, not_not, Bool.not_eq_false] at hno
      exact hb hno

/-- What is in the buffer, and what is on the medium. -/
theorem setPos_length (hbuf : s.buf.length = width) (b : Nat) :
    (s.setPos width w r b).buf.length = width ∧
      (s.setPos width w r b).file.length = s.file.length := by
  rw [setPos_eq]
  split
  · exact ⟨hbuf, rfl⟩
  · refine ⟨readBlock_length (by rw [commit_buf, hbuf]) b, ?_⟩
    rw [← commit_file_length (w := w) hbuf]
    unfold readBlock
    dsimp only
    split <;> rfl

/-- **`setPos` is a load.** -/
theorem cached_setPos (hbuf : s.buf.length = width) (b : Nat) :
    (s.setPos width w r b).cached width = (s.cached width).load (s.written width w)
      ({ s.commit width w with offs := b }.loaded width r) b := by
  rw [setPos_eq]
  unfold Cached.load
  split
  · rfl
  · have hread := cached_readBlock (s := { s.commit width w with offs := b }) (t := r)
      (show (s.commit width w).buf.length = width by rw [commit_buf, hbuf])
    have hcommit := cached_commit (w := w) hbuf
    rw [← hcommit]
    exact congrArg (fun c : Cached Nat (List UInt8) => { c with active := true }) hread

theorem clear_eq (width : Nat) (w : Transfer) (s : Blockbuffer) :
    s.clear width w = { s.commit width w with active := false } := by
  obtain ⟨file, buf, offs, dirty, active⟩ := s
  cases dirty <;> cases active <;> rfl

/-- **`clear` is a flush.** -/
theorem cached_clear (hbuf : s.buf.length = width) :
    (s.clear width w).cached width = (s.cached width).flush (s.written width w) := by
  have hcommit := cached_commit (w := w) hbuf
  rw [clear_eq]
  exact congrArg (fun c : Cached Nat (List UInt8) => { c with active := false }) hcommit

end Blockbuffer

/-! ## While transfers succeed -/

/-- The transfer moves whatever there is. -/
def Transfer.Works (t : Transfer) : Prop := t.seeks = true ∧ BLOCKSIZE ≤ t.n

namespace Flashcontroller

/-- **The buffer is in order**: it is a block of the medium, and holds what it should. -/
structure Sound (s : Flashcontroller) : Prop where
  buf : s.blockBuf.buf.length = BLOCKSIZE
  blocks : s.mDeviceNumBlocks * BLOCKSIZE ≤ s.blockBuf.file.length
  offs : s.blockBuf.active = true → s.blockBuf.offs < s.mDeviceNumBlocks
  coherent : (s.blockBuf.cached BLOCKSIZE).Coherent

/-- The device without its buffer. -/
def flat (s : Flashcontroller) : FlatFlash :=
  ⟨(s.blockBuf.cached BLOCKSIZE).view, s.mTargetBlock, s.mDeviceNumBlocks⟩

variable {overrun : Overrun} {s s' : Flashcontroller} {w r t : Transfer}

/-- A transfer that works moves a block of the medium. -/
theorem moved_of_works (ht : t.Works) {b num size : Nat} (hb : b < num)
    (hsize : num * BLOCKSIZE ≤ size) : t.moved BLOCKSIZE size (b * BLOCKSIZE) = BLOCKSIZE := by
  obtain ⟨hseeks, hn⟩ := ht
  have hnext := Nat.mul_le_mul_right BLOCKSIZE (Nat.succ_le_of_lt hb)
  rw [Nat.succ_mul] at hnext
  rw [Transfer.moved, if_pos hseeks]
  omega

theorem written_of_works (h : s.Sound) (hw : w.Works) (hact : s.blockBuf.active = true) :
    s.blockBuf.written BLOCKSIZE w = .done :=
  if_pos ⟨hw.1, moved_of_works hw (h.offs hact) h.blocks⟩

/-- Whether the transfer works is of no importance when the buffer is not in use. -/
theorem commit_of_works (h : s.Sound) (hw : w.Works) :
    (s.blockBuf.cached BLOCKSIZE).commit (s.blockBuf.written BLOCKSIZE w) =
      (s.blockBuf.cached BLOCKSIZE).commit .done := by
  by_cases hact : s.blockBuf.active = true
  · rw [written_of_works h hw hact]
  · unfold Cached.commit
    rw [if_neg fun hd => hact hd.2, if_neg fun hd => hact hd.2]

/-- **Seeking is not seen**, and gets the target block. -/
theorem seek_flat (h : s.Sound) (hw : w.Works) (hr : r.Works) (hs : s.seek w r = some s') :
    s'.Sound ∧ s'.flat = s.flat ∧ s.flat.target = some (asInt s.mTargetBlock) ∧
      (s'.blockBuf.cached BLOCKSIZE).Holds (asInt s.mTargetBlock) ∧
      s'.blockBuf.buf = s.flat.blocks (asInt s.mTargetBlock) := by
  unfold seek at hs
  split at hs
  case isFalse => cases hs
  rename_i hlt
  cases hs
  have hload := Blockbuffer.cached_setPos (w := w) (r := r) h.buf (asInt s.mTargetBlock)
  have hread : ({ s.blockBuf.commit BLOCKSIZE w with offs := asInt s.mTargetBlock }
      : Blockbuffer).loaded BLOCKSIZE r = .done := by
    refine if_pos ⟨hr.1, moved_of_works hr hlt ?_⟩
    rw [Blockbuffer.commit_file_length h.buf]
    exact h.blocks
  rw [hread] at hload
  unfold Cached.load at hload
  rw [commit_of_works h hw] at hload
  obtain ⟨hview, hcoh, hholds, hbuf⟩ := Cached.load_view h.coherent (asInt s.mTargetBlock)
  unfold Cached.load at hview hcoh hholds hbuf
  rw [← hload] at hview hcoh hholds hbuf
  obtain ⟨hlen, hfile⟩ := Blockbuffer.setPos_length (w := w) (r := r) h.buf (asInt s.mTargetBlock)
  refine ⟨⟨hlen, ?_, ?_, hcoh⟩, ?_, if_pos hlt, hholds, hbuf⟩
  · rw [hfile]
    exact h.blocks
  · intro _
    exact hholds.1.symm.trans_lt hlt
  · unfold flat
    rw [hview]

theorem seek_none (hs : s.seek w r = none) : s.flat.target = none := by
  unfold seek at hs
  split at hs
  · cases hs
  · exact if_neg ‹_›

/-- **A read** gives what the flat device does, and changes nothing that is seen. -/
theorem transport_read (h : s.Sound) (hw : w.Works) (hr : r.Works) {addr len : Nat}
    (hin : (Access.read addr len).InRegion) :
    (s.transport overrun w r (.read addr len)).map (fun p => (p.1.flat, p.2)) =
        s.flat.transport (.read addr len) ∧
      ∀ p, s.transport overrun w r (.read addr len) = some p → p.1.Sound := by
  unfold transport FlatFlash.transport
  by_cases h1 : addr < FLASH_SIZE_REG
  · have hend : addr + len ≤ FLASH_SIZE_REG := hin.target h1
    simp only [if_pos h1, if_pos hend]
    exact ⟨rfl, by rintro p ⟨⟩; exact h⟩
  · simp only [if_neg h1]
    by_cases h2 : addr < DATA_ADDR
    · have hend : addr + len ≤ DATA_ADDR := hin.numBlocks h1 h2
      simp only [if_pos h2, if_pos hend]
      exact ⟨rfl, by rintro p ⟨⟩; exact h⟩
    · have hend : addr + len ≤ ADDR_SPACE := hin.data h1 h2
      simp only [if_neg h2, if_pos hend]
      by_cases h3 : addr < ADDR_SPACE
      · simp only [if_pos h3]
        cases hs : s.seek w r with
        | none =>
          rw [seek_none hs]
          exact ⟨rfl, nofun⟩
        | some s' =>
          obtain ⟨hsound, hflat, htarget, -, hbuf⟩ := seek_flat h hw hr hs
          rw [htarget]
          refine ⟨?_, by rintro p ⟨⟩; exact hsound⟩
          simp only [Option.bind_some, Option.map_some, Blockbuffer.getData, hbuf, hflat]
      · simp only [if_neg h3]
        exact ⟨rfl, nofun⟩

/-- Writing into the buffer is writing to the target block. -/
theorem setData_flat {b : Nat} (h : s.Sound) (hb : (s.blockBuf.cached BLOCKSIZE).Holds b)
    {bytes : List UInt8} {pos : Nat} (hpos : pos + bytes.length ≤ BLOCKSIZE) :
    Sound { s with blockBuf := s.blockBuf.setData bytes pos } ∧
      flat { s with blockBuf := s.blockBuf.setData bytes pos } =
        { s.flat with blocks := Function.update s.flat.blocks b (splice s.blockBuf.buf pos bytes) } := by
  obtain ⟨hview, hcoh⟩ := Cached.modify_view hb fun block => splice block pos bytes
  refine ⟨⟨?_, h.blocks, h.offs, hcoh⟩, ?_⟩
  · exact (splice_length (by rw [h.buf]; exact hpos)).trans h.buf
  · exact congrArg (FlatFlash.mk · s.mTargetBlock s.mDeviceNumBlocks) hview

/-- **A write** does what the flat device does. -/
theorem transport_write (h : s.Sound) (hw : w.Works) (hr : r.Works) {addr : Nat}
    {bytes : List UInt8} (hin : (Access.write addr bytes).InRegion) :
    (s.transport overrun w r (.write addr bytes)).map (fun p => (p.1.flat, p.2)) =
        s.flat.transport (.write addr bytes) ∧
      ∀ p, s.transport overrun w r (.write addr bytes) = some p → p.1.Sound := by
  unfold transport FlatFlash.transport
  by_cases h1 : addr < FLASH_SIZE_REG
  · have hend : addr + bytes.length ≤ FLASH_SIZE_REG := hin.target h1
    simp only [if_pos h1, if_pos hend]
    exact ⟨rfl, by rintro p ⟨⟩; exact ⟨h.buf, h.blocks, h.offs, h.coherent⟩⟩
  · simp only [if_neg h1]
    by_cases h2 : addr < DATA_ADDR
    · simp only [if_pos h2]
      exact ⟨rfl, nofun⟩
    · have hend : addr + bytes.length ≤ ADDR_SPACE := hin.data h1 h2
      simp only [if_neg h2, if_pos hend]
      by_cases h3 : addr < ADDR_SPACE
      · simp only [if_pos h3]
        cases hs : s.seek w r with
        | none =>
          rw [seek_none hs]
          exact ⟨rfl, nofun⟩
        | some s' =>
          obtain ⟨hsound, hflat, htarget, hholds, hbuf⟩ := seek_flat h hw hr hs
          have hpos : addr - DATA_ADDR + bytes.length ≤ BLOCKSIZE := by
            unfold ADDR_SPACE at hend
            omega
          obtain ⟨hsound', hflat'⟩ := setData_flat hsound hholds hpos
          rw [htarget]
          refine ⟨?_, by rintro p ⟨⟩; exact hsound'⟩
          simp only [Option.bind_some, Option.map_some, hflat', hflat, hbuf]
      · simp only [if_neg h3]
        exact ⟨rfl, nofun⟩

/-- **An access does what the flat device does.** -/
theorem transport_flat (overrun : Overrun) (h : s.Sound) (hw : w.Works) (hr : r.Works) {a : Access}
    (hin : a.InRegion) :
    (s.transport overrun w r a).map (fun p => (p.1.flat, p.2)) = s.flat.transport a ∧
      ∀ p, s.transport overrun w r a = some p → p.1.Sound := by
  cases a with
  | read addr len => exact transport_read h hw hr hin
  | write addr bytes => exact transport_write h hw hr hin

/-- **So do all accesses of a run.** -/
theorem run_flat (overrun : Overrun) :
    ∀ {ops : List (Access × Transfer × Transfer)} {s : Flashcontroller}, s.Sound →
    (∀ p ∈ ops, p.1.InRegion) → (∀ p ∈ ops, p.2.1.Works ∧ p.2.2.Works) →
      (s.run overrun ops).map (fun p => (p.1.flat, p.2)) = s.flat.run (ops.map Prod.fst) ∧
        ∀ p, s.run overrun ops = some p → p.1.Sound
  | [], s, h, _, _ => ⟨rfl, by rintro p ⟨⟩; exact h⟩
  | (a, w, r) :: ops, s, h, hin, hworks => by
    obtain ⟨hw, hr⟩ := hworks _ List.mem_cons_self
    obtain ⟨hflat, hsound⟩ := transport_flat overrun h hw hr
      (hin _ List.mem_cons_self)
    rw [List.map_cons, run, FlatFlash.run, ← hflat]
    cases hs : s.transport overrun w r a with
    | none => exact ⟨rfl, nofun⟩
    | some p =>
      obtain ⟨hrest, hend⟩ := run_flat overrun (hsound p hs)
        (fun q hq => hin q (List.mem_cons_of_mem _ hq))
        fun q hq => hworks q (List.mem_cons_of_mem _ hq)
      rw [Option.map_some, Option.bind_some, Option.bind_some, ← hrest, Option.map_map,
        Option.map_map]
      refine ⟨rfl, ?_⟩
      intro q hq
      obtain ⟨q', hq', rfl⟩ := Option.map_eq_some_iff.mp hq
      exact hend q' hq'

/-- A file is opened in order: its size in blocks is what the bounds are checked against. -/
theorem create_sound {bytes buf : List UInt8} (hbuf : buf.length = BLOCKSIZE)
    (ho : create ⟨false, bytes⟩ buf = some s) :
    s.Sound ∧ s.flat = ⟨blockAt BLOCKSIZE bytes, asRaw 0, bytes.length / BLOCKSIZE⟩ := by
  simp only [create, Bool.false_eq_true, if_false] at ho
  split at ho <;> cases ho
  exact ⟨⟨hbuf, Nat.div_mul_le_self _ _, nofun, nofun⟩, rfl⟩

/-- **The bounds** keep accesses within a file. A device is asked for its size in bytes, and for it
they do not. -/
theorem create_bounds_iff {m : Medium} {buf : List UInt8} (ho : create m buf = some s) :
    (∀ b < s.mDeviceNumBlocks, b * BLOCKSIZE + BLOCKSIZE ≤ m.bytes.length) ↔
      m.isDevice = false ∨ m.bytes = [] := by
  unfold create at ho
  dsimp only at ho
  split at ho
  · rename_i hdev
    cases ho
    rw [hdev, ← List.length_eq_zero_iff]
    constructor
    · intro hall
      by_contra hne
      have := hall (m.bytes.length - 1) (show m.bytes.length - 1 < m.bytes.length by omega)
      unfold BLOCKSIZE at this
      omega
    · rintro (hfalse | hnil)
      · cases hfalse
      · intro b hb
        exact absurd hb (by dsimp only; omega)
  · rename_i hdev
    split at ho <;> cases ho
    refine iff_of_true (fun b hb => ?_) (Or.inl (by simpa using hdev))
    have := (Nat.le_div_iff_mul_le (show 0 < BLOCKSIZE by decide)).mp (Nat.succ_le_of_lt hb)
    rw [Nat.succ_mul] at this
    exact this

end Flashcontroller

open Flashcontroller in
/-- **While transfers succeed** and every access ends in the region it begins in, a controller with
a file is a flat device: it accepts the same accesses, gives the same data, and after the destructor
the file has the device's blocks. -/
theorem flash_refines (overrun : Overrun) {bytes buf : List UInt8} {s : Flashcontroller}
    {t : Transfer} {ops : List (Access × Transfer × Transfer)} (hbuf : buf.length = BLOCKSIZE)
    (ho : create ⟨false, bytes⟩ buf = some s) (hin : ∀ p ∈ ops, p.1.InRegion)
    (hworks : ∀ p ∈ ops, p.2.1.Works ∧ p.2.2.Works) (ht : t.Works) :
    (s.run overrun ops).map (fun p => (blockAt BLOCKSIZE (p.1.close t), p.2)) =
      (FlatFlash.run ⟨blockAt BLOCKSIZE bytes, asRaw 0, bytes.length / BLOCKSIZE⟩
        (ops.map Prod.fst)).map fun p => (p.1.blocks, p.2) := by
  obtain ⟨hsound, hflat⟩ := create_sound hbuf ho
  obtain ⟨hrun, hend⟩ := run_flat overrun hsound hin hworks
  rw [← hflat, ← hrun, Option.map_map]
  cases hs : s.run overrun ops with
  | none => rfl
  | some p =>
    have hp := hend p hs
    have hclear := Blockbuffer.cached_clear (w := t) hp.buf
    have hstore := congrArg Cached.store hclear
    rw [Cached.flush, commit_of_works hp ht] at hstore
    have hview := hstore.trans (Cached.flush_store (p.1.blockBuf.cached BLOCKSIZE))
    exact congrArg (fun blocks => some (blocks, p.2)) hview

/-- A transfer of a whole block. -/
def whole : Transfer := ⟨true, BLOCKSIZE⟩

theorem whole_works : whole.Works := ⟨rfl, Nat.le_refl _⟩

/-- A byte is written to block 0, block 1 is read, and then block 0 again. -/
def revisit : List (Access × Transfer × Transfer) :=
  [(.write 16 [1], whole, whole), (.write 0 [1], whole, whole), (.read 16 2, whole, whole),
    (.write 0 [0], whole, whole), (.read 16 2, whole, whole)]

theorem flash_refines_revisit :
    ∃ s, Flashcontroller.create ⟨false, List.replicate 1024 7⟩ (List.replicate 512 0) = some s ∧
      (s.run (fun _ _ => none) revisit).map Prod.snd = some [[], [], [7, 7], [], [1, 7]] := by
  obtain ⟨s, hs⟩ : ∃ s, Flashcontroller.create ⟨false, List.replicate 1024 7⟩
      (List.replicate 512 0) = some s := Option.isSome_iff_exists.mp (by decide +kernel)
  have hworks : ∀ p ∈ revisit, p.2.1.Works ∧ p.2.2.Works := by
    have hwhole : revisit.map Prod.snd = List.replicate 5 (whole, whole) := rfl
    intro p hp
    have hmem : p.2 ∈ List.replicate 5 (whole, whole) := hwhole ▸ List.mem_map_of_mem hp
    rw [List.eq_of_mem_replicate hmem]
    exact ⟨whole_works, whole_works⟩
  have h := congrArg (Option.map Prod.snd)
    (flash_refines (fun _ _ => none) (by decide +kernel) hs (by decide) hworks whole_works)
  rw [Option.map_map, Option.map_map] at h
  refine ⟨s, hs, h.trans ?_⟩
  decide +kernel

/-! ## When transfers fail -/

/-- The controller with `m`, and any accesses. -/
def flash (overrun : Overrun) (m : Medium) (buf : List UInt8) :
    Machine Flashcontroller (Access × Transfer × Transfer) where
  init s := Flashcontroller.create m buf = some s
  next s a := (s.transport overrun a.2.1 a.2.2 a.1).map Prod.fst

/-- A step of a run that writes to block `j`. -/
def WritesTo (p : Flashcontroller × Access × Transfer × Transfer) (j : Nat) : Prop :=
  asInt p.1.mTargetBlock = j ∧ p.2.1.isData = true ∧ p.2.1.isWrite = true

/-- A step of a run that seeks block `j`, fails to write back the block in the buffer and fails to
read `j`. -/
def LoadsStale (p : Flashcontroller × Access × Transfer × Transfer) (j : Nat) : Prop :=
  asInt p.1.mTargetBlock = j ∧ p.2.1.isData = true ∧
    (p.1.blockBuf.cached BLOCKSIZE).Stale (p.1.blockBuf.written BLOCKSIZE p.2.2.1)
      ({ p.1.blockBuf.commit BLOCKSIZE p.2.2.1 with offs := j }.loaded BLOCKSIZE p.2.2.2) j

namespace Flashcontroller

variable {overrun : Overrun} {s s' : Flashcontroller} {w r t : Transfer} {T : Set Nat}
  {store : Nat → List UInt8}

/-- **Whatever fails**, the buffer has the size of a block, and only blocks of `T` are written
to. -/
structure Blames (T : Set Nat) (store : Nat → List UInt8) (s : Flashcontroller) : Prop where
  buf : s.blockBuf.buf.length = BLOCKSIZE
  owns : (s.blockBuf.cached BLOCKSIZE).Owns T store

theorem Blames.seek (h : s.Blames T store) (hs : s.seek w r = some s')
    (hstale : (s.blockBuf.cached BLOCKSIZE).Stale (s.blockBuf.written BLOCKSIZE w)
      ({ s.blockBuf.commit BLOCKSIZE w with offs := asInt s.mTargetBlock }.loaded BLOCKSIZE r)
      (asInt s.mTargetBlock) → asInt s.mTargetBlock ∈ T) :
    s'.Blames T store ∧ s'.blockBuf.offs = asInt s.mTargetBlock := by
  unfold Flashcontroller.seek at hs
  split at hs <;> cases hs
  have hload := Blockbuffer.cached_setPos (w := w) (r := r) h.buf (asInt s.mTargetBlock)
  refine ⟨⟨(Blockbuffer.setPos_length h.buf _).1, ?_⟩, ?_⟩
  · show Cached.Owns T store (Blockbuffer.cached BLOCKSIZE (Blockbuffer.setPos _ _ _ _ _))
    rw [hload]
    exact h.owns.load hstale
  · have hholds := Cached.load_holds (s.blockBuf.cached BLOCKSIZE) (s.blockBuf.written BLOCKSIZE w)
      ({ s.blockBuf.commit BLOCKSIZE w with offs := asInt s.mTargetBlock }.loaded BLOCKSIZE r)
      (asInt s.mTargetBlock)
    rw [← hload] at hholds
    exact hholds.1.symm

/-- What an access can do: it is for a register, or it seeks and may then change the buffer. -/
theorem transport_cases {a : Access} (hin : a.InRegion) {p : Flashcontroller × List UInt8}
    (h : s.transport overrun w r a = some p) :
    (∃ target, p.1 = { s with mTargetBlock := target }) ∨
      a.isData = true ∧ ∃ s', s.seek w r = some s' ∧ (p.1 = s' ∨ a.isWrite = true ∧
        ∃ bytes pos, pos + bytes.length ≤ BLOCKSIZE ∧
          p.1 = { s' with blockBuf := s'.blockBuf.setData bytes pos }) := by
  cases a with
  | read addr len =>
    simp only [transport] at h
    split at h
    · rename_i h1
      have hend : addr + len ≤ FLASH_SIZE_REG := hin.target h1
      rw [if_pos hend] at h
      cases h
      exact Or.inl ⟨_, rfl⟩
    · rename_i h1
      split at h
      · rename_i h2
        have hend : addr + len ≤ DATA_ADDR := hin.numBlocks h1 h2
        rw [if_pos hend] at h
        cases h
        exact Or.inl ⟨_, rfl⟩
      · rename_i h2
        have hend : addr + len ≤ ADDR_SPACE := hin.data h1 h2
        simp only [if_pos hend] at h
        split at h
        · obtain ⟨s', hs, hget⟩ := Option.bind_eq_some_iff.mp h
          cases hget
          exact Or.inr ⟨decide_eq_true (Nat.not_lt.mp h2), _, hs, Or.inl rfl⟩
        · cases h
  | write addr bytes =>
    simp only [transport] at h
    split at h
    · rename_i h1
      have hend : addr + bytes.length ≤ FLASH_SIZE_REG := hin.target h1
      rw [if_pos hend] at h
      cases h
      exact Or.inl ⟨_, rfl⟩
    · rename_i h1
      split at h
      · cases h
      · rename_i h2
        have hend : addr + bytes.length ≤ ADDR_SPACE := hin.data h1 h2
        simp only [if_pos hend] at h
        split at h
        · obtain ⟨s', hs, hset⟩ := Option.bind_eq_some_iff.mp h
          cases hset
          refine Or.inr ⟨decide_eq_true (Nat.not_lt.mp h2), s', hs,
            Or.inr ⟨rfl, bytes, _, ?_, rfl⟩⟩
          unfold ADDR_SPACE at hend
          omega
        · cases h

/-- **A step** writes to no other blocks than it and the steps before it are to blame for. -/
theorem Blames.step {a : Access × Transfer × Transfer} (h : s.Blames T store)
    (hin : a.1.InRegion) (hs : (s.transport overrun a.2.1 a.2.2 a.1).map Prod.fst = some s') :
    s'.Blames (T ∪ {j | WritesTo (s, a) j ∨ LoadsStale (s, a) j}) store := by
  obtain ⟨a, w, r⟩ := a
  obtain ⟨p, hp, rfl⟩ := Option.map_eq_some_iff.mp hs
  have hT : s.Blames (T ∪ {j | WritesTo (s, a, w, r) j ∨ LoadsStale (s, a, w, r) j}) store :=
    ⟨h.buf, h.owns.mono Set.subset_union_left⟩
  rcases transport_cases hin hp with ⟨target, heq⟩ | ⟨hdata, s', hseek, hcase⟩
  · rw [heq]
    exact ⟨hT.buf, hT.owns⟩
  · obtain ⟨hs', hoffs⟩ := hT.seek hseek fun hstale => Or.inr (Or.inr ⟨rfl, hdata, hstale⟩)
    rcases hcase with heq | ⟨hwrite, bytes, pos, hpos, heq⟩
    · rw [heq]
      exact hs'
    · rw [heq]
      refine ⟨(splice_length (by rw [hs'.buf]; exact hpos)).trans hs'.buf, ?_⟩
      refine hs'.owns.modify ?_ fun block => splice block pos bytes
      exact Or.inr (Or.inl ⟨hoffs.symm, hdata, hwrite⟩)

end Flashcontroller

/-- **A run** has written to no other blocks than its steps are to blame for. -/
theorem flash_blames {overrun : Overrun} {m : Medium} {buf : List UInt8}
    (hbuf : buf.length = BLOCKSIZE)
    {tr : List (Flashcontroller × Access × Transfer × Transfer)} {s : Flashcontroller}
    (h : (flash overrun m buf).Path tr s) (hin : ∀ p ∈ tr, p.2.1.InRegion) :
    s.Blames {j | ∃ p ∈ tr, WritesTo p j ∨ LoadsStale p j} (blockAt BLOCKSIZE m.bytes) := by
  induction h with
  | init ho =>
    have hcreate : ∀ s, Flashcontroller.create m buf = some s →
        s.blockBuf = ⟨m.bytes, buf, 0, false, false⟩ := by
      intro s ho
      unfold Flashcontroller.create at ho
      dsimp only at ho
      split at ho
      · cases ho
        rfl
      · split at ho <;> cases ho
        rfl
    have heq := hcreate _ ho
    refine ⟨by rw [heq]; exact hbuf, ?_⟩
    rw [heq]
    exact ⟨nofun, fun _ _ => rfl⟩
  | @step tr s s' a hp hnext ih =>
    have hstep := (ih fun q hq => hin q (List.mem_append_left _ hq)).step
      (hin (s, a) (List.mem_append_right _ (List.mem_singleton_self _))) hnext
    refine ⟨hstep.buf, hstep.owns.mono ?_⟩
    rintro j (⟨p, hp, hj⟩ | hj)
    · exact ⟨p, List.mem_append_left _ hp, hj⟩
    · exact ⟨(s, a), List.mem_append_right _ (List.mem_singleton_self _), hj⟩

/-- **Whichever transfers fail**, while every access ends in the region it begins in: a block that
is not what it was after the destructor has been written to by the software, or was loaded stale: it
could not be read after the block before it could not be written back, and got that block's contents
later. -/
theorem flash_failures {overrun : Overrun} {m : Medium} {buf : List UInt8}
    (hbuf : buf.length = BLOCKSIZE)
    {tr : List (Flashcontroller × Access × Transfer × Transfer)} {s : Flashcontroller}
    (h : (flash overrun m buf).Path tr s) (hin : ∀ p ∈ tr, p.2.1.InRegion) (t : Transfer) {j : Nat}
    (hj : blockAt BLOCKSIZE (s.close t) j ≠ blockAt BLOCKSIZE m.bytes j) :
    ∃ p ∈ tr, WritesTo p j ∨ LoadsStale p j := by
  have hs := flash_blames hbuf h hin
  by_contra hno
  have hclear := Blockbuffer.cached_clear (w := t) hs.buf
  have hstore := (hs.owns.flush (s.blockBuf.written BLOCKSIZE t)).store_eq j hno
  rw [← hclear] at hstore
  exact hj hstore

/-- Block 0 is written to, then a read of block 1 fails twice; the destructor writes to block 1. -/
def lostRead : List (Access × Transfer × Transfer) :=
  [(.write 16 [1], whole, whole), (.write 0 [1], whole, whole), (.read 16 1, ⟨true, 0⟩, ⟨true, 0⟩)]

theorem flash_failures_read : ∃ tr s,
    (flash (fun _ _ => none) ⟨false, List.replicate 1024 0⟩ (List.replicate 512 0)).Path tr s ∧
      tr.map Prod.snd = lostRead ∧ ∃ p ∈ tr, WritesTo p 1 ∨ LoadsStale p 1 := by
  have hrun : ((Flashcontroller.create ⟨false, List.replicate 1024 0⟩ (List.replicate 512 0)).bind
      fun s => ((flash (fun _ _ => none) ⟨false, List.replicate 1024 0⟩
        (List.replicate 512 0)).exec s lostRead).map
          fun s => (blockAt 512 (s.close whole) 1)[0]?) = some (some 1) := by decide +kernel
  obtain ⟨s0, ho, hexec⟩ := Option.bind_eq_some_iff.mp hrun
  obtain ⟨s, hs, hbyte⟩ := Option.map_eq_some_iff.mp hexec
  obtain ⟨tr, htr, hlabels⟩ := Machine.path_exec (.init ho) hs
  have hlabels : tr.map Prod.snd = lostRead := by simpa using hlabels
  have hin : ∀ p ∈ tr, p.2.1.InRegion := by
    intro p hp
    have hall : ∀ a ∈ lostRead, a.1.InRegion := by decide
    exact hall p.2 (hlabels ▸ List.mem_map_of_mem hp)
  refine ⟨tr, s, htr, hlabels, flash_failures (by decide +kernel) htr hin whole ?_⟩
  intro heq
  rw [show BLOCKSIZE = 512 from rfl] at heq
  rw [heq] at hbyte
  exact absurd hbyte (by decide +kernel)

end SortPlatform.Vp

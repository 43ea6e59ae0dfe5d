import Mathlib.Data.UInt
import SortPlatform.Lib.Machine
import SortPlatform.Lib.Splice
import SortPlatform.Vp.AddressMap

/-!
# The network device

`EthernetDevice` of `src/vp/basic-final/ethernet.h` and `ethernet.cpp`. The thread `run` polls the
socket for one frame at a time and interrupts for it; the software fetches the frame into RAM, or
sends one from RAM, by writing to `status`. `mem` is the array behind RAM. Reading a register has
no effect, and the output on the terminal is left out.

* `EthernetDevice.isPacketForUs` — the filter; the checks behind its `return true` are not reached.
* `Link` — the device with the frames on both sides of it.

Principal results:

* `ethernet_delivers` — the frames for us are handed over once each, in order and complete.
* `ethernet_deaf` — unless `has_frame`, which the constructor does not set, is true from the start.
* `ethernet_link` — what one device sends another one receives.
* `receive_lands` — where in RAM a frame ends up.
-/

set_option autoImplicit false

namespace SortPlatform.Vp

open RunMerge Splice

def FRAME_SIZE : Nat := 1500 + 14

def ETH_P_IP : Nat := 0x0800
def ETH_P_ARP : Nat := 0x0806

def BROADCAST_MAC_ADDRESS : List UInt8 := [0xff, 0xff, 0xff, 0xff, 0xff, 0xff]

def RECV_OPERATION : UInt32 := 1
def SEND_OPERATION : UInt32 := 2

inductive EthReg where
  | status
  | receive_size
  | receive_dst
  | send_src
  | send_size
  | mac_high
  | mac_low
  deriving DecidableEq

structure EthernetDevice where
  status : UInt32
  receive_size : UInt32
  receive_dst : UInt32
  send_src : UInt32
  send_size : UInt32
  /-- The eight bytes of `mac[2]`. -/
  mac : List UInt8
  mem : List UInt8
  recv_frame_buf : List UInt8
  has_frame : Bool
  disabled : Bool

/-- The bytes of a word in memory. -/
def le32 (v : UInt32) : List UInt8 :=
  [v.toUInt8, (v >>> 8).toUInt8, (v >>> 16).toUInt8, (v >>> 24).toUInt8]

/-! ## Frames -/

/-- `eh->ether_dhost` -/
def ether_dhost (packet : List UInt8) : List UInt8 := slice packet 0 6

/-- `eh->ether_shost` -/
def ether_shost (packet : List UInt8) : List UInt8 := slice packet 6 12

/-- `ntohs(eh->ether_type)` -/
def ether_type (packet : List UInt8) : Nat :=
  256 * (packet.getD 12 0).toNat + (packet.getD 13 0).toNat

/-- `arp->target_mac` -/
def target_mac (packet : List UInt8) : List UInt8 := slice packet 32 38

/-- `isPacketForUs`, with `VIRTUAL_MAC_ADDRESS` given. -/
def isPacketForUs (mac packet : List UInt8) : Bool :=
  let virtual_match := ether_dhost packet = mac
  let broadcast_match := ether_dhost packet = BROADCAST_MAC_ADDRESS
  let own_packet := ether_shost packet = mac
  if ¬ virtual_match ∧ ¬ (broadcast_match ∧ ¬ own_packet) then false
  else if ether_type packet ≠ ETH_P_IP then
    if ether_type packet ≠ ETH_P_ARP then false
    else if target_mac packet ≠ mac then true
    else true
  else true

namespace EthernetDevice

/-- The constructor for a network device with address `hwaddr`; the other arguments are what the
constructor does not set. -/
def create (mem hwaddr : List UInt8) (mac_rest recv_frame_buf : List UInt8) (has_frame : Bool) :
    EthernetDevice :=
  ⟨0, 0, 0, 0, 0, hwaddr ++ mac_rest, mem, recv_frame_buf, has_frame, false⟩

def VIRTUAL_MAC_ADDRESS (d : EthernetDevice) : List UInt8 := d.mac.take 6

/-- The index of a frame's address in `mem`. -/
def memIndex (addr : UInt32) : Nat := (addr - 0x80000000).toNat

/-! ## Receiving -/

/-- `try_recv_raw_frame` when `read` has a frame; `none` is an exception. -/
def try_recv_raw_frame (d : EthernetDevice) (frame : List UInt8) : Option (Bool × EthernetDevice) :=
  if frame = [] then none
  else
    let ans := frame.take FRAME_SIZE
    let d := { d with recv_frame_buf := splice d.recv_frame_buf 0 ans }
    if isPacketForUs d.VIRTUAL_MAC_ADDRESS d.recv_frame_buf then
      some (true, { d with has_frame := true, receive_size := UInt32.ofNat ans.length })
    else some (false, d)

/-- `while (!try_recv_raw_frame())`, and the frames that are left. -/
def receive (d : EthernetDevice) : List (List UInt8) → Option (EthernetDevice × List (List UInt8))
  | [] => some (d, [])
  | frame :: rest =>
    (d.try_recv_raw_frame frame).bind fun p => if p.1 then some (p.2, rest) else p.2.receive rest

/-- A round of `run`: the device, the frames left, and whether it interrupts. -/
def poll (d : EthernetDevice) (incoming : List (List UInt8)) :
    Option (EthernetDevice × List (List UInt8) × Bool) :=
  if d.disabled then none
  else if d.has_frame then some (d, incoming, false)
  else (d.receive incoming).map fun p => (p.1, p.2, p.1.has_frame)

/-! ## The registers -/

/-- `r.fn()` for a store. -/
def store (d : EthernetDevice) (v : UInt32) : EthReg → EthernetDevice
  | .status => { d with status := v }
  | .receive_size => { d with receive_size := v }
  | .receive_dst => { d with receive_dst := v }
  | .send_src => { d with send_src := v }
  | .send_size => { d with send_size := v }
  | .mac_high => { d with mac := splice d.mac 0 (le32 v) }
  | .mac_low => { d with mac := splice d.mac 4 (le32 v) }

/-- The bytes that a fetch copies. -/
def frame (d : EthernetDevice) : List UInt8 := d.recv_frame_buf.take d.receive_size.toNat

/-- `RECV_OPERATION`; `none` when the assertion fails or a bound of the copy is exceeded. -/
def fetch (d : EthernetDevice) : Option EthernetDevice :=
  if d.has_frame = true ∧ d.receive_size.toNat ≤ FRAME_SIZE ∧
      memIndex d.receive_dst + d.receive_size.toNat ≤ d.mem.length then
    some { d with
      mem := splice d.mem (memIndex d.receive_dst) d.frame
      has_frame := false
      receive_size := 0 }
  else none

/-- `send_raw_frame`: the device and the frame on the wire; `none` when the assertion fails or a
bound of the copy is exceeded. -/
def send_raw_frame (d : EthernetDevice) : Option (EthernetDevice × List UInt8) :=
  let size := d.send_size.toNat
  if memIndex d.send_src + size ≤ d.mem.length then
    let sendbuf := slice d.mem (memIndex d.send_src) (memIndex d.send_src + size)
    let sendbuf := sendbuf ++ List.replicate (60 - size) 0
    let d := if size < 60 then { d with send_size := 60 } else d
    if ether_shost sendbuf = d.VIRTUAL_MAC_ADDRESS then some (d, sendbuf) else none
  else none

end EthernetDevice

/-! ## The device in use -/

/-- The device between the network and the software, with what has passed. -/
structure Link where
  dev : EthernetDevice
  /-- Frames at the socket. -/
  incoming : List (List UInt8)
  /-- All frames that have come to the socket. -/
  arrived : List (List UInt8)
  /-- The frames read from the socket, each with the address of the time. -/
  seen : List (List UInt8 × List UInt8)
  /-- The frames fetched. -/
  fetched : List (List UInt8)
  sent : List (List UInt8)
  interrupts : Nat

inductive LinkAct where
  | arrive (frame : List UInt8)
  /-- A round of `run`. -/
  | poll
  /-- A store by the software. -/
  | store (r : EthReg) (v : UInt32)

namespace Link

/-- `register_access_callback` for a store. -/
def register_access_callback (s : Link) (r : EthReg) (v : UInt32) : Option Link :=
  if s.dev.disabled then none
  else
    let s := { s with dev := s.dev.store v r }
    if r = .status then
      if v = RECV_OPERATION then
        s.dev.fetch.map fun d => { s with dev := d, fetched := s.fetched ++ [s.dev.frame] }
      else if v = SEND_OPERATION then
        s.dev.send_raw_frame.map fun p => { s with dev := p.1, sent := s.sent ++ [p.2] }
      else none
    else some s

def next (s : Link) : LinkAct → Option Link
  | .arrive frame => some { s with
      incoming := s.incoming ++ [frame]
      arrived := s.arrived ++ [frame] }
  | .poll => (s.dev.poll s.incoming).map fun p => { s with
      dev := p.1
      incoming := p.2.1
      seen := s.seen ++ (s.incoming.take (s.incoming.length - p.2.1.length)).map
        (·, s.dev.VIRTUAL_MAC_ADDRESS)
      interrupts := s.interrupts + p.2.2.toNat }
  | .store r v => s.register_access_callback r v

/-- The frames for us among those read, as long as they fit. -/
def accepted (s : Link) : List (List UInt8) :=
  (s.seen.filter fun p => isPacketForUs p.2 p.1).map (·.1.take FRAME_SIZE)

/-- The frame that waits to be fetched. -/
def waiting (s : Link) : List (List UInt8) := if s.dev.has_frame then [s.dev.frame] else []

/-- **Frames have a header**, and the software leaves the size of a received frame alone. -/
def Ok (_ : Link) : LinkAct → Prop
  | .arrive frame => 14 ≤ frame.length
  | .poll => True
  | .store r _ => r ≠ .receive_size

instance (s : Link) : (a : LinkAct) → Decidable (s.Ok a)
  | .arrive frame => inferInstanceAs (Decidable (14 ≤ frame.length))
  | .poll => inferInstanceAs (Decidable True)
  | .store r _ => inferInstanceAs (Decidable (r ≠ .receive_size))

end Link

/-- The device `d` after construction. -/
def ethernet (d : EthernetDevice) : Machine Link LinkAct where
  init s := s = ⟨d, [], [], [], [], [], 0⟩
  next := Link.next

/-! ## The filter -/

/-- **What is for us**: IP and ARP, to our address, or to all and not from us. -/
theorem isPacketForUs_iff (mac packet : List UInt8) : isPacketForUs mac packet = true ↔
    (ether_dhost packet = mac ∨ ether_dhost packet = BROADCAST_MAC_ADDRESS ∧
      ether_shost packet ≠ mac) ∧ (ether_type packet = ETH_P_IP ∨ ether_type packet = ETH_P_ARP) := by
  unfold isPacketForUs
  grind

/-- Only the header counts. -/
theorem isPacketForUs_congr {mac p q : List UInt8} (h : ∀ i < 14, p[i]? = q[i]?) :
    isPacketForUs mac p = isPacketForUs mac q := by
  have hslice : ∀ a b, b ≤ 14 → slice p a b = slice q a b := by
    intro a b hb
    apply List.ext_getElem?
    intro i
    rw [getElem?_slice, getElem?_slice]
    by_cases hi : a + i < b
    · rw [if_pos hi, if_pos hi, h _ (by omega)]
    · rw [if_neg hi, if_neg hi]
  have htype : ether_type p = ether_type q := by
    unfold ether_type
    rw [List.getD_eq_getElem?_getD, List.getD_eq_getElem?_getD, List.getD_eq_getElem?_getD,
      List.getD_eq_getElem?_getD, h 12 (by omega), h 13 (by omega)]
  rw [Bool.eq_iff_iff, isPacketForUs_iff, isPacketForUs_iff]
  unfold ether_dhost ether_shost
  rw [hslice 0 6 (by omega), hslice 6 12 (by omega), htype]

/-- What the buffer had before does not count. -/
theorem isPacketForUs_splice (mac buf : List UInt8) {frame : List UInt8} (h : 14 ≤ frame.length) :
    isPacketForUs mac (splice buf 0 (frame.take FRAME_SIZE)) = isPacketForUs mac frame := by
  refine isPacketForUs_congr fun i hi => ?_
  have hlen : 14 ≤ (frame.take FRAME_SIZE).length := by
    rw [List.length_take]
    exact Nat.le_min.mpr ⟨by decide, h⟩
  rw [splice, List.take_zero, List.nil_append, List.getElem?_append_left (by omega),
    List.getElem?_take_of_lt (Nat.lt_of_lt_of_le hi (by decide))]

/-! ## Delivery -/

namespace EthernetDevice

variable {d d' : EthernetDevice} {frame : List UInt8} {frames rest : List (List UInt8)}

/-- A frame of the socket is for us and waits to be fetched, or it is dropped. -/
theorem try_recv_cases {done : Bool} (h : d.try_recv_raw_frame frame = some (done, d'))
    (hlen : 14 ≤ frame.length) :
    done = isPacketForUs d.VIRTUAL_MAC_ADDRESS frame ∧ d'.mac = d.mac ∧ d'.mem = d.mem ∧
      d'.receive_dst = d.receive_dst ∧ d'.disabled = d.disabled ∧
      if done then d'.has_frame = true ∧ d'.frame = frame.take FRAME_SIZE ∧
        d'.receive_size.toNat = (frame.take FRAME_SIZE).length
      else d'.has_frame = d.has_frame := by
  unfold try_recv_raw_frame at h
  split at h
  · cases h
  · have hfilter := isPacketForUs_splice d.VIRTUAL_MAC_ADDRESS d.recv_frame_buf hlen
    dsimp only at h
    rw [show VIRTUAL_MAC_ADDRESS { d with
        recv_frame_buf := splice d.recv_frame_buf 0 (frame.take FRAME_SIZE) } =
      d.VIRTUAL_MAC_ADDRESS from rfl, hfilter] at h
    split at h <;> cases h
    · rename_i hfor
      refine ⟨hfor.symm, rfl, rfl, rfl, rfl, rfl, ?_⟩
      have hsize : (UInt32.ofNat (frame.take FRAME_SIZE).length).toNat =
          (frame.take FRAME_SIZE).length := by
        have hle : (frame.take FRAME_SIZE).length ≤ FRAME_SIZE := List.length_take_le _ _
        exact UInt32.toNat_ofNat_of_lt' (Nat.lt_of_le_of_lt hle (by decide))
      refine ⟨?_, hsize⟩
      show List.take (UInt32.ofNat (frame.take FRAME_SIZE).length).toNat _ = _
      rw [hsize]
      exact take_splice_zero _ _
    · rename_i hfor
      exact ⟨by simpa using hfor, rfl, rfl, rfl, rfl, rfl⟩

/-- What is sent: the bytes in RAM, padded with zeros to the least size of a frame. -/
theorem send_raw_frame_eq_some {p : EthernetDevice × List UInt8} (h : d.send_raw_frame = some p) :
    memIndex d.send_src + d.send_size.toNat ≤ d.mem.length ∧
      p.1 = (if d.send_size.toNat < 60 then { d with send_size := 60 } else d) ∧
      p.2 = slice d.mem (memIndex d.send_src) (memIndex d.send_src + d.send_size.toNat) ++
        List.replicate (60 - d.send_size.toNat) 0 ∧
      ether_shost p.2 = d.VIRTUAL_MAC_ADDRESS := by
  unfold send_raw_frame at h
  dsimp only at h
  by_cases hin : memIndex d.send_src + d.send_size.toNat ≤ d.mem.length
  · rw [if_pos hin] at h
    by_cases hsize : d.send_size.toNat < 60
    · simp only [if_pos hsize] at h ⊢
      split at h <;> cases h
      exact ⟨hin, rfl, rfl, ‹_›⟩
    · simp only [if_neg hsize] at h ⊢
      split at h <;> cases h
      exact ⟨hin, rfl, rfl, ‹_›⟩
  · rw [if_neg hin] at h
    cases h

/-- **The loop drops frames** until there is one for us, or none. -/
theorem receive_spec : ∀ {frames : List (List UInt8)} {d : EthernetDevice},
    (∀ f ∈ frames, 14 ≤ f.length) → d.has_frame = false → ∃ d' rest dropped,
      d.receive frames = some (d', rest) ∧ d'.mac = d.mac ∧ d'.mem = d.mem ∧
      d'.receive_dst = d.receive_dst ∧ d'.disabled = d.disabled ∧
      (∀ f ∈ dropped, isPacketForUs d.VIRTUAL_MAC_ADDRESS f = false) ∧
      (d'.has_frame = false ∧ rest = [] ∧ frames = dropped ∨
        ∃ f, isPacketForUs d.VIRTUAL_MAC_ADDRESS f = true ∧ frames = dropped ++ f :: rest ∧
          d'.has_frame = true ∧ d'.frame = f.take FRAME_SIZE ∧
          d'.receive_size.toNat = (f.take FRAME_SIZE).length)
  | [], d, _, hno => ⟨d, [], [], rfl, rfl, rfl, rfl, rfl, nofun, Or.inl ⟨hno, rfl, rfl⟩⟩
  | frame :: frames, d, hlong, hno => by
    have hlen := hlong frame List.mem_cons_self
    obtain ⟨⟨done, d1⟩, htry⟩ : ∃ p, d.try_recv_raw_frame frame = some p := by
      unfold try_recv_raw_frame
      rw [if_neg (by rintro rfl; exact absurd hlen (by decide))]
      dsimp only
      split <;> exact ⟨_, rfl⟩
    obtain ⟨hdone, hmac, hmem, hdst, hdis, hcase⟩ := try_recv_cases htry hlen
    cases done with
    | true =>
      obtain ⟨hhas, hframe, hsize⟩ := hcase
      refine ⟨d1, frames, [], ?_, hmac, hmem, hdst, hdis, nofun,
        Or.inr ⟨frame, hdone.symm, rfl, hhas, hframe, hsize⟩⟩
      rw [receive, htry]
      rfl
    | false =>
      obtain ⟨d', rest, dropped, hrec, hmac', hmem', hdst', hdis', hdrop, hend⟩ :=
        receive_spec (fun f hf => hlong f (List.mem_cons_of_mem _ hf)) (hcase.trans hno)
      have hvirt : d1.VIRTUAL_MAC_ADDRESS = d.VIRTUAL_MAC_ADDRESS := by
        unfold VIRTUAL_MAC_ADDRESS
        rw [hmac]
      rw [hvirt] at hdrop hend
      refine ⟨d', rest, frame :: dropped, ?_, hmac'.trans hmac, hmem'.trans hmem,
        hdst'.trans hdst, hdis'.trans hdis, ?_, ?_⟩
      · rw [receive, htry]
        exact hrec
      · intro f hf
        rcases List.mem_cons.mp hf with rfl | hf
        · exact hdone.symm
        · exact hdrop f hf
      · rcases hend with ⟨h1, h2, h3⟩ | ⟨f, h1, h2, h3⟩
        · exact Or.inl ⟨h1, h2, by rw [h3]⟩
        · exact Or.inr ⟨f, h1, by rw [h2]; rfl, h3⟩

end EthernetDevice

namespace Link

variable {s s' : Link}

/-- **The account of the frames**: those read and those at the socket are all, and those for us are
the ones fetched and the one that waits, with an interrupt for each. -/
structure Inv (s : Link) : Prop where
  long : ∀ f ∈ s.incoming, 14 ≤ f.length
  arrived : s.arrived = s.seen.map Prod.fst ++ s.incoming
  accepted : s.accepted = s.fetched ++ s.waiting
  interrupts : s.interrupts = s.accepted.length

theorem Inv.arrive {frame : List UInt8} (hi : s.Inv) (hok : s.Ok (.arrive frame))
    (h : s.next (.arrive frame) = some s') : s'.Inv := by
  cases h
  refine ⟨?_, ?_, hi.accepted, hi.interrupts⟩
  · intro f hf
    rcases List.mem_append.mp hf with hf | hf
    · exact hi.long f hf
    · rw [List.mem_singleton.mp hf]
      exact hok
  · show s.arrived ++ [frame] = s.seen.map Prod.fst ++ (s.incoming ++ [frame])
    rw [hi.arrived, List.append_assoc]

/-- The frames read in a round. -/
theorem filter_read {mac : List UInt8} {dropped : List (List UInt8)}
    (h : ∀ f ∈ dropped, isPacketForUs mac f = false) :
    (dropped.map (·, mac)).filter (fun p : List UInt8 × List UInt8 => isPacketForUs p.2 p.1) = [] := by
  rw [List.filter_eq_nil_iff]
  rintro ⟨f, m⟩ hf
  obtain ⟨f', hf', heq⟩ := List.mem_map.mp hf
  cases heq
  simpa using h f hf'

/-- What a round does: nothing while a frame waits, else it reads frames up to the next one for
us. -/
theorem poll_cases (hlong : ∀ f ∈ s.incoming, 14 ≤ f.length) (h : s.next .poll = some s') :
    s.dev.has_frame = true ∧ s' = s ∨
      s.dev.has_frame = false ∧ s'.fetched = s.fetched ∧ s'.arrived = s.arrived ∧
        s'.dev.disabled = s.dev.disabled ∧ ∃ dropped,
        (∀ f ∈ dropped, isPacketForUs s.dev.VIRTUAL_MAC_ADDRESS f = false) ∧
        (s'.dev.has_frame = false ∧ s.incoming = dropped ∧ s'.incoming = [] ∧
            s'.seen = s.seen ++ dropped.map (·, s.dev.VIRTUAL_MAC_ADDRESS) ∧
            s'.interrupts = s.interrupts ∨
          ∃ f, isPacketForUs s.dev.VIRTUAL_MAC_ADDRESS f = true ∧
            s.incoming = dropped ++ f :: s'.incoming ∧
            s'.seen = s.seen ++ (dropped ++ [f]).map (·, s.dev.VIRTUAL_MAC_ADDRESS) ∧
            s'.dev.has_frame = true ∧ s'.dev.frame = f.take FRAME_SIZE ∧
            s'.interrupts = s.interrupts + 1) := by
  obtain ⟨⟨d, rest, irq⟩, hp, rfl⟩ := Option.map_eq_some_iff.mp h
  unfold EthernetDevice.poll at hp
  split at hp
  · cases hp
  · split at hp
    · rename_i hhas
      cases hp
      refine Or.inl ⟨hhas, ?_⟩
      simp
    · rename_i hhas
      have hno : s.dev.has_frame = false := by simpa using hhas
      obtain ⟨p, hrec, heq⟩ := Option.map_eq_some_iff.mp hp
      cases heq
      obtain ⟨d', rest, dropped, hrec', -, -, -, hdis, hdrop, hend⟩ :=
        EthernetDevice.receive_spec hlong hno
      cases hrec.symm.trans hrec'
      refine Or.inr ⟨hno, rfl, rfl, hdis, dropped, hdrop, ?_⟩
      rcases hend with ⟨hhas', hrest, hin⟩ | ⟨f, hfor, hin, hhas', hframe, -⟩
      · refine Or.inl ⟨hhas', hin, hrest, ?_, ?_⟩
        · dsimp only
          rw [hrest, List.length_nil, Nat.sub_zero, List.take_length, hin]
        · dsimp only
          rw [hhas']
          rfl
      · refine Or.inr ⟨f, hfor, hin, ?_, hhas', hframe, ?_⟩
        · dsimp only
          have htake : s.incoming.take (s.incoming.length - rest.length) = dropped ++ [f] := by
            rw [hin, List.append_cons, List.length_append, Nat.add_sub_cancel, List.take_left]
          rw [htake]
        · dsimp only
          rw [hhas']
          rfl

theorem Inv.poll (hi : s.Inv) (h : s.next .poll = some s') : s'.Inv := by
  rcases poll_cases hi.long h with ⟨-, rfl⟩ | ⟨hno, hfetched, harr, -, dropped, hdrop, hcase⟩
  · exact hi
  · have hacc := hi.accepted
    have hint := hi.interrupts
    unfold waiting at hacc
    rw [hno, if_neg Bool.false_ne_true, List.append_nil] at hacc
    rcases hcase with ⟨hhas, hin, hin', hseen, hirq⟩ | ⟨f, hfor, hin, hseen, hhas, hframe, hirq⟩
    · have hacc' : s'.accepted = s.accepted := by
        unfold Link.accepted
        rw [hseen, List.filter_append, filter_read hdrop, List.append_nil]
      refine ⟨?_, ?_, ?_, by rw [hirq, hacc', hint]⟩
      · rw [hin']
        nofun
      · rw [harr, hi.arrived, hseen, hin', hin]
        simp [Function.comp_def]
      · unfold waiting
        rw [hacc', hacc, hfetched, hhas, if_neg Bool.false_ne_true, List.append_nil]
    · have hacc' : s'.accepted = s.accepted ++ [f.take FRAME_SIZE] := by
        unfold Link.accepted
        rw [hseen, List.map_append, List.filter_append, List.filter_append, filter_read hdrop,
          List.nil_append, List.map_append]
        simp [hfor]
      refine ⟨?_, ?_, ?_, ?_⟩
      · intro g hg
        refine hi.long g ?_
        rw [hin]
        exact List.mem_append_right _ (List.mem_cons_of_mem _ hg)
      · rw [harr, hi.arrived, hseen, hin]
        simp [Function.comp_def]
      · unfold waiting
        rw [hacc', hacc, hfetched, hhas, if_pos rfl, hframe]
      · rw [hirq, hacc', hint, List.length_append]
        rfl

/-- A store that is no command leaves the received frame alone. -/
theorem store_frame (d : EthernetDevice) (v : UInt32) {r : EthReg} (hr : r ≠ .receive_size) :
    (d.store v r).frame = d.frame ∧ (d.store v r).has_frame = d.has_frame := by
  cases r with
  | receive_size => exact absurd rfl hr
  | _ => exact ⟨rfl, rfl⟩

theorem Inv.store {r : EthReg} {v : UInt32} (hi : s.Inv) (hok : s.Ok (.store r v))
    (h : s.next (.store r v) = some s') : s'.Inv := by
  obtain ⟨hframe, hhas⟩ := store_frame s.dev v hok
  have hacc := hi.accepted
  unfold next register_access_callback at h
  dsimp only at h
  split at h
  · cases h
  · split at h
    · split at h
      · -- the frame that waits is fetched
        obtain ⟨d, hd, rfl⟩ := Option.map_eq_some_iff.mp h
        unfold EthernetDevice.fetch at hd
        split at hd
        · rename_i hcond
          cases hd
          refine ⟨hi.long, hi.arrived, ?_, hi.interrupts⟩
          unfold waiting at hacc
          rw [← hhas, hcond.1, if_pos rfl] at hacc
          show s.accepted = (s.fetched ++ [(s.dev.store v r).frame]) ++ []
          rw [hframe, hacc, List.append_nil]
        · cases hd
      · split at h
        · obtain ⟨p, hp, rfl⟩ := Option.map_eq_some_iff.mp h
          have hsame : p.1.frame = (s.dev.store v r).frame ∧
              p.1.has_frame = (s.dev.store v r).has_frame := by
            rw [(EthernetDevice.send_raw_frame_eq_some hp).2.1]
            split <;> exact ⟨rfl, rfl⟩
          refine ⟨hi.long, hi.arrived, ?_, hi.interrupts⟩
          show s.accepted = s.fetched ++ if p.1.has_frame then [p.1.frame] else []
          rw [hsame.1, hsame.2, hframe, hhas]
          exact hacc
        · cases h
    · cases h
      refine ⟨hi.long, hi.arrived, ?_, hi.interrupts⟩
      show s.accepted = s.fetched ++ if (s.dev.store v r).has_frame then [(s.dev.store v r).frame] else []
      rw [hframe, hhas]
      exact hacc

end Link

variable {d : EthernetDevice} {s s' : Link}

theorem ethernet_inv (hd : d.has_frame = false) (h : (ethernet d).ReachBy Link.Ok s) : s.Inv := by
  refine h.invariant ?_ ?_
  · rintro s rfl
    refine ⟨nofun, rfl, ?_, rfl⟩
    show [] = [] ++ if d.has_frame then [d.frame] else []
    rw [hd]
    rfl
  · intro s a s' hi hok hnext
    cases a with
    | arrive frame => exact hi.arrive hok hnext
    | poll => exact hi.poll hnext
    | store r v => exact hi.store hok hnext

/-- **Delivery**: of the frames that have come, those for us are fetched once each, in the order
they came and up to the size of the buffer, but for one that may wait and those not read yet; there
is an interrupt for each; and a round goes on reading until a frame waits or none is left. -/
theorem ethernet_delivers (hd : d.has_frame = false) (h : (ethernet d).ReachBy Link.Ok s) :
    s.fetched ++ s.waiting = s.accepted ∧ s.seen.map Prod.fst ++ s.incoming = s.arrived ∧
      s.interrupts = s.accepted.length ∧
      ∀ s', s.next .poll = some s' → s'.dev.has_frame = true ∨ s'.incoming = [] := by
  have hi := ethernet_inv hd h
  refine ⟨hi.accepted.symm, hi.arrived.symm, hi.interrupts, fun s' hs' => ?_⟩
  rcases Link.poll_cases hi.long hs' with ⟨hhas, rfl⟩ | ⟨-, -, -, -, _, -, hcase⟩
  · exact Or.inl hhas
  · rcases hcase with ⟨-, -, hin, -⟩ | ⟨_, -, -, -, hhas, -⟩
    · exact Or.inr hin
    · exact Or.inl hhas

/-- A device with 64 bytes of RAM. -/
def smallDevice (has_frame : Bool) : EthernetDevice :=
  .create (List.replicate 64 7) [2, 0, 0, 0, 0, 1] [0, 0] [] has_frame

/-- A frame from another device to `smallDevice`. -/
def shortFrame : List UInt8 := [2, 0, 0, 0, 0, 1, 2, 0, 0, 0, 0, 2, 8, 0]

theorem ethernet_delivers_one : ∃ s, (ethernet (smallDevice false)).ReachBy Link.Ok s ∧
    s.fetched = [shortFrame] ∧ s.fetched ++ s.waiting = s.accepted ∧
      s.seen.map Prod.fst ++ s.incoming = s.arrived ∧ s.interrupts = s.accepted.length := by
  have hrun : ((ethernet (smallDevice false)).execBy Link.Ok ⟨smallDevice false, [], [], [], [], [], 0⟩
      [.arrive shortFrame, .poll, .store .receive_dst 0x80000000, .store .status 1]).map
        Link.fetched = some [shortFrame] := by decide
  obtain ⟨s, hs, hfetched⟩ := Option.map_eq_some_iff.mp hrun
  have hreach := Machine.reachBy_execBy (.init rfl) hs
  obtain ⟨h1, h2, h3, -⟩ := ethernet_delivers rfl hreach
  exact ⟨s, hreach, hfetched, h1, h2, h3⟩

/-! ## The first frame -/

/-- The software fetches no frame, as it has not been interrupted yet. -/
def Link.NoFetch (s : Link) (a : LinkAct) : Prop :=
  s.Ok a ∧ ∀ v, a = .store .status v → v ≠ RECV_OPERATION

/-- Nothing is read while a frame seems to wait. -/
theorem deaf (hd : d.has_frame = true) (h : (ethernet d).ReachBy Link.NoFetch s) :
    s.dev.has_frame = true ∧ s.interrupts = 0 := by
  refine h.invariant (motive := fun s => s.dev.has_frame = true ∧ s.interrupts = 0) ?_ ?_
  · rintro s rfl
    exact ⟨hd, rfl⟩
  · rintro s a s' ⟨hhas, hirq⟩ ⟨hok, hno⟩ hnext
    cases a with
    | arrive frame =>
      cases hnext
      exact ⟨hhas, hirq⟩
    | poll =>
      obtain ⟨p, hp, rfl⟩ := Option.map_eq_some_iff.mp hnext
      unfold EthernetDevice.poll at hp
      rw [hhas] at hp
      split at hp <;> cases hp
      exact ⟨hhas, hirq⟩
    | store r v =>
      obtain ⟨-, hsame⟩ := Link.store_frame s.dev v hok
      change s.register_access_callback r v = some s' at hnext
      unfold Link.register_access_callback at hnext
      dsimp only at hnext
      split at hnext
      · cases hnext
      · split at hnext
        · rename_i hr
          subst hr
          rw [if_neg (hno v rfl)] at hnext
          split at hnext
          · obtain ⟨p, hp, rfl⟩ := Option.map_eq_some_iff.mp hnext
            refine ⟨?_, hirq⟩
            show p.1.has_frame = true
            rw [(EthernetDevice.send_raw_frame_eq_some hp).2.1]
            split <;> exact hhas
          · cases hnext
        · cases hnext
          exact ⟨hsame.trans hhas, hirq⟩

/-- A frame to all. -/
def broadcast (source : List UInt8) : List UInt8 := BROADCAST_MAC_ADDRESS ++ source ++ [8, 0]

/-- Some address is another one. -/
theorem exists_source (mac : List UInt8) : ∃ source : List UInt8, source.length = 6 ∧ source ≠ mac := by
  by_cases h : mac = List.replicate 6 0
  · exact ⟨List.replicate 6 1, rfl, by rw [h]; decide⟩
  · exact ⟨List.replicate 6 0, rfl, Ne.symm h⟩

theorem isPacketForUs_broadcast {mac source : List UInt8} (hlen : source.length = 6)
    (hne : source ≠ mac) : isPacketForUs mac (broadcast source) = true := by
  match source, hlen with
  | [a, b, c, d, e, f], _ => exact (isPacketForUs_iff _ _).mpr ⟨Or.inr ⟨rfl, hne⟩, Or.inl rfl⟩

/-- **The first interrupt**: software that waits for it can get it exactly when `has_frame`, which
the constructor leaves as it is, happens to be false. -/
theorem ethernet_deaf (hd : d.disabled = false) :
    (∃ s, (ethernet d).ReachBy Link.NoFetch s ∧ 0 < s.interrupts) ↔ d.has_frame = false := by
  constructor
  · rintro ⟨s, hs, hirq⟩
    by_contra hhas
    have := (deaf (by simpa using hhas) hs).2
    omega
  · intro hhas
    obtain ⟨source, hlen, hne⟩ := exists_source d.VIRTUAL_MAC_ADDRESS
    have hfor := isPacketForUs_broadcast hlen hne
    have hlong : 14 ≤ (broadcast source).length := by
      simp [broadcast, BROADCAST_MAC_ADDRESS, hlen]
    have h0 : (ethernet d).ReachBy Link.NoFetch ⟨d, [], [], [], [], [], 0⟩ := .init rfl
    have h1 : (ethernet d).ReachBy Link.NoFetch
        ⟨d, [broadcast source], [broadcast source], [], [], [], 0⟩ :=
      .step (a := .arrive (broadcast source)) h0 ⟨hlong, nofun⟩ rfl
    have hall : ∀ f ∈ [broadcast source], 14 ≤ f.length := by
      intro f hf
      rw [List.mem_singleton.mp hf]
      exact hlong
    obtain ⟨d', rest, dropped, hrec, -⟩ := EthernetDevice.receive_spec hall hhas
    obtain ⟨s', hs'⟩ : ∃ s', (ethernet d).next
        ⟨d, [broadcast source], [broadcast source], [], [], [], 0⟩ .poll = some s' := by
      refine ⟨_, congrArg (Option.map _) (?_ : d.poll [broadcast source] = some (d', rest, d'.has_frame))⟩
      unfold EthernetDevice.poll
      rw [hd, hhas, hrec]
      rfl
    refine ⟨s', h1.step (a := .poll) ⟨trivial, nofun⟩ hs', ?_⟩
    rcases Link.poll_cases hall hs' with ⟨hhas', -⟩ | ⟨-, -, -, -, dropped, hdrop, hcase⟩
    · exact absurd (hhas'.symm.trans hhas) (by decide)
    · rcases hcase with ⟨-, hin, -⟩ | ⟨f, -, -, -, -, -, hirq⟩
      · have hmem : broadcast source ∈ dropped := by
          rw [← hin]
          exact List.mem_singleton_self _
        exact absurd (hfor.symm.trans (hdrop _ hmem)) (by decide)
      · rw [hirq]
        exact Nat.succ_pos _

theorem ethernet_deaf_small :
    (¬ ∃ s, (ethernet (smallDevice true)).ReachBy Link.NoFetch s ∧ 0 < s.interrupts) ∧
      ∃ s, (ethernet (smallDevice false)).ReachBy Link.NoFetch s ∧ 0 < s.interrupts :=
  ⟨fun h => absurd ((ethernet_deaf rfl).mp h) (by decide), (ethernet_deaf rfl).mpr rfl⟩

/-! ## From RAM to RAM -/

/-- **A frame on its way**: what `a` sends and the filter of `b` lets through is in the memory of
`b` once it is fetched, padded with zeros. -/
theorem ethernet_link {a a' b : EthernetDevice} {frame : List UInt8}
    (hsend : a.send_raw_frame = some (a', frame)) (hsize : a.send_size.toNat ≤ FRAME_SIZE)
    (hfor : isPacketForUs b.VIRTUAL_MAC_ADDRESS frame = true) (hen : b.disabled = false)
    (hidle : b.has_frame = false)
    (hroom : EthernetDevice.memIndex b.receive_dst + max 60 a.send_size.toNat ≤ b.mem.length) :
    (((b.poll [frame]).bind fun p => p.1.fetch).map EthernetDevice.mem) =
      some (splice b.mem (EthernetDevice.memIndex b.receive_dst)
        (slice a.mem (EthernetDevice.memIndex a.send_src)
            (EthernetDevice.memIndex a.send_src + a.send_size.toNat) ++
          List.replicate (60 - a.send_size.toNat) 0)) := by
  obtain ⟨hin, -, hframe, -⟩ := EthernetDevice.send_raw_frame_eq_some hsend
  dsimp only at hframe
  have hlen : frame.length = max 60 a.send_size.toNat := by
    rw [hframe, List.length_append, slice_length hin, List.length_replicate]
    omega
  have htake : frame.take FRAME_SIZE = frame := by
    apply List.take_of_length_le
    rw [hlen]
    exact Nat.max_le.mpr ⟨by decide, hsize⟩
  have hall : ∀ f ∈ [frame], 14 ≤ f.length := by
    intro f hf
    rw [List.mem_singleton.mp hf, hlen]
    omega
  obtain ⟨d, rest, dropped, hrec, -, hmem, hdst, -, hdrop, hend⟩ :=
    EthernetDevice.receive_spec hall hidle
  rcases hend with ⟨-, -, hdropped⟩ | ⟨f, -, hf, hhas, hwait, hgot⟩
  · have hmem : frame ∈ dropped := by
      rw [← hdropped]
      exact List.mem_singleton_self _
    exact absurd (hfor.symm.trans (hdrop _ hmem)) (by decide)
  · have hf : f = frame := by
      cases dropped with
      | nil =>
        cases hf
        rfl
      | cons g gs => simp at hf
    rw [hf, htake] at hwait
    have hpoll : b.poll [frame] = some (d, rest, d.has_frame) := by
      unfold EthernetDevice.poll
      rw [hen, hidle, hrec]
      rfl
    rw [hf, htake, hlen] at hgot
    have hcond : d.has_frame = true ∧ d.receive_size.toNat ≤ FRAME_SIZE ∧
        EthernetDevice.memIndex d.receive_dst + d.receive_size.toNat ≤ d.mem.length := by
      rw [hgot, hdst, hmem]
      exact ⟨hhas, Nat.max_le.mpr ⟨by decide, hsize⟩, hroom⟩
    rw [hpoll, Option.bind_some]
    unfold EthernetDevice.fetch
    rw [if_pos hcond, Option.map_some]
    show some (splice d.mem (EthernetDevice.memIndex d.receive_dst) d.frame) = _
    rw [hwait, hframe, hmem, hdst]

/-- `smallDevice` about to fetch to the start of RAM. -/
def receiver : EthernetDevice := { smallDevice false with receive_dst := 0x80000000 }

/-- A device about to send `shortFrame`. -/
def sender : EthernetDevice :=
  { EthernetDevice.create shortFrame [2, 0, 0, 0, 0, 2] [0, 0] [] false with
    send_src := 0x80000000, send_size := 14 }

theorem ethernet_link_short :
    ((receiver.poll [shortFrame ++ List.replicate 46 0]).bind fun p => p.1.fetch).map
      EthernetDevice.mem = some (shortFrame ++ List.replicate 46 0 ++ List.replicate 4 7) := by
  have hsend : sender.send_raw_frame =
      some ({ sender with send_size := 60 }, shortFrame ++ List.replicate 46 0) := rfl
  exact (ethernet_link hsend (by decide) (by decide) rfl rfl (by decide)).trans (by decide)

/-- The index of an address of RAM in `mem`. -/
def ramIndex (opt : BasicOptions) (addr : UInt32) : Nat := (addr - opt.mem_start_addr).toNat

/-- **Where a frame lands**: at the indices from `receive_dst - 0x80000000` on. Where every address
has one port only and there is RAM, the index of `receive_dst` is another one. -/
theorem receive_lands {framebuffer : UInt32} {opt : BasicOptions}
    (hun : BasicOptions.Unambiguous framebuffer opt) {d d' : EthernetDevice}
    (hf : d.fetch = some d') {addr : UInt32}
    (ha : (BasicOptions.ports framebuffer opt 0).contains addr) :
    (d'.mem[ramIndex opt addr]? =
      if EthernetDevice.memIndex d.receive_dst ≤ ramIndex opt addr ∧
          ramIndex opt addr < EthernetDevice.memIndex d.receive_dst + d.frame.length then
        d.frame[ramIndex opt addr - EthernetDevice.memIndex d.receive_dst]?
      else d.mem[ramIndex opt addr]?) ∧
    ramIndex opt d.receive_dst ≠ EthernetDevice.memIndex d.receive_dst := by
  unfold EthernetDevice.fetch at hf
  split at hf <;> cases hf
  rename_i hcond
  refine ⟨?_, ?_⟩
  · refine getElem?_splice ?_ _
    have : d.frame.length ≤ d.receive_size.toNat := List.length_take_le _ _
    omega
  · intro heq
    have hstart : opt.mem_start_addr = 0x80000000 := by
      have := UInt32.toNat_inj.mp heq
      exact (UInt32.sub_right_inj _).mp this
    obtain ⟨hle, hge⟩ := ha
    have h0 : (BasicOptions.ports framebuffer opt 0).contains 0x80000000 := by
      refine ⟨?_, ?_⟩
      · rw [← hstart]
        exact UInt32.le_refl _
      · rw [← hstart]
        exact UInt32.le_trans hle hge
    have h19 : (BasicOptions.ports framebuffer opt 19).contains 0x80000000 :=
      show (BasicOptions.mergePort BasicOptions.mergew8_3_start_addr).contains 0x80000000 by decide
    exact absurd (hun _ 0 19 h0 h19) (by decide)

/-- At default options a frame for `0x80000000`, which is not RAM, lands at the start of RAM. -/
theorem receive_lands_default : ∃ d', EthernetDevice.fetch { receiver with
      has_frame := true, receive_size := 2, recv_frame_buf := [8, 9] } = some d' ∧
    d'.mem[ramIndex {} 0]? = some 8 ∧
      ramIndex {} receiver.receive_dst ≠ EthernetDevice.memIndex receiver.receive_dst := by
  have hparse : BasicOptions.parse 0x100000 0 0x2000000 0x10000000 = some {} := by decide
  have hclear : BasicOptions.ClearOfPes 0 0x2000000 := Or.inr (Or.inl (by decide))
  have hun : BasicOptions.Unambiguous 0x100000 {} := by
    intro addr i j hai haj
    by_cases hi : i = 0
    · by_cases hj : j = 0
      · rw [hi, hj]
      · subst hi
        exact absurd haj (BasicOptions.ram_apart (by decide) hparse hclear hj hai)
    · by_cases hj : j = 0
      · subst hj
        exact absurd hai (BasicOptions.ram_apart (by decide) hparse hclear hi haj)
      · exact BasicOptions.ports_apart (by decide) hparse hi hj hai haj
  obtain ⟨h1, h2⟩ := receive_lands hun (d := { receiver with
    has_frame := true, receive_size := 2, recv_frame_buf := [8, 9] }) rfl
    (show (BasicOptions.ports 0x100000 {} 0).contains 0 by decide)
  exact ⟨_, rfl, h1.trans (by decide), h2⟩

end SortPlatform.Vp

import Mathlib.Data.Fin.VecNotation
import Mathlib.Data.UInt
import Mathlib.Tactic.FinCases

/-!
# The address map of the virtual platform

`BasicOptions` and the port table of `sc_main` in `src/vp/basic-final/main.cpp`. Addresses are
`unsigned int`. `sizeof(Framebuffer)` comes from a header outside the repository and is a
parameter, as is the test `start ≤ addr ≤ end` of `PortMapping`.

Principal results:

* `port_in_window` — every port but RAM stays inside its own window of the address space.
* `unambiguous_iff` — for accepted options decoding is unambiguous exactly when RAM stays clear
  of the PE windows, which the assertions of `parse` do not check.
-/

set_option autoImplicit false

namespace SortPlatform.Vp

/-! ## Options and ports -/

/-- `PortMapping(start, end)`. -/
structure PortMapping where
  start : UInt32
  «end» : UInt32
  deriving DecidableEq, Repr

/-- The addresses a port answers to. -/
def PortMapping.contains (p : PortMapping) (addr : UInt32) : Prop :=
  p.start ≤ addr ∧ addr ≤ p.end

instance (p : PortMapping) (addr : UInt32) : Decidable (p.contains addr) :=
  inferInstanceAs (Decidable (_ ∧ _))

namespace BasicOptions

def clint_start_addr : UInt32 := 0x02000000
def clint_end_addr : UInt32 := 0x0200ffff
def sys_start_addr : UInt32 := 0x02010000
def sys_end_addr : UInt32 := 0x020103ff
def term_start_addr : UInt32 := 0x20000000
def term_end_addr : UInt32 := term_start_addr + 16
def ethernet_start_addr : UInt32 := 0x30000000
def ethernet_end_addr : UInt32 := ethernet_start_addr + 1500
def plic_start_addr : UInt32 := 0x40000000
def plic_end_addr : UInt32 := 0x41000000
def sensor_start_addr : UInt32 := 0x50000000
def sensor_end_addr : UInt32 := 0x50001000
def sensor2_start_addr : UInt32 := 0x50002000
def sensor2_end_addr : UInt32 := 0x50004000
def mram_start_addr : UInt32 := 0x60000000
def dma_start_addr : UInt32 := 0x70000000
def dma_end_addr : UInt32 := 0x70001000

/-- `Flashcontroller::ADDR_SPACE`: two 64-bit registers and a block of 512 bytes. -/
def flash_addr_space : UInt32 := 8 + 8 + 512

def flash_start_addr : UInt32 := 0x71000000
def flash_end_addr : UInt32 := flash_start_addr + flash_addr_space
def display_start_addr : UInt32 := 0x72000000

/-- `display_start_addr + sizeof(Framebuffer)`. -/
def display_end_addr (framebuffer : UInt32) : UInt32 := display_start_addr + framebuffer

def mergew1_0_start_addr : UInt32 := 0x73000000
def mergew8_0_start_addr : UInt32 := 0x74000000
def mergew1_1_start_addr : UInt32 := 0x75000000
def mergew8_1_start_addr : UInt32 := 0x76000000
def mergew1_2_start_addr : UInt32 := 0x77000000
def mergew8_2_start_addr : UInt32 := 0x78000000
def mergew1_3_start_addr : UInt32 := 0x79000000
def mergew8_3_start_addr : UInt32 := 0x80000000

/-- The common size of the PE windows. -/
def merge_size : UInt32 := 0x01000000

end BasicOptions

/-- What the command line determines. -/
structure BasicOptions where
  mem_start_addr : UInt32 := 0x00000000
  mem_size : UInt32 := 1024 * 1024 * 32
  mem_end_addr : UInt32 := mem_start_addr + mem_size - 1
  mram_size : UInt32 := 0x10000000
  mram_end_addr : UInt32 := BasicOptions.mram_start_addr + mram_size - 1
  deriving DecidableEq, Repr

namespace BasicOptions

/-- `parse` with the values of `memory-start`, `memory-size` and `mram-image-size`; `none` when
an assertion fails. -/
def parse (framebuffer mem_start_addr mem_size mram_size : UInt32) : Option BasicOptions :=
  let mem_end_addr := mem_start_addr + mem_size - 1
  if mem_end_addr < clint_start_addr ∨ mem_start_addr > display_end_addr framebuffer then
    let mram_end_addr := mram_start_addr + mram_size - 1
    if mram_end_addr < dma_start_addr then
      some ⟨mem_start_addr, mem_size, mem_end_addr, mram_size, mram_end_addr⟩
    else none
  else none

/-- `PortMapping(start, start + size - 1)` of a PE window. -/
def mergePort (start : UInt32) : PortMapping := ⟨start, start + merge_size - 1⟩

/-- `bus.ports[0..19]`. -/
def ports (framebuffer : UInt32) (opt : BasicOptions) : Fin 20 → PortMapping := ![
  ⟨opt.mem_start_addr, opt.mem_end_addr⟩,
  ⟨clint_start_addr, clint_end_addr⟩,
  ⟨plic_start_addr, plic_end_addr⟩,
  ⟨term_start_addr, term_end_addr⟩,
  ⟨sensor_start_addr, sensor_end_addr⟩,
  ⟨dma_start_addr, dma_end_addr⟩,
  ⟨sensor2_start_addr, sensor2_end_addr⟩,
  ⟨mram_start_addr, opt.mram_end_addr⟩,
  ⟨flash_start_addr, flash_end_addr⟩,
  ⟨ethernet_start_addr, ethernet_end_addr⟩,
  ⟨display_start_addr, display_end_addr framebuffer⟩,
  ⟨sys_start_addr, sys_end_addr⟩,
  mergePort mergew1_0_start_addr,
  mergePort mergew8_0_start_addr,
  mergePort mergew1_1_start_addr,
  mergePort mergew8_1_start_addr,
  mergePort mergew1_2_start_addr,
  mergePort mergew8_2_start_addr,
  mergePort mergew1_3_start_addr,
  mergePort mergew8_3_start_addr]

/-- No address lies in two ports. -/
def Unambiguous (framebuffer : UInt32) (opt : BasicOptions) : Prop :=
  ∀ addr i j, (ports framebuffer opt i).contains addr → (ports framebuffer opt j).contains addr →
    i = j

/-- RAM is empty, below the PE windows, above them, or in the gap between the seventh and the
eighth; its last address is taken modulo 2^32. -/
def ClearOfPes (mem_start_addr mem_size : UInt32) : Prop :=
  let last := mem_start_addr + mem_size - 1
  last < mem_start_addr ∨ last < mergew1_0_start_addr ∨
    mergew8_3_start_addr + merge_size - 1 < mem_start_addr ∨
    (mergew1_3_start_addr + merge_size - 1 < mem_start_addr ∧ last < mergew8_3_start_addr)

/-- What a successful `parse` establishes. -/
theorem parse_eq_some {framebuffer mem_start_addr mem_size mram_size : UInt32}
    {opt : BasicOptions}
    (h : parse framebuffer mem_start_addr mem_size mram_size = some opt) :
    opt.mem_start_addr = mem_start_addr ∧ opt.mem_end_addr = mem_start_addr + mem_size - 1 ∧
      (opt.mem_end_addr < clint_start_addr ∨ display_end_addr framebuffer < opt.mem_start_addr) ∧
      opt.mram_end_addr < dma_start_addr := by
  unfold parse at h
  dsimp only at h
  split at h
  · rename_i hmem
    split at h
    · rename_i hmram
      cases h
      exact ⟨rfl, rfl, hmem, hmram⟩
    · cases h
  · cases h

/-! ## Windows -/

/-- The part of the address space set aside for each port; RAM has the whole of it. -/
def window : Fin 20 → Nat × Nat := ![
  (0, 0xffffffff), (0x02000000, 0x0200ffff), (0x40000000, 0x41000000), (0x20000000, 0x20000010),
  (0x50000000, 0x50001000), (0x70000000, 0x70001000), (0x50002000, 0x50004000),
  (0x60000000, 0x6fffffff), (0x71000000, 0x71000210), (0x30000000, 0x300005dc),
  (0x72000000, 0x72ffffff), (0x02010000, 0x020103ff), (0x73000000, 0x73ffffff),
  (0x74000000, 0x74ffffff), (0x75000000, 0x75ffffff), (0x76000000, 0x76ffffff),
  (0x77000000, 0x77ffffff), (0x78000000, 0x78ffffff), (0x79000000, 0x79ffffff),
  (0x80000000, 0x80ffffff)]

/-- Windows other than RAM's are apart. -/
theorem window_apart : ∀ i j : Fin 20, i ≠ 0 → j ≠ 0 → i ≠ j →
    (window i).2 < (window j).1 ∨ (window j).2 < (window i).1 := by decide

/-- Windows other than RAM's begin at the CLINT or above. -/
theorem clint_le_window : ∀ i : Fin 20, i ≠ 0 → clint_start_addr.toNat ≤ (window i).1 := by decide

/-- Windows other than RAM's and the display's end below the display or are PE windows. -/
theorem window_cases : ∀ i : Fin 20, i ≠ 0 → i ≠ 10 → (window i).2 < 0x72000000 ∨
    (0x73000000 ≤ (window i).1 ∧ (window i).2 ≤ 0x79ffffff) ∨
    (0x80000000 ≤ (window i).1 ∧ (window i).2 ≤ 0x80ffffff) := by decide

section Accepted

variable {framebuffer mem_start_addr mem_size mram_size : UInt32} {opt : BasicOptions}

theorem contains_iff {p : PortMapping} {addr : UInt32} :
    p.contains addr ↔ p.start.toNat ≤ addr.toNat ∧ addr.toNat ≤ p.end.toNat := by
  rw [PortMapping.contains, UInt32.le_iff_toNat_le, UInt32.le_iff_toNat_le]

theorem display_end_toNat (hfb : 0x72000000 + framebuffer.toNat < 0x73000000) :
    (display_end_addr framebuffer).toNat = 0x72000000 + framebuffer.toNat := by
  rw [display_end_addr, UInt32.toNat_add, show display_start_addr.toNat = 0x72000000 from rfl]
  exact Nat.mod_eq_of_lt (by omega)

/-- The ports that do not depend on the options, here at default options. -/
theorem fixed_ports : ∀ i : Fin 20, i ≠ 0 → i ≠ 7 → i ≠ 10 →
    (window i).1 = (ports 0 {} i).start.toNat ∧ (ports 0 {} i).end.toNat = (window i).2 := by
  decide

theorem ports_eq_default {i : Fin 20} (hi : i ≠ 0) (hi7 : i ≠ 7) (hi10 : i ≠ 10) :
    ports framebuffer opt i = ports 0 {} i := by
  fin_cases i <;> first | contradiction | simp [ports]

/-- **Every port but RAM stays inside its window.** -/
theorem port_in_window (hfb : 0x72000000 + framebuffer.toNat < 0x73000000)
    (h : parse framebuffer mem_start_addr mem_size mram_size = some opt) {i : Fin 20}
    (hi : i ≠ 0) {addr : UInt32} (ha : (ports framebuffer opt i).contains addr) :
    (window i).1 ≤ addr.toNat ∧ addr.toNat ≤ (window i).2 := by
  rw [contains_iff] at ha
  by_cases hi7 : i = 7
  · subst hi7
    have hstart : 0x60000000 ≤ addr.toNat := ha.1
    have hend : addr.toNat ≤ opt.mram_end_addr.toNat := ha.2
    have hmram : opt.mram_end_addr.toNat < 0x70000000 :=
      UInt32.lt_iff_toNat_lt.mp (parse_eq_some h).2.2.2
    show 0x60000000 ≤ addr.toNat ∧ addr.toNat ≤ 0x6fffffff
    omega
  by_cases hi10 : i = 10
  · subst hi10
    have hstart : 0x72000000 ≤ addr.toNat := ha.1
    have hend : addr.toNat ≤ (display_end_addr framebuffer).toNat := ha.2
    rw [display_end_toNat hfb] at hend
    show 0x72000000 ≤ addr.toNat ∧ addr.toNat ≤ 0x72ffffff
    omega
  rw [ports_eq_default hi hi7 hi10] at ha
  have hw := fixed_ports i hi hi7 hi10
  omega

/-- Two ports other than RAM share no address. -/
theorem ports_apart (hfb : 0x72000000 + framebuffer.toNat < 0x73000000)
    (h : parse framebuffer mem_start_addr mem_size mram_size = some opt) {i j : Fin 20}
    (hi : i ≠ 0) (hj : j ≠ 0) {addr : UInt32} (hai : (ports framebuffer opt i).contains addr)
    (haj : (ports framebuffer opt j).contains addr) : i = j := by
  by_contra hne
  have hwi := port_in_window hfb h hi hai
  have hwj := port_in_window hfb h hj haj
  have := window_apart i j hi hj hne
  omega

theorem clearOfPes_iff (h : parse framebuffer mem_start_addr mem_size mram_size = some opt) :
    ClearOfPes mem_start_addr mem_size ↔
      opt.mem_end_addr.toNat < opt.mem_start_addr.toNat ∨
      opt.mem_end_addr.toNat < 0x73000000 ∨ 0x80ffffff < opt.mem_start_addr.toNat ∨
      (0x79ffffff < opt.mem_start_addr.toNat ∧ opt.mem_end_addr.toNat < 0x80000000) := by
  obtain ⟨hstart, hend, -⟩ := parse_eq_some h
  rw [hstart, hend]
  simp only [ClearOfPes, UInt32.lt_iff_toNat_lt]
  rfl

/-- RAM clear of the PE windows is clear of every port. -/
theorem ram_apart (hfb : 0x72000000 + framebuffer.toNat < 0x73000000)
    (h : parse framebuffer mem_start_addr mem_size mram_size = some opt)
    (hc : ClearOfPes mem_start_addr mem_size)
    {j : Fin 20} (hj : j ≠ 0) {addr : UInt32} (h0 : (ports framebuffer opt 0).contains addr) :
    ¬ (ports framebuffer opt j).contains addr := by
  intro haj
  have h0' : opt.mem_start_addr.toNat ≤ addr.toNat ∧ addr.toNat ≤ opt.mem_end_addr.toNat :=
    contains_iff.mp h0
  have hwj := port_in_window hfb h hj haj
  have hclint := clint_le_window j hj
  rw [clearOfPes_iff h] at hc
  rcases (parse_eq_some h).2.2.1 with hlow | hhigh
  · have := UInt32.lt_iff_toNat_lt.mp hlow
    omega
  · -- RAM starts above the display, so the address does
    rw [UInt32.lt_iff_toNat_lt, display_end_toNat hfb] at hhigh
    by_cases hj10 : j = 10
    · subst hj10
      have hdisplay := (contains_iff.mp haj).2
      rw [show (ports framebuffer opt 10).end = display_end_addr framebuffer from rfl,
        display_end_toNat hfb] at hdisplay
      omega
    · have := window_cases j hj hj10
      omega

/-- The PE window that an address falls into. -/
def peWindow (addr : Nat) : Fin 20 :=
  if 0x80000000 ≤ addr then 19
  else if 0x79000000 ≤ addr then 18
  else if 0x78000000 ≤ addr then 17
  else if 0x77000000 ≤ addr then 16
  else if 0x76000000 ≤ addr then 15
  else if 0x75000000 ≤ addr then 14
  else if 0x74000000 ≤ addr then 13
  else 12

/-- The PE windows leave no gap but the one below the last. -/
theorem window_peWindow {a : Nat} (ha : (0x73000000 ≤ a ∧ a ≤ 0x79ffffff) ∨
    (0x80000000 ≤ a ∧ a ≤ 0x80ffffff)) :
    (window (peWindow a)).1 ≤ a ∧ a ≤ (window (peWindow a)).2 := by
  unfold peWindow
  repeat' split
  all_goals
    refine ⟨?_, ?_⟩
    · first | assumption | exact (by omega : 0x73000000 ≤ a)
    · first
        | exact (by omega : a ≤ 0x73ffffff)
        | exact (by omega : a ≤ 0x74ffffff)
        | exact (by omega : a ≤ 0x75ffffff)
        | exact (by omega : a ≤ 0x76ffffff)
        | exact (by omega : a ≤ 0x77ffffff)
        | exact (by omega : a ≤ 0x78ffffff)
        | exact (by omega : a ≤ 0x79ffffff)
        | exact (by omega : a ≤ 0x80ffffff)

/-- An address of the PE range is claimed by its PE port. -/
theorem peWindow_contains {addr : UInt32}
    (ha : (0x73000000 ≤ addr.toNat ∧ addr.toNat ≤ 0x79ffffff) ∨
      (0x80000000 ≤ addr.toNat ∧ addr.toNat ≤ 0x80ffffff)) :
    peWindow addr.toNat ≠ 0 ∧ (ports framebuffer opt (peWindow addr.toNat)).contains addr := by
  rw [contains_iff]
  have hge : 12 ≤ peWindow addr.toNat := by
    unfold peWindow
    repeat' split
    all_goals decide
  have hne : ∀ i : Fin 20, i < 12 → peWindow addr.toNat ≠ i := by omega
  have hfix := fixed_ports _ (hne 0 (by decide)) (hne 7 (by decide)) (hne 10 (by decide))
  refine ⟨hne 0 (by decide), ?_⟩
  rw [ports_eq_default (hne 0 (by decide)) (hne 7 (by decide)) (hne 10 (by decide)), ← hfix.1,
    hfix.2]
  exact window_peWindow ha

/-- RAM not clear of the PE windows shares an address with one of them. -/
theorem ram_overlap (h : parse framebuffer mem_start_addr mem_size mram_size = some opt)
    (hc : ¬ ClearOfPes mem_start_addr mem_size) : ∃ (addr : UInt32) (j : Fin 20), j ≠ 0 ∧
      (ports framebuffer opt 0).contains addr ∧ (ports framebuffer opt j).contains addr := by
  rw [clearOfPes_iff h] at hc
  have hlt := opt.mem_end_addr.toNat_lt
  obtain ⟨a, hs, he, hpe⟩ : ∃ a, opt.mem_start_addr.toNat ≤ a ∧ a ≤ opt.mem_end_addr.toNat ∧
      ((0x73000000 ≤ a ∧ a ≤ 0x79ffffff) ∨ (0x80000000 ≤ a ∧ a ≤ 0x80ffffff)) := by
    by_cases hlow : opt.mem_start_addr.toNat ≤ 0x79ffffff
    · exact ⟨max opt.mem_start_addr.toNat 0x73000000, by omega, by omega, by omega⟩
    · exact ⟨max opt.mem_start_addr.toNat 0x80000000, by omega, by omega, by omega⟩
  have haN : (UInt32.ofNat a).toNat = a := UInt32.toNat_ofNat_of_lt' (Nat.lt_of_le_of_lt he hlt)
  rw [← haN] at hs he hpe
  have hport := @peWindow_contains framebuffer opt _ hpe
  exact ⟨_, _, hport.1, contains_iff.mpr ⟨hs, he⟩, hport.2⟩

/-- **Address decoding is unambiguous exactly when RAM stays clear of the PE windows.** -/
theorem unambiguous_iff (framebuffer mem_start_addr mem_size mram_size : UInt32)
    (opt : BasicOptions) (hfb : 0x72000000 + framebuffer.toNat < 0x73000000)
    (h : parse framebuffer mem_start_addr mem_size mram_size = some opt) :
    Unambiguous framebuffer opt ↔ ClearOfPes mem_start_addr mem_size := by
  constructor
  · intro hu
    by_contra hc
    obtain ⟨addr, j, hj, h0, haj⟩ := ram_overlap h hc
    exact hj (hu addr j 0 haj h0)
  · intro hc addr i j hai haj
    by_cases hi : i = 0
    · by_cases hj : j = 0
      · rw [hi, hj]
      · subst hi
        exact absurd haj (ram_apart hfb h hc hj hai)
    · by_cases hj : j = 0
      · subst hj
        exact absurd hai (ram_apart hfb h hc hi haj)
      · exact ports_apart hfb h hi hj hai haj

/-- Default options with a framebuffer of one mebibyte. -/
theorem unambiguous_iff_default : parse 0x100000 0 0x2000000 0x10000000 = some {} ∧
    (Unambiguous 0x100000 {} ↔ ClearOfPes 0 0x2000000) :=
  ⟨by decide, unambiguous_iff 0x100000 0 0x2000000 0x10000000 {} (by decide) (by decide)⟩

/-- 16 MiB of RAM at `0x73000000` are accepted and cover the window of `mergeW1_0`. -/
theorem ram_over_mergeW1_0 : ∃ opt, parse 0x100000 0x73000000 0x1000000 0x10000000 = some opt ∧
    (ports 0x100000 opt 0).contains 0x73000000 ∧ (ports 0x100000 opt 12).contains 0x73000000 ∧
    ¬ Unambiguous 0x100000 opt := by
  refine ⟨_, rfl, by decide, by decide, fun hu => ?_⟩
  exact absurd (hu 0x73000000 0 12 (by decide) (by decide)) (by decide)

end Accepted

end BasicOptions

end SortPlatform.Vp

import Mathlib.Logic.Function.Basic
import SortPlatform.Lib.Machine

/-!
# RV32A: load-reserved and store-conditional

Straight blocks of the instructions `lr.w`, `sc.w`, `addi`, `beqz` and `bnez`.

* `Instr.exec` — one instruction of one hart; the flag lets an `sc.w` fail spuriously.
* `Core.observe` — what another hart's access does to a hart's reservation.
* `blockMachine` — a hart that executes a block once, among stores of other harts at any word
  and any time.

An access to an address that is not a multiple of four traps: the instruction has no successor.
-/

set_option autoImplicit false

namespace Rv32a

abbrev Word32 := BitVec 32

/-- `x0`, …, `x31`. -/
abbrev Reg := Fin 32

abbrev Reg.a3 : Reg := 13

abbrev Reg.a4 : Reg := 14

abbrev Reg.a5 : Reg := 15

theorem Reg.a3_ne_zero : Reg.a3 ≠ 0 := by decide

theorem Reg.a4_ne_zero : Reg.a4 ≠ 0 := by decide

theorem Reg.a5_ne_zero : Reg.a5 ≠ 0 := by decide

theorem Reg.a5_ne_a4 : Reg.a5 ≠ Reg.a4 := by decide

inductive Instr where
  /-- `lr.w rd, (rs1)` -/
  | lr_w (rd rs1 : Reg)
  /-- `sc.w rd, rs2, (rs1)` -/
  | sc_w (rd rs2 rs1 : Reg)
  | addi (rd rs1 : Reg) (imm : BitVec 12)
  | beqz (rs1 : Reg) (target : Nat)
  | bnez (rs1 : Reg) (target : Nat)
  deriving DecidableEq, Repr

/-- A hart: the index of its next instruction, its registers, and the address it has reserved. -/
structure Core where
  pc : Nat
  regs : Reg → Word32
  reservation : Option Word32

/-- An access that took effect. -/
inductive MemAccess where
  | load (addr value : Word32)
  | store (addr value : Word32)
  deriving DecidableEq, Repr

/-! ## Registers -/

namespace Core

/-- A register's value; `x0` is zero. -/
def reg (c : Core) (r : Reg) : Word32 := if r = 0 then 0 else c.regs r

def setReg (c : Core) (r : Reg) (v : Word32) : Core := { c with regs := Function.update c.regs r v }

def goto (c : Core) (target : Nat) : Core := { c with pc := target }

def reserve (c : Core) (reservation : Option Word32) : Core := { c with reservation := reservation }

variable (c : Core)

theorem reg_setReg_self {r : Reg} (h : r ≠ 0) (v : Word32) : (c.setReg r v).reg r = v := by
  simp [reg, setReg, h]

theorem reg_setReg_of_ne {r r' : Reg} (h : r' ≠ r) (v : Word32) :
    (c.setReg r v).reg r' = c.reg r' := by
  simp [reg, setReg, h]

@[simp] theorem setReg_pc (r : Reg) (v : Word32) : (c.setReg r v).pc = c.pc := rfl
@[simp] theorem setReg_reservation (r : Reg) (v : Word32) :
    (c.setReg r v).reservation = c.reservation := rfl
@[simp] theorem goto_pc (target : Nat) : (c.goto target).pc = target := rfl
@[simp] theorem goto_reg (target : Nat) (r : Reg) : (c.goto target).reg r = c.reg r := rfl
@[simp] theorem goto_reservation (target : Nat) : (c.goto target).reservation = c.reservation := rfl
@[simp] theorem reserve_pc (x : Option Word32) : (c.reserve x).pc = c.pc := rfl
@[simp] theorem reserve_reg (x : Option Word32) (r : Reg) : (c.reserve x).reg r = c.reg r := rfl
@[simp] theorem reserve_reservation (x : Option Word32) : (c.reserve x).reservation = x := rfl

/-- What another hart's access does: a store to the reserved word breaks the reservation. -/
def observe (c : Core) : Option MemAccess → Core
  | some (.store addr _) => if c.reservation = some addr then c.reserve none else c
  | _ => c

@[simp] theorem observe_pc (acc : Option MemAccess) : (c.observe acc).pc = c.pc := by
  unfold observe
  split
  · split <;> rfl
  · rfl

@[simp] theorem observe_reg (acc : Option MemAccess) (r : Reg) : (c.observe acc).reg r = c.reg r := by
  unfold observe
  split
  · split <;> rfl
  · rfl

end Core

/-! ## Instructions -/

/-- Natural alignment of a word. -/
def aligned (addr : Word32) : Bool := addr % 4 == 0

/-- One instruction at `c.pc`: the hart after it and the access it made. -/
def Instr.exec (fails : Bool) (mem : Word32 → Word32) (c : Core) : Instr → Option (Core × Option MemAccess)
  | .lr_w rd rs1 =>
    let addr := c.reg rs1
    if aligned addr then
      some (((c.setReg rd (mem addr)).reserve (some addr)).goto (c.pc + 1),
        some (.load addr (mem addr)))
    else none
  | .sc_w rd rs2 rs1 =>
    let addr := c.reg rs1
    if aligned addr then
      if c.reservation = some addr ∧ fails = false then
        some (((c.setReg rd 0).reserve none).goto (c.pc + 1), some (.store addr (c.reg rs2)))
      else some (((c.setReg rd 1).reserve none).goto (c.pc + 1), none)
    else none
  | .addi rd rs1 imm =>
    some ((c.setReg rd (c.reg rs1 + imm.signExtend 32)).goto (c.pc + 1), none)
  | .beqz rs1 target => some (c.goto (if c.reg rs1 = 0 then target else c.pc + 1), none)
  | .bnez rs1 target => some (c.goto (if c.reg rs1 ≠ 0 then target else c.pc + 1), none)

/-- The address an instruction would access. -/
def Instr.address (c : Core) : Instr → Option Word32
  | .lr_w _ rs1 => some (c.reg rs1)
  | .sc_w _ _ rs1 => some (c.reg rs1)
  | _ => none

/-- The next instruction of a block; `none` at its end. -/
def step (block : List Instr) (fails : Bool) (mem : Word32 → Word32) (c : Core) :
    Option (Core × Option MemAccess) :=
  block[c.pc]?.bind (Instr.exec fails mem c)

/-- The memory after an access. -/
def write (acc : Option MemAccess) (mem : Word32 → Word32) : Word32 → Word32 :=
  match acc with
  | some (.store addr value) => Function.update mem addr value
  | _ => mem

section Exec

variable {fails : Bool} {mem : Word32 → Word32} {c c' : Core} {acc : Option MemAccess}

theorem exec_lr_w {rd rs1 : Reg} (h : (Instr.lr_w rd rs1).exec fails mem c = some (c', acc)) :
    c' = ((c.setReg rd (mem (c.reg rs1))).reserve (some (c.reg rs1))).goto (c.pc + 1) ∧
      acc = some (.load (c.reg rs1) (mem (c.reg rs1))) := by
  simp only [Instr.exec] at h
  split at h
  · cases h
    exact ⟨rfl, rfl⟩
  · cases h

/-- An `sc.w` stores and writes zero, or does not store and writes one. -/
theorem exec_sc_w {rd rs2 rs1 : Reg}
    (h : (Instr.sc_w rd rs2 rs1).exec fails mem c = some (c', acc)) :
    (c.reservation = some (c.reg rs1) ∧
      c' = ((c.setReg rd 0).reserve none).goto (c.pc + 1) ∧
      acc = some (.store (c.reg rs1) (c.reg rs2))) ∨
    (c' = ((c.setReg rd 1).reserve none).goto (c.pc + 1) ∧ acc = none) := by
  simp only [Instr.exec] at h
  split at h
  · split at h
    · rename_i hok
      cases h
      exact Or.inl ⟨hok.1, rfl, rfl⟩
    · cases h
      exact Or.inr ⟨rfl, rfl⟩
  · cases h

/-- With the reservation intact an `sc.w` stores, unless it fails spuriously. -/
theorem exec_sc_w_intact {rd rs2 rs1 : Reg} (hres : c.reservation = some (c.reg rs1))
    (h : (Instr.sc_w rd rs2 rs1).exec false mem c = some (c', acc)) :
    c' = ((c.setReg rd 0).reserve none).goto (c.pc + 1) ∧
      acc = some (.store (c.reg rs1) (c.reg rs2)) := by
  simp only [Instr.exec] at h
  split at h
  · rw [if_pos ⟨hres, trivial⟩] at h
    cases h
    exact ⟨rfl, rfl⟩
  · cases h

theorem exec_addi {rd rs1 : Reg} {imm : BitVec 12}
    (h : (Instr.addi rd rs1 imm).exec fails mem c = some (c', acc)) :
    c' = (c.setReg rd (c.reg rs1 + imm.signExtend 32)).goto (c.pc + 1) ∧ acc = none := by
  cases h
  exact ⟨rfl, rfl⟩

theorem exec_beqz {rs1 : Reg} {target : Nat}
    (h : (Instr.beqz rs1 target).exec fails mem c = some (c', acc)) :
    ((c.reg rs1 = 0 ∧ c' = c.goto target) ∨ (c.reg rs1 ≠ 0 ∧ c' = c.goto (c.pc + 1))) ∧
      acc = none := by
  cases h
  refine ⟨?_, rfl⟩
  by_cases h0 : c.reg rs1 = 0
  · exact Or.inl ⟨h0, by rw [if_pos h0]⟩
  · exact Or.inr ⟨h0, by rw [if_neg h0]⟩

theorem exec_bnez {rs1 : Reg} {target : Nat}
    (h : (Instr.bnez rs1 target).exec fails mem c = some (c', acc)) :
    ((c.reg rs1 ≠ 0 ∧ c' = c.goto target) ∨ (c.reg rs1 = 0 ∧ c' = c.goto (c.pc + 1))) ∧
      acc = none := by
  cases h
  refine ⟨?_, rfl⟩
  by_cases h0 : c.reg rs1 = 0
  · exact Or.inr ⟨h0, by rw [if_neg (by simpa using h0)]⟩
  · exact Or.inl ⟨h0, by rw [if_pos h0]⟩

/-- A step executes the instruction at the program counter. -/
theorem step_eq_some {block : List Instr} :
    step block fails mem c = some (c', acc) ↔
      ∃ i, block[c.pc]? = some i ∧ i.exec fails mem c = some (c', acc) :=
  Option.bind_eq_some_iff

end Exec

/-! ## The accesses of a run -/

/-- The words stored, with their addresses. -/
def storesOf (trace : List MemAccess) : List (Word32 × Word32) :=
  trace.filterMap fun
    | .store addr value => some (addr, value)
    | .load _ _ => none

/-- The value of the latest load. -/
def latest (trace : List MemAccess) : Option Word32 :=
  (trace.filterMap fun
    | .load _ value => some value
    | .store _ _ => none).getLast?

@[simp] theorem storesOf_nil : storesOf [] = [] := rfl

theorem storesOf_append (trace trace' : List MemAccess) :
    storesOf (trace ++ trace') = storesOf trace ++ storesOf trace' :=
  List.filterMap_append

@[simp] theorem storesOf_load (trace : List MemAccess) (addr value : Word32) :
    storesOf (trace ++ [.load addr value]) = storesOf trace := by
  simp [storesOf]

@[simp] theorem storesOf_store (trace : List MemAccess) (addr value : Word32) :
    storesOf (trace ++ [.store addr value]) = storesOf trace ++ [(addr, value)] := by
  simp [storesOf]

@[simp] theorem latest_load (trace : List MemAccess) (addr value : Word32) :
    latest (trace ++ [.load addr value]) = some value := by
  simp [latest]

@[simp] theorem latest_store (trace : List MemAccess) (addr value : Word32) :
    latest (trace ++ [.store addr value]) = latest trace := by
  simp [latest]

/-! ## A block among other harts -/

/-- A hart inside a block, the memory, and the accesses it has made in the block. -/
structure Run where
  core : Core
  mem : Word32 → Word32
  trace : List MemAccess

inductive Turn where
  /-- The hart's next instruction; `fails` lets an `sc.w` fail. -/
  | own (fails : Bool)
  /-- A store of another hart. -/
  | other (addr value : Word32)
  deriving DecidableEq, Repr

def Run.next (block : List Instr) (s : Run) : Turn → Option Run
  | .own fails => (step block fails s.mem s.core).map fun p =>
      ⟨p.1, write p.2 s.mem, s.trace ++ p.2.toList⟩
  | .other addr value =>
    some ⟨s.core.observe (some (.store addr value)), write (some (.store addr value)) s.mem,
      s.trace⟩

/-- The block from its first instruction, with the registers in `start`. -/
def blockMachine (block : List Instr) (start : (Reg → Word32) → Prop) : Machine Run Turn where
  init s := s.core.pc = 0 ∧ start s.core.regs ∧ s.trace = []
  next := Run.next block

end Rv32a

import Mathlib.Data.Fintype.Card

/-!
# The programs

The data of `src/sw/final/main.cpp` and `src/sw/final/main128.cpp`: the harts, the global arrays
and words, and the transfers each hart asks of the DMA. The two files differ in the array lengths,
in the number of transfers and in the largest merge width only.

A pointer is an object and an offset into it. `Call` is one call of `write_data_to_ACC` or
`read_data_from_ACC` with `_is_using_dma = 1`: four stores to the registers of the DMA.
-/

set_option autoImplicit false

namespace SortPlatform.Sw

inductive Program where
  /-- `main.cpp` -/
  | main
  /-- `main128.cpp` -/
  | main128
  deriving DecidableEq, Repr

/-- The harts, by `hart_id`. -/
inductive Hart where
  | hart0
  | hart1
  deriving DecidableEq, Repr

def Hart.other : Hart → Hart
  | .hart0 => .hart1
  | .hart1 => .hart0

theorem Hart.ne_other : ∀ h : Hart, h ≠ h.other
  | .hart0 => nofun
  | .hart1 => nofun

@[simp] theorem Hart.other_other : ∀ h : Hart, h.other.other = h
  | .hart0 => rfl
  | .hart1 => rfl

theorem Hart.eq_other_of_ne : ∀ {g h : Hart}, g ≠ h → g = h.other
  | .hart0, .hart0, hne => absurd rfl hne
  | .hart0, .hart1, _ => rfl
  | .hart1, .hart0, _ => rfl
  | .hart1, .hart1, hne => absurd rfl hne

instance : Fintype Hart where
  elems := {Hart.hart0, Hart.hart1}
  complete h := by cases h <;> decide

def PROCESSORS : Nat := 2

theorem card_hart : Fintype.card Hart = PROCESSORS := rfl

/-! ## Globals -/

/-- The global arrays of `unsigned char`. -/
inductive Arr where
  | «in»
  | tmp0
  | out0
  | tmp1
  | out1
  | result
  deriving DecidableEq, Repr

/-- The global `uint32_t` words, with `exit_counter` of `bootstrap.S`. -/
inductive Word where
  | barrier_counter
  | barrier_lock
  | barrier_sem
  | DMA_flag (h : Hart)
  | lock
  | print_flag (h : Hart)
  | exit_counter
  deriving DecidableEq, Repr

namespace Program

/-- The length of `in` and `result`. -/
def total : Program → Nat
  | main => 64
  | main128 => 128

/-- The length of `tmp0`, `out0`, `tmp1` and `out1`, and the largest `W` of the passes. -/
def half : Program → Nat
  | main => 32
  | main128 => 64

def length (p : Program) : Arr → Nat
  | .in | .result => p.total
  | .tmp0 | .out0 | .tmp1 | .out1 => p.half

theorem total_eq (p : Program) : p.total = p.half + p.half := by
  cases p <;> rfl

end Program

/-- The array that the DMA fills for a hart. -/
def tmp : Hart → Arr
  | .hart0 => .tmp0
  | .hart1 => .tmp1

/-- The array that a hart merges into. -/
def out : Hart → Arr
  | .hart0 => .out0
  | .hart1 => .out1

theorem length_out (p : Program) (h : Hart) : p.length (out h) = p.half := by
  cases h <;> rfl

theorem length_tmp (p : Program) (h : Hart) : p.length (tmp h) = p.half := by
  cases h <;> rfl

/-! ## Transfers -/

/-- A pointer. -/
inductive Loc where
  | arr (a : Arr) (off : Nat)
  /-- `PE_START_ADDR_i + off` -/
  | peStart (i : Fin 4) (off : Nat)
  /-- `PE_READ_ADDR_i + off` -/
  | peRead (i : Fin 4) (off : Nat)
  /-- Any other address. -/
  | addr (n : Nat)
  deriving DecidableEq, Repr

/-- `ptr + n` -/
def Loc.add : Loc → Nat → Loc
  | arr a off, n => arr a (off + n)
  | peStart i off, n => peStart i (off + n)
  | peRead i off, n => peRead i (off + n)
  | addr m, n => addr (m + n)

@[simp] theorem Loc.add_zero (l : Loc) : l.add 0 = l := by
  cases l <;> rfl

/-- What a call asks of the DMA, and who makes it. -/
structure Call where
  hart : Hart
  src : Loc
  dst : Loc
  len : Nat
  deriving DecidableEq, Repr

def write_data_to_ACC (h : Hart) (ADDR buffer : Loc) (len : Nat) : Call := ⟨h, buffer, ADDR, len⟩

def read_data_from_ACC (h : Hart) (ADDR buffer : Loc) (len : Nat) : Call := ⟨h, ADDR, buffer, len⟩

/-- `*DMA_SRC_ADDR`, `*DMA_DST_ADDR`, `*DMA_LEN_ADDR`, `*DMA_OP_ADDR` -/
inductive DmaReg where
  | src
  | dst
  | len
  | op
  deriving DecidableEq, Repr

/-- A hart first fills the PEs and then reads them. -/
inductive Phase where
  | write
  | read
  deriving DecidableEq, Repr

/-- The four stores of a call. -/
def Call.stores (c : Call) : List (Call × DmaReg) := [(c, .src), (c, .dst), (c, .len), (c, .op)]

/-- All stores of a list of calls. -/
def stores (calls : List Call) : List (Call × DmaReg) := calls.flatMap Call.stores

/-- The calls whose last store is made. -/
def completed (log : List (Call × DmaReg)) : List Call :=
  log.filterMap fun x => if x.2 = .op then some x.1 else none

theorem stores_cons (c : Call) (cs : List Call) :
    stores (c :: cs) = (c, .src) :: (c, .dst) :: (c, .len) :: (c, .op) :: stores cs := rfl

theorem stores_append (cs ds : List Call) : stores (cs ++ ds) = stores cs ++ stores ds :=
  List.flatMap_append

theorem completed_append (log log' : List (Call × DmaReg)) :
    completed (log ++ log') = completed log ++ completed log' :=
  List.filterMap_append

@[simp] theorem completed_stores (cs : List Call) : completed (stores cs) = cs := by
  induction cs with
  | nil => rfl
  | cons c cs ih =>
    rw [stores_cons]
    simp only [completed, List.filterMap_cons, reduceCtorEq, if_true, if_false] at ih ⊢
    rw [ih]

/-- **A store to `op` ends the four stores of its call.** -/
theorem op_of_stores {c : Call} : ∀ {cs : List Call} {log : List (Call × DmaReg)},
    log ++ [(c, .op)] <+: stores cs →
      ∃ ds, ds ++ [c] <+: cs ∧ log = stores ds ++ [(c, .src), (c, .dst), (c, .len)]
  | [], log, h => by
    obtain ⟨t, ht⟩ := h
    cases log <;> cases ht
  | d :: cs, log, h => by
    rw [stores_cons] at h
    obtain ⟨t, ht⟩ := h
    match log, ht with
    | [], ht => cases ht
    | [x], ht => cases ht
    | [x, y], ht => cases ht
    | [x, y, z], ht =>
      cases ht
      exact ⟨[], ⟨cs, rfl⟩, rfl⟩
    | x :: y :: z :: w :: log, ht =>
      simp only [List.cons_append, List.cons.injEq] at ht
      obtain ⟨rfl, rfl, rfl, rfl, ht⟩ := ht
      obtain ⟨ds, ⟨u, hu⟩, rfl⟩ := op_of_stores ⟨t, ht⟩
      exact ⟨d :: ds, ⟨u, by rw [← hu]; rfl⟩, rfl⟩

/-- The completed calls come in order. -/
theorem completed_of_stores {cs : List Call} {log : List (Call × DmaReg)}
    (h : log <+: stores cs) : completed log <+: cs := by
  have := h.filterMap fun x => if x.2 = .op then some x.1 else none
  rwa [show (stores cs).filterMap _ = cs from completed_stores cs] at this

namespace Program

/-- The calls of `write_data_to_ACC` of a hart, in the order of the source. -/
def writes : Program → Hart → List Call
  | main, .hart0 =>
    [write_data_to_ACC .hart0 (.peStart 0 0) (.arr .in 0) 16,
     write_data_to_ACC .hart0 (.peStart 1 0) (.arr .in 16) 16]
  | main, .hart1 =>
    [write_data_to_ACC .hart1 (.peStart 2 0) (.arr .in 32) 16,
     write_data_to_ACC .hart1 (.peStart 3 0) (.arr .in 48) 16]
  | main128, .hart0 =>
    [write_data_to_ACC .hart0 (.peStart 0 0) (.arr .in 0) 16,
     write_data_to_ACC .hart0 (.peStart 1 0) (.arr .in 16) 16,
     write_data_to_ACC .hart0 (.peStart 0 0) (.arr .in 32) 16,
     write_data_to_ACC .hart0 (.peStart 1 0) (.arr .in 48) 16]
  | main128, .hart1 =>
    [write_data_to_ACC .hart1 (.peStart 2 0) (.arr .in 64) 16,
     write_data_to_ACC .hart1 (.peStart 3 0) (.arr .in 80) 16,
     write_data_to_ACC .hart1 (.peStart 2 0) (.arr .in 96) 16,
     write_data_to_ACC .hart1 (.peStart 3 0) (.arr .in 112) 16]

/-- The calls of `read_data_from_ACC` of a hart. -/
def reads : Program → Hart → List Call
  | main, .hart0 =>
    [read_data_from_ACC .hart0 (.peRead 0 0) (.arr .tmp0 0) 16,
     read_data_from_ACC .hart0 (.peRead 1 0) (.arr .tmp0 16) 16]
  | main, .hart1 =>
    [read_data_from_ACC .hart1 (.peRead 2 0) (.arr .tmp1 0) 16,
     read_data_from_ACC .hart1 (.peRead 3 0) (.arr .tmp1 16) 16]
  | main128, .hart0 =>
    [read_data_from_ACC .hart0 (.peRead 0 0) (.arr .tmp0 0) 16,
     read_data_from_ACC .hart0 (.peRead 1 0) (.arr .tmp0 16) 16,
     read_data_from_ACC .hart0 (.peRead 0 0) (.arr .tmp0 32) 16,
     read_data_from_ACC .hart0 (.peRead 1 0) (.arr .tmp0 48) 16]
  | main128, .hart1 =>
    [read_data_from_ACC .hart1 (.peRead 2 0) (.arr .tmp1 0) 16,
     read_data_from_ACC .hart1 (.peRead 3 0) (.arr .tmp1 16) 16,
     read_data_from_ACC .hart1 (.peRead 2 0) (.arr .tmp1 32) 16,
     read_data_from_ACC .hart1 (.peRead 3 0) (.arr .tmp1 48) 16]

/-- The calls of a phase. -/
def transfers (p : Program) : Phase → Hart → List Call
  | .write => p.writes
  | .read => p.reads

/-- The calls in the order in which the harts hand over: both write, then both read. -/
def calls (p : Program) : List Call :=
  p.writes .hart0 ++ p.writes .hart1 ++ p.reads .hart0 ++ p.reads .hart1

end Program

/-! ## Initialisation -/

/-- The calls of `sem_init` of hart 0. -/
def sem_inits : List (Word × Nat) :=
  [(.barrier_lock, 1), (.barrier_sem, 0), (.lock, 1),
   (.DMA_flag .hart0, 0), (.print_flag .hart0, 0),
   (.DMA_flag .hart1, 0), (.print_flag .hart1, 0)]

end SortPlatform.Sw

import Mathlib.Data.List.Basic

/-!
# Bounded blocking FIFOs

`Fifo α` carries its capacity bound. `write` and `read` return `none` where the caller blocks.
-/

set_option autoImplicit false

namespace Dataflow

variable {α : Type*}

/-- A FIFO channel; `buf` holds the oldest element first. -/
structure Fifo (α : Type*) where
  cap : Nat
  buf : List α
  buf_le : buf.length ≤ cap
  deriving DecidableEq

namespace Fifo

def empty (cap : Nat) : Fifo α := ⟨cap, [], Nat.zero_le _⟩

/-- Blocking write. -/
def write (q : Fifo α) (x : α) : Option (Fifo α) :=
  if h : q.buf.length < q.cap then some ⟨q.cap, q.buf ++ [x], by
    rw [List.length_append, List.length_singleton]; omega⟩ else none

/-- Blocking read. -/
def read (q : Fifo α) : Option (α × Fifo α) :=
  match h : q.buf with
  | [] => none
  | x :: xs => some (x, ⟨q.cap, xs, by
      have := q.buf_le
      rw [h, List.length_cons] at this
      omega⟩)

theorem write_eq_some {q q' : Fifo α} {x : α} :
    q.write x = some q' ↔ q.buf.length < q.cap ∧ q'.cap = q.cap ∧ q'.buf = q.buf ++ [x] := by
  unfold write
  split
  · rename_i h
    rw [Option.some.injEq]
    constructor
    · rintro rfl; exact ⟨h, rfl, rfl⟩
    · rintro ⟨_, hc, hb⟩
      cases q'
      cases hc; cases hb; rfl
  · rename_i h
    simp [h]

theorem write_eq_none {q : Fifo α} {x : α} : q.write x = none ↔ q.buf.length = q.cap := by
  have := q.buf_le
  unfold write
  split <;> simp <;> omega

theorem read_eq_some {q q' : Fifo α} {x : α} :
    q.read = some (x, q') ↔ q.buf = x :: q'.buf ∧ q'.cap = q.cap := by
  unfold read
  split
  · rename_i h
    simp [h]
  · rename_i y ys h
    rw [Option.some.injEq, Prod.mk.injEq]
    constructor
    · rintro ⟨rfl, rfl⟩; exact ⟨h, rfl⟩
    · rintro ⟨hb, hc⟩
      rw [h, List.cons.injEq] at hb
      cases q'
      cases hc; cases hb.2; exact ⟨hb.1, rfl⟩

theorem read_eq_none {q : Fifo α} : q.read = none ↔ q.buf = [] := by
  unfold read
  split <;> rename_i h <;> simp [h]

theorem exists_read {q : Fifo α} {x : α} {xs : List α} (h : q.buf = x :: xs) :
    ∃ q', q.read = some (x, q') ∧ q'.buf = xs ∧ q'.cap = q.cap := by
  cases hr : q.read with
  | none => rw [read_eq_none] at hr; rw [hr] at h; cases h
  | some p =>
    obtain ⟨y, q'⟩ := p
    obtain ⟨hb, hc⟩ := read_eq_some.mp hr
    rw [hb, List.cons.injEq] at h
    exact ⟨q', by rw [h.1], h.2, hc⟩

end Fifo

end Dataflow

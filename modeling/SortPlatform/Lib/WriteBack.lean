import Mathlib.Data.Set.Insert
import Mathlib.Logic.Function.Basic

/-!
# A write-back buffer over a store

One block of a store is kept in a buffer and written back when another one is loaded. Transfers
between the two may fail, and a failed one may leave anything in its target.

* `Cached.view` — the store as the user of the buffer sees it.
* `Cached.Coherent` — a clean buffer holds what the store has.
* `Cached.Stale` — a load leaves the buffer dirty with another block's contents.

Principal results:

* `load_view`, `modify_view`, `flush_store` — without failures, the buffer is not seen.
* `Owns.load`, `Owns.modify`, `Owns.flush` — whatever fails, only blocks that were modified or
  loaded stale are written to.
-/

set_option autoImplicit false

namespace WriteBack

/-- How a transfer ends, and what a failed one leaves in its target. -/
inductive Io (β : Type*) where
  | done
  | failed (left : β)

/-- A store with one of its blocks in a buffer. -/
structure Cached (ι β : Type*) where
  store : ι → β
  buf : β
  offs : ι
  dirty : Bool
  active : Bool

namespace Cached

variable {ι β : Type*} [DecidableEq ι]

/-- The buffer is written to its block. -/
def write (s : Cached ι β) : Io β → Cached ι β
  | .done => { s with store := Function.update s.store s.offs s.buf, dirty := false }
  | .failed left => { s with store := Function.update s.store s.offs left }

/-- The block is read into the buffer. -/
def read (s : Cached ι β) : Io β → Cached ι β
  | .done => { s with buf := s.store s.offs, dirty := false }
  | .failed left => { s with buf := left }

/-- The block is in the buffer already. -/
def Holds (s : Cached ι β) (b : ι) : Prop := b = s.offs ∧ s.active = true

instance (s : Cached ι β) (b : ι) : Decidable (s.Holds b) := inferInstanceAs (Decidable (_ ∧ _))

/-- A dirty buffer in use is written back. -/
def commit (s : Cached ι β) (w : Io β) : Cached ι β :=
  if s.dirty = true ∧ s.active = true then s.write w else s

/-- Get a block into the buffer. -/
def load (s : Cached ι β) (w r : Io β) (b : ι) : Cached ι β :=
  if s.Holds b then s
  else { ({ s.commit w with offs := b }).read r with active := true }

/-- Change the block in the buffer. -/
def modify (s : Cached ι β) (f : β → β) : Cached ι β := { s with buf := f s.buf, dirty := true }

/-- Give the buffer up. -/
def flush (s : Cached ι β) (w : Io β) : Cached ι β := { s.commit w with active := false }

/-- The store as it is seen through the buffer. -/
def view (s : Cached ι β) : ι → β :=
  if s.dirty = true ∧ s.active = true then Function.update s.store s.offs s.buf else s.store

/-- **A clean buffer in use holds what the store has.** -/
def Coherent (s : Cached ι β) : Prop :=
  s.active = true → s.dirty = false → s.buf = s.store s.offs

variable {s : Cached ι β} {T T' : Set ι} {store : ι → β}

/-! ## Without failures -/

theorem commit_store (s : Cached ι β) : (s.commit .done).store = s.view := by
  unfold commit view
  split <;> rfl

theorem read_done_active (s : Cached ι β) :
    ({ s.read .done with active := true }).view = s.store ∧
      Coherent { s.read .done with active := true } :=
  ⟨if_neg nofun, fun _ _ => rfl⟩

/-- **A load is not seen**, and gets the block as it is seen. -/
theorem load_view (h : s.Coherent) (b : ι) : (s.load .done .done b).view = s.view ∧
    (s.load .done .done b).Coherent ∧ (s.load .done .done b).Holds b ∧
      (s.load .done .done b).buf = s.view b := by
  unfold load
  by_cases hb : s.Holds b
  · rw [if_pos hb]
    refine ⟨rfl, h, hb, ?_⟩
    obtain ⟨rfl, hact⟩ := hb
    unfold view
    by_cases hd : s.dirty = true
    · rw [if_pos ⟨hd, hact⟩, Function.update_self]
    · rw [if_neg fun h => hd h.1]
      exact h hact (by simpa using hd)
  · rw [if_neg hb]
    obtain ⟨hview, hcoh⟩ := read_done_active { s.commit .done with offs := b }
    refine ⟨hview.trans s.commit_store, hcoh, ⟨rfl, rfl⟩, ?_⟩
    exact congrFun s.commit_store b

/-- **A change is seen** in the block in the buffer. -/
theorem modify_view {b : ι} (h : s.Holds b) (f : β → β) :
    (s.modify f).view = Function.update s.view b (f s.buf) ∧ (s.modify f).Coherent := by
  obtain ⟨rfl, hact⟩ := h
  refine ⟨?_, nofun⟩
  unfold view
  rw [if_pos ⟨rfl, hact⟩]
  split
  · exact (Function.update_idem _ _ _).symm
  · rfl

/-- **After a flush the store is what was seen.** -/
theorem flush_store (s : Cached ι β) : (s.flush .done).store = s.view := s.commit_store

/-! ## With failures -/

/-- The load leaves the buffer dirty, with contents that are not the block's. -/
def Stale (s : Cached ι β) (w r : Io β) (b : ι) : Prop :=
  ¬ s.Holds b ∧ (s.commit w).dirty = true ∧ ∃ left, r = .failed left

/-- **Only blocks of `T` have been written to**, and a dirty buffer is for one of them. -/
structure Owns (T : Set ι) (store : ι → β) (s : Cached ι β) : Prop where
  dirty : s.dirty = true → s.offs ∈ T
  store_eq : ∀ b ∉ T, s.store b = store b

omit [DecidableEq ι] in
theorem Owns.mono (h : Owns T store s) (hT : T ⊆ T') : Owns T' store s :=
  ⟨fun hd => hT (h.dirty hd), fun b hb => h.store_eq b fun hb' => hb (hT hb')⟩

theorem Owns.write (h : Owns T store s) (hd : s.dirty = true) (w : Io β) :
    Owns T store (s.write w) := by
  have hoffs := h.dirty hd
  have hne : ∀ b ∉ T, b ≠ s.offs := fun b hb heq => hb (heq ▸ hoffs)
  cases w with
  | done =>
    refine ⟨nofun, fun b hb => ?_⟩
    exact (Function.update_of_ne (hne b hb) _ _).trans (h.store_eq b hb)
  | failed left =>
    refine ⟨fun _ => hoffs, fun b hb => ?_⟩
    exact (Function.update_of_ne (hne b hb) _ _).trans (h.store_eq b hb)

theorem Owns.commit (h : Owns T store s) (w : Io β) : Owns T store (s.commit w) := by
  unfold Cached.commit
  split
  · rename_i hd
    exact h.write hd.1 w
  · exact h

/-- **A load writes to a block of `T`**, and adds none unless it is stale. -/
theorem Owns.load (h : Owns T store s) {w r : Io β} {b : ι} (hb : s.Stale w r b → b ∈ T) :
    Owns T store (s.load w r b) := by
  unfold Cached.load
  by_cases hh : s.Holds b
  · rw [if_pos hh]
    exact h
  · rw [if_neg hh]
    have hc := h.commit w
    cases r with
    | done => exact ⟨nofun, hc.store_eq⟩
    | failed left => exact ⟨fun hd => hb ⟨hh, hd, left, rfl⟩, hc.store_eq⟩

omit [DecidableEq ι] in
theorem Owns.modify (h : Owns T store s) (hb : s.offs ∈ T) (f : β → β) :
    Owns T store (s.modify f) :=
  ⟨fun _ => hb, h.store_eq⟩

theorem Owns.flush (h : Owns T store s) (w : Io β) : Owns T store (s.flush w) :=
  ⟨(h.commit w).dirty, (h.commit w).store_eq⟩

theorem load_holds (s : Cached ι β) (w r : Io β) (b : ι) : (s.load w r b).Holds b := by
  unfold load
  by_cases hb : s.Holds b
  · rw [if_pos hb]
    exact hb
  · rw [if_neg hb]
    cases r <;> exact ⟨rfl, rfl⟩

end Cached

end WriteBack

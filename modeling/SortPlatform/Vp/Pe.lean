import SortPlatform.Lib.Pipeline
import SortPlatform.MergePass
import SortPlatform.Vp.Transport

/-!
# One sorting PE of the virtual platform

The threads `MergeW1::do_merge` … `MergeW8::do_merge` of `src/vp/basic-final/Merge_W*.h`, and a
PE as `main.cpp` connects it: `i_array`, `w12`, `w24`, `w48`, `o_array`.

A thread runs from one FIFO operation to the next without interruption, so its pass is part of
the step that reads the last byte of a block. A thread that leaves its arrays would be stuck.

Principal results:

* `do_merge_refines`, `do_merge_blocked` — a thread behaves as a block stage of `Lib.Pipeline`
  with the block function `pass W`, and blocks exactly where that stage does.
* `Pe.next_refines`, `Pe.blocked_cells` — the same for the whole PE.
* `through_cells` — the four passes together are the ascending rearrangement.
-/

set_option autoImplicit false

namespace SortPlatform.Vp

open Dataflow RunMerge

/-! ## The thread of a stage -/

/-- Where a `do_merge` thread is: in its initial `wait`, or at the `i`-th iteration of its input
or output loop. -/
inductive Pc where
  | wait
  | input (i : Nat)
  | output (i : Nat)
  deriving DecidableEq, Repr

/-- A `do_merge` thread with its arrays. -/
structure MergeThread where
  pc : Pc
  A : Vector Int 16
  C : Vector Int 16

/-- `A[i] = i_array.read()`. -/
def toInt (b : UInt8) : Int := b.toNat

/-- `o_array.write(C[i])`: the conversion to `unsigned char`. -/
def toByte (x : Int) : UInt8 := UInt8.ofInt x

/-- One step of `do_merge` with width `W`; `none` while it is blocked. -/
def do_merge (W : Nat) (t : MergeThread) (i_array o_array : Fifo UInt8) :
    Option (MergeThread × Fifo UInt8 × Fifo UInt8) :=
  match t.pc with
  | .wait => some ({ t with pc := .input 0 }, i_array, o_array)
  | .input i =>
    i_array.read.bind fun p =>
      (store t.A i (toInt p.1)).bind fun A =>
        if i + 1 < 16 then some ({ t with A := A, pc := .input (i + 1) }, p.2, o_array)
        else (mergePass W A t.C).map fun C => ({ A := A, C := C, pc := .output 0 }, p.2, o_array)
  | .output i =>
    t.C[i]?.bind fun x =>
      (o_array.write (toByte x)).map fun q =>
        ({ t with pc := if i + 1 < 16 then .output (i + 1) else .input 0 }, i_array, q)

/-! ### Bytes in `int` arrays -/

theorem toByte_toInt (b : UInt8) : toByte (toInt b) = b := by
  have hb := b.toNat_lt
  apply UInt8.toNat_inj.mp
  rw [toByte, toInt, UInt8.ofInt, UInt8.toNat_ofNat']
  omega

theorem toInt_lt_iff (a b : UInt8) : toInt a < toInt b ↔ a < b := by
  simp [toInt, UInt8.lt_iff_toNat_lt]

theorem hwLe_toInt (a b : UInt8) : hwLe a b = hwLe (toInt a) (toInt b) := by
  simp only [hwLe, gt_iff_lt, toInt_lt_iff]

theorem map_toByte_toInt (bs : List UInt8) : (bs.map toInt).map toByte = bs := by
  rw [List.map_map]
  conv => rhs; rw [← List.map_id bs]
  exact List.map_congr_left fun b _ => toByte_toInt b

/-- The entries are bytes. -/
def AreBytes (xs : List Int) : Prop := (xs.map toByte).map toInt = xs

theorem areBytes_map (bs : List UInt8) : AreBytes (bs.map toInt) := by
  rw [AreBytes, map_toByte_toInt]

/-! ### The thread as a block stage -/

/-- What the loop counter guarantees about the thread's arrays. -/
def MergeThread.WF (t : MergeThread) : Prop :=
  match t.pc with
  | .wait => True
  | .input i => i < 16 ∧ AreBytes (t.A.toList.take i)
  | .output i => i < 16 ∧ AreBytes t.C.toList

/-- The bytes a thread has read of its block, or has still to write of it. -/
def MergeThread.stage (t : MergeThread) : Stage UInt8 :=
  match t.pc with
  | .wait => .reading []
  | .input i => .reading ((t.A.toList.take i).map toByte)
  | .output i => .writing ((t.C.toList.drop i).map toByte)

/-- **A step of `do_merge` is the end of its initial wait or a step of the block stage.** -/
theorem do_merge_refines {W : Nat} (hW : IsWidth W) {t t' : MergeThread} {i o i' o' : Fifo UInt8}
    (hwf : t.WF) (h : do_merge W t i o = some (t', i', o')) :
    t'.WF ∧ t'.pc ≠ .wait ∧ ((t.pc = .wait ∧ t'.stage = t.stage ∧ i' = i ∧ o' = o) ∨
      t.stage.next 16 (pass W) i o = some (t'.stage, i', o')) := by
  obtain ⟨pc, A, C⟩ := t
  cases pc with
  | wait =>
    cases h
    exact ⟨⟨by omega, rfl⟩, Pc.noConfusion, Or.inl ⟨rfl, rfl, rfl, rfl⟩⟩
  | input j =>
    obtain ⟨hj, hA⟩ := hwf
    obtain ⟨⟨x, q⟩, hr, h⟩ := Option.bind_eq_some_iff.mp h
    obtain ⟨A', hA', hl⟩ := store_of_lt A hj (toInt x)
    simp only [hA', Option.bind_some] at h
    have hacc : A'.toList.take (j + 1) = ((A.toList.take j).map toByte ++ [x]).map toInt := by
      rw [hl, take_set_succ (by rw [Vector.length_toList]; exact hj), List.map_append, hA]
      rfl
    have hlen : ((A.toList.take j).map toByte).length = j := by
      rw [List.length_map, List.length_take, Vector.length_toList]; omega
    have hnext : (MergeThread.stage ⟨.input j, A, C⟩).next 16 (pass W) i o =
        some (Stage.accept 16 (pass W) ((A.toList.take j).map toByte) x, q, o) := by
      simp only [MergeThread.stage, Stage.next, hr, Option.map_some]
    split at h
    · rename_i hlt
      cases h
      refine ⟨⟨hlt, ?_⟩, Pc.noConfusion, Or.inr ?_⟩
      · show AreBytes (A'.toList.take (j + 1))
        rw [hacc]; exact areBytes_map _
      · rw [hnext, Stage.accept, if_neg (by rw [hlen]; omega)]
        simp only [MergeThread.stage, hacc, map_toByte_toInt]
    · -- the sixteenth byte: the pass runs
      rename_i hlt
      obtain ⟨C', hC', hCl⟩ := mergePass_spec hW A' C
      rw [hC'] at h
      cases h
      have hj15 : j + 1 = 16 := by omega
      have hall : A'.toList = ((A.toList.take j).map toByte ++ [x]).map toInt := by
        rw [← hacc, List.take_of_length_le (by rw [Vector.length_toList]; omega)]
      have hC : C'.toList = (pass W ((A.toList.take j).map toByte ++ [x])).map toInt := by
        rw [hCl, hall, pass, pass, map_mergeRuns hwLe_toInt]
      refine ⟨⟨by omega, ?_⟩, Pc.noConfusion, Or.inr ?_⟩
      · show AreBytes C'.toList
        rw [hC]; exact areBytes_map _
      · rw [hnext, Stage.accept, if_pos (by rw [hlen]; exact hj15)]
        simp only [MergeThread.stage, List.drop_zero, hC, map_toByte_toInt]
  | output j =>
    obtain ⟨hj, hC⟩ := hwf
    obtain ⟨x, hx, hx'⟩ := getElem?_of_lt C hj
    simp only [do_merge, hx, Option.bind_some] at h
    obtain ⟨q, hw, he⟩ := Option.map_eq_some_iff.mp h
    have hdrop : (C.toList.drop j).map toByte =
        toByte x :: (C.toList.drop (j + 1)).map toByte := by
      rw [drop_cons hx']
      rfl
    have hnext : (MergeThread.stage ⟨.output j, A, C⟩).next 16 (pass W) i o =
        some (Stage.emitted ((C.toList.drop (j + 1)).map toByte), i, q) := by
      simp only [MergeThread.stage, hdrop, Stage.next, hw, Option.map_some]
    cases he
    by_cases hlt : j + 1 < 16
    · refine ⟨by simp only [if_pos hlt]; exact ⟨hlt, hC⟩, by simp [hlt], Or.inr ?_⟩
      rw [hnext]
      simp only [if_pos hlt, MergeThread.stage]
      obtain ⟨y, -, hy⟩ := getElem?_of_lt C hlt
      rw [drop_cons hy]
      rfl
    · refine ⟨by simp only [if_neg hlt]; exact ⟨by omega, rfl⟩, by simp [hlt], Or.inr ?_⟩
      rw [hnext, List.drop_of_length_le (by rw [Vector.length_toList]; omega)]
      simp only [if_neg hlt, MergeThread.stage]
      rfl

/-- **A blocked thread is past its initial wait and blocked as a block stage.** -/
theorem do_merge_blocked {W : Nat} (hW : IsWidth W) {t : MergeThread} {i o : Fifo UInt8}
    (hwf : t.WF) (h : do_merge W t i o = none) : t.stage.next 16 (pass W) i o = none := by
  obtain ⟨pc, A, C⟩ := t
  cases pc with
  | wait => cases h
  | input j =>
    obtain ⟨hj, hA⟩ := hwf
    cases hr : i.read with
    | none => simp only [MergeThread.stage, Stage.next, hr, Option.map_none]
    | some p =>
      obtain ⟨A', hA', -⟩ := store_of_lt A hj (toInt p.1)
      obtain ⟨C', hC', -⟩ := mergePass_spec hW A' C
      simp only [do_merge, hr, hA', hC', Option.bind_some] at h
      split at h <;> cases h
  | output j =>
    obtain ⟨hj, hC⟩ := hwf
    obtain ⟨x, hx, hx'⟩ := getElem?_of_lt C hj
    simp only [do_merge, hx, Option.bind_some, Option.map_eq_none_iff] at h
    simp only [MergeThread.stage]
    rw [drop_cons hx', List.map_cons, Stage.next, h]
    rfl

theorem do_merge_caps {W : Nat} {t t' : MergeThread} {i o i' o' : Fifo UInt8}
    (h : do_merge W t i o = some (t', i', o')) : i'.cap = i.cap ∧ o'.cap = o.cap := by
  obtain ⟨pc, A, C⟩ := t
  cases pc with
  | wait => cases h; exact ⟨rfl, rfl⟩
  | input j =>
    obtain ⟨⟨x, q⟩, hr, h⟩ := Option.bind_eq_some_iff.mp h
    obtain ⟨A', -, h⟩ := Option.bind_eq_some_iff.mp h
    have hq := (Fifo.read_eq_some.mp hr).2
    split at h
    · cases h; exact ⟨hq, rfl⟩
    · obtain ⟨C', -, he⟩ := Option.map_eq_some_iff.mp h
      cases he; exact ⟨hq, rfl⟩
  | output j =>
    obtain ⟨x, -, h⟩ := Option.bind_eq_some_iff.mp h
    obtain ⟨q, hw, he⟩ := Option.map_eq_some_iff.mp h
    cases he; exact ⟨rfl, (Fifo.write_eq_some.mp hw).2.1⟩

/-- A thread with its two FIFOs. -/
def MergeThread.step (W : Nat) (s : MergeThread × Fifo UInt8 × Fifo UInt8) :
    Option (MergeThread × Fifo UInt8 × Fifo UInt8) :=
  do_merge W s.1 s.2.1 s.2.2

/-- **A step of the block stage is a step of a thread past its wait.** -/
theorem do_merge_of_stage {W : Nat} (hW : IsWidth W) {s : MergeThread × Fifo UInt8 × Fifo UInt8}
    {t' : Stage UInt8 × Fifo UInt8 × Fifo UInt8} (hok : s.1.WF ∧ s.1.pc ≠ .wait)
    (h : Stage.step 16 (pass W) (s.1.stage, s.2) = some t') :
    ∃ s', MergeThread.step W s = some s' ∧ (s'.1.stage, s'.2) = t' ∧
      s'.1.WF ∧ s'.1.pc ≠ .wait := by
  obtain ⟨t, i, o⟩ := s
  obtain ⟨hwf, hpc⟩ := hok
  cases hd : do_merge W t i o with
  | none =>
    have := do_merge_blocked hW hwf hd
    exact absurd (h.symm.trans this) (by simp)
  | some s' =>
    obtain ⟨u, i', o'⟩ := s'
    obtain ⟨hwf', hpc', ⟨hwait, -⟩ | hn⟩ := do_merge_refines hW hwf hd
    · exact absurd hwait hpc
    · exact ⟨_, hd, Option.some.inj (hn.symm.trans h), hwf', hpc'⟩

/-- **A block in, a block out**: a thread at the start of its loop, with a block in front of it
and room behind it, takes the block and delivers its pass. -/
theorem do_merge_block {W : Nat} (hW : IsWidth W) {t : MergeThread} (hpc : t.pc = .input 0)
    {i o : Fifo UInt8} (hi : i.buf.length = 16) (ho : o.buf.length + 16 ≤ o.cap) :
    ∃ t' i' o', steps (MergeThread.step W) 32 (t, i, o) = some (t', i', o') ∧
      t'.pc = .input 0 ∧ i'.buf = [] ∧ o'.buf = o.buf ++ pass W i.buf := by
  have hstage : t.stage = .reading [] := by
    simp only [MergeThread.stage, hpc, List.take_zero, List.map_nil]
  have hwf : t.WF := by
    simp only [MergeThread.WF, hpc]
    exact ⟨by omega, rfl⟩
  obtain ⟨i', o', hs, hi', ho'⟩ := Stage.steps_block (f := pass W)
    (fun b hb => by rw [pass_length, hb]) (by omega) hi ho
  obtain ⟨⟨t', i₁, o₁⟩, ht, habs, hwf', hpc'⟩ := steps_simulate
    (fun s : MergeThread × Fifo UInt8 × Fifo UInt8 => (s.1.stage, s.2))
    (fun s t' hok h => do_merge_of_stage hW hok h) (n := 32) (s := (t, i, o))
    ⟨hwf, by rw [hpc]; exact Pc.noConfusion⟩ (by rw [hstage]; exact hs)
  obtain ⟨hst, hrest⟩ := Prod.mk.injEq .. ▸ habs
  obtain ⟨rfl, rfl⟩ := Prod.mk.injEq .. ▸ hrest
  refine ⟨t', _, _, ht, ?_, hi', ho'⟩
  obtain ⟨pc, A, C⟩ := t'
  cases pc with
  | wait => exact absurd rfl hpc'
  | input j =>
    have hlen := congrArg Stage.taken hst
    have hj : j < 16 := hwf'.1
    simp only [MergeThread.stage, Stage.taken, List.length_map, List.length_take,
      Vector.length_toList, List.length_nil] at hlen
    exact congrArg Pc.input (by omega)
  | output j => cases hst

/-! ## A PE -/

/-- The four modules of a PE, named by their width. -/
inductive Thread where
  | mergeW1
  | mergeW2
  | mergeW4
  | mergeW8
  deriving DecidableEq, Repr

/-- A PE: the modules `mergeW1_i` … `mergeW8_i` and the FIFOs between them. -/
structure Pe where
  i_array : Fifo UInt8
  mergeW1 : MergeThread
  w12 : Fifo UInt8
  mergeW2 : MergeThread
  w24 : Fifo UInt8
  mergeW4 : MergeThread
  w48 : Fifo UInt8
  mergeW8 : MergeThread
  o_array : Fifo UInt8

/-- One step of one thread. -/
def Pe.next (pe : Pe) : Thread → Option Pe
  | .mergeW1 => (do_merge 1 pe.mergeW1 pe.i_array pe.w12).map fun p =>
      { pe with mergeW1 := p.1, i_array := p.2.1, w12 := p.2.2 }
  | .mergeW2 => (do_merge 2 pe.mergeW2 pe.w12 pe.w24).map fun p =>
      { pe with mergeW2 := p.1, w12 := p.2.1, w24 := p.2.2 }
  | .mergeW4 => (do_merge 4 pe.mergeW4 pe.w24 pe.w48).map fun p =>
      { pe with mergeW4 := p.1, w24 := p.2.1, w48 := p.2.2 }
  | .mergeW8 => (do_merge 8 pe.mergeW8 pe.w48 pe.o_array).map fun p =>
      { pe with mergeW8 := p.1, w48 := p.2.1, o_array := p.2.2 }

/-- `i_array.write(x)` from `MergeW1::blocking_transport`. -/
def Pe.push (pe : Pe) (x : UInt8) : Option Pe :=
  (pe.i_array.write x).map fun q => { pe with i_array := q }

/-- `o_array.read()` from `MergeW8::blocking_transport`. -/
def Pe.pop (pe : Pe) : Option (UInt8 × Pe) :=
  pe.o_array.read.map fun p => (p.1, { pe with o_array := p.2 })

/-- Elaboration: every FIFO is empty, every thread is about to start; the arrays are
uninitialised. -/
structure Pe.Fresh (pe : Pe) : Prop where
  pcs : pe.mergeW1.pc = .wait ∧ pe.mergeW2.pc = .wait ∧ pe.mergeW4.pc = .wait ∧
    pe.mergeW8.pc = .wait
  bufs : pe.i_array.buf = [] ∧ pe.w12.buf = [] ∧ pe.w24.buf = [] ∧ pe.w48.buf = [] ∧
    pe.o_array.buf = []

/-- The capacities of the five FIFOs. -/
def Pe.caps (pe : Pe) : List Nat :=
  [pe.i_array.cap, pe.w12.cap, pe.w24.cap, pe.w48.cap, pe.o_array.cap]

/-! ### The PE as a pipeline -/

/-- The pipeline behind `i_array`. -/
def Pe.cells (pe : Pe) : List (Cell UInt8) :=
  [⟨pass 1, pe.mergeW1.stage, pe.w12⟩, ⟨pass 2, pe.mergeW2.stage, pe.w24⟩,
    ⟨pass 4, pe.mergeW4.stage, pe.w48⟩, ⟨pass 8, pe.mergeW8.stage, pe.o_array⟩]

/-- The position of a module in the pipeline. -/
def Thread.pos : Thread → Nat
  | .mergeW1 => 0
  | .mergeW2 => 1
  | .mergeW4 => 2
  | .mergeW8 => 3

structure Pe.WF (pe : Pe) : Prop where
  mergeW1 : pe.mergeW1.WF
  mergeW2 : pe.mergeW2.WF
  mergeW4 : pe.mergeW4.WF
  mergeW8 : pe.mergeW8.WF

theorem Pe.Fresh.wf {pe : Pe} (h : pe.Fresh) : pe.WF := by
  obtain ⟨h1, h2, h4, h8⟩ := h.pcs
  constructor <;> simp only [MergeThread.WF, h1, h2, h4, h8]

theorem Pe.Fresh.idle {pe : Pe} (h : pe.Fresh) : Idle pe.cells := by
  obtain ⟨h1, h2, h4, h8⟩ := h.pcs
  obtain ⟨-, b1, b2, b4, b8⟩ := h.bufs
  intro c hc
  simp only [Pe.cells, List.mem_cons, List.not_mem_nil, or_false] at hc
  rcases hc with rfl | rfl | rfl | rfl <;> simp [MergeThread.stage, *]

theorem keepsLength_cells (pe : Pe) : KeepsLength 16 pe.cells := by
  intro c hc b hb
  simp only [Pe.cells, List.mem_cons, List.not_mem_nil, or_false] at hc
  rcases hc with rfl | rfl | rfl | rfl <;> simp only [pass_length, hb]

/-- **A step of a thread is the end of its initial wait or a step of the pipeline.** -/
theorem Pe.next_refines {pe pe' : Pe} {w : Thread} (hwf : pe.WF) (h : pe.next w = some pe') :
    pe'.WF ∧ ((pe'.i_array = pe.i_array ∧ pe'.cells = pe.cells) ∨
      stepAt 16 w.pos pe.i_array pe.cells = some (pe'.i_array, pe'.cells)) := by
  obtain ⟨w1, w2, w4, w8⟩ := hwf
  cases w <;> obtain ⟨⟨t, i, o⟩, hd, rfl⟩ := Option.map_eq_some_iff.mp h
  case mergeW1 =>
    obtain ⟨ht, -, ⟨-, hs, rfl, rfl⟩ | hn⟩ := do_merge_refines isWidth_1 w1 hd
    · exact ⟨⟨ht, w2, w4, w8⟩, Or.inl ⟨rfl, by simp only [Pe.cells, hs]⟩⟩
    · exact ⟨⟨ht, w2, w4, w8⟩, Or.inr (by simp only [Pe.cells, Thread.pos, stepAt, hn,
        Option.map_some])⟩
  case mergeW2 =>
    obtain ⟨ht, -, ⟨-, hs, rfl, rfl⟩ | hn⟩ := do_merge_refines isWidth_2 w2 hd
    · exact ⟨⟨w1, ht, w4, w8⟩, Or.inl ⟨rfl, by simp only [Pe.cells, hs]⟩⟩
    · exact ⟨⟨w1, ht, w4, w8⟩, Or.inr (by simp only [Pe.cells, Thread.pos, stepAt, hn,
        Option.map_some])⟩
  case mergeW4 =>
    obtain ⟨ht, -, ⟨-, hs, rfl, rfl⟩ | hn⟩ := do_merge_refines isWidth_4 w4 hd
    · exact ⟨⟨w1, w2, ht, w8⟩, Or.inl ⟨rfl, by simp only [Pe.cells, hs]⟩⟩
    · exact ⟨⟨w1, w2, ht, w8⟩, Or.inr (by simp only [Pe.cells, Thread.pos, stepAt, hn,
        Option.map_some])⟩
  case mergeW8 =>
    obtain ⟨ht, -, ⟨-, hs, rfl, rfl⟩ | hn⟩ := do_merge_refines isWidth_8 w8 hd
    · exact ⟨⟨w1, w2, w4, ht⟩, Or.inl ⟨rfl, by simp only [Pe.cells, hs]⟩⟩
    · exact ⟨⟨w1, w2, w4, ht⟩, Or.inr (by simp only [Pe.cells, Thread.pos, stepAt, hn,
        Option.map_some])⟩

/-- When no thread can step, the pipeline is blocked. -/
theorem Pe.blocked_cells {pe : Pe} (hwf : pe.WF) (h : ∀ w, pe.next w = none) :
    Blocked 16 pe.i_array pe.cells := by
  obtain ⟨w1, w2, w4, w8⟩ := hwf
  have h1 := do_merge_blocked isWidth_1 w1 (Option.map_eq_none_iff.mp (h .mergeW1))
  have h2 := do_merge_blocked isWidth_2 w2 (Option.map_eq_none_iff.mp (h .mergeW2))
  have h4 := do_merge_blocked isWidth_4 w4 (Option.map_eq_none_iff.mp (h .mergeW4))
  have h8 := do_merge_blocked isWidth_8 w8 (Option.map_eq_none_iff.mp (h .mergeW8))
  intro n
  match n with
  | 0 => simp only [Pe.cells, stepAt, h1, Option.map_none]
  | 1 => simp only [Pe.cells, stepAt, h2, Option.map_none]
  | 2 => simp only [Pe.cells, stepAt, h4, Option.map_none]
  | 3 => simp only [Pe.cells, stepAt, h8, Option.map_none]
  | n + 4 => simp only [Pe.cells, stepAt, Option.map_none]

theorem Pe.next_caps {pe pe' : Pe} {w : Thread} (h : pe.next w = some pe') :
    pe'.caps = pe.caps := by
  cases w <;> obtain ⟨⟨t, i, o⟩, hd, rfl⟩ := Option.map_eq_some_iff.mp h <;>
    obtain ⟨hi, ho⟩ := do_merge_caps hd <;> simp only [Pe.caps, hi, ho]

/-- **The four passes are the ascending rearrangement.** -/
theorem through_cells (pe : Pe) {b : List UInt8} (hb : b.length = 16) :
    through pe.cells b = b.mergeSort := by
  have h : through pe.cells b = pass 8 (pass 4 (pass 2 (pass 1 b))) := rfl
  rw [h, passes_eq_mergeSort hb]

/-! ### What a PE delivers -/

/-- Everything `o_array` will still deliver once `future` has been written to `i_array`. -/
def Pe.outflow (pe : Pe) (future : List UInt8) : List UInt8 :=
  flow 16 pe.cells (pe.i_array.buf ++ future)

/-- The counts along the PE after `w` bytes written to it and `b` read from it. -/
def Pe.Counts (pe : Pe) (w b : Nat) : Prop := Balanced 16 w pe.i_array.buf.length pe.cells b

/-- The bytes inside the PE. -/
def Pe.held (pe : Pe) : Nat := pe.i_array.buf.length + load pe.cells

theorem Pe.pop_popLast {pe pe' : Pe} {x : UInt8} (h : pe.pop = some (x, pe')) :
    popLast pe.i_array pe.cells = some (x, pe'.i_array, pe'.cells) := by
  obtain ⟨⟨y, q⟩, hr, he⟩ := Option.map_eq_some_iff.mp h
  cases he
  simp only [Pe.cells, popLast, hr, Option.map_some]

/-- **No thread changes what the PE delivers.** -/
theorem Pe.next_outflow {pe pe' : Pe} {w : Thread} (hwf : pe.WF) (h : pe.next w = some pe')
    (future : List UInt8) : pe'.outflow future = pe.outflow future := by
  rcases (Pe.next_refines hwf h).2 with ⟨hi, hc⟩ | hs
  · simp only [Pe.outflow, hi, hc]
  · exact stepAt_flow hs future

theorem Pe.push_outflow {pe pe' : Pe} {x : UInt8} (h : pe.push x = some pe')
    (future : List UInt8) : pe'.outflow future = pe.outflow (x :: future) := by
  obtain ⟨q, hw, rfl⟩ := Option.map_eq_some_iff.mp h
  show flow 16 pe.cells (q.buf ++ future) = flow 16 pe.cells (pe.i_array.buf ++ x :: future)
  rw [(Fifo.write_eq_some.mp hw).2.2, List.append_assoc]
  rfl

theorem Pe.pop_outflow {pe pe' : Pe} {x : UInt8} (h : pe.pop = some (x, pe'))
    (future : List UInt8) : pe.outflow future = x :: pe'.outflow future :=
  popLast_flow (Pe.pop_popLast h) future

theorem Pe.push_wf {pe pe' : Pe} {x : UInt8} (hwf : pe.WF) (h : pe.push x = some pe') :
    pe'.WF := by
  obtain ⟨q, -, rfl⟩ := Option.map_eq_some_iff.mp h
  exact ⟨hwf.mergeW1, hwf.mergeW2, hwf.mergeW4, hwf.mergeW8⟩

theorem Pe.pop_wf {pe pe' : Pe} {x : UInt8} (hwf : pe.WF) (h : pe.pop = some (x, pe')) :
    pe'.WF := by
  obtain ⟨⟨y, q⟩, -, he⟩ := Option.map_eq_some_iff.mp h
  cases he
  exact ⟨hwf.mergeW1, hwf.mergeW2, hwf.mergeW4, hwf.mergeW8⟩

theorem Pe.push_caps {pe pe' : Pe} {x : UInt8} (h : pe.push x = some pe') :
    pe'.caps = pe.caps := by
  obtain ⟨q, hw, rfl⟩ := Option.map_eq_some_iff.mp h
  simp only [Pe.caps, (Fifo.write_eq_some.mp hw).2.1]

theorem Pe.pop_caps {pe pe' : Pe} {x : UInt8} (h : pe.pop = some (x, pe')) :
    pe'.caps = pe.caps := by
  obtain ⟨⟨y, q⟩, hr, he⟩ := Option.map_eq_some_iff.mp h
  cases he
  simp only [Pe.caps, (Fifo.read_eq_some.mp hr).2]

theorem Pe.next_counts {pe pe' : Pe} {w : Thread} (hwf : pe.WF) (h : pe.next w = some pe')
    {m b : Nat} (hc : pe.Counts m b) : pe'.Counts m b := by
  rcases (Pe.next_refines hwf h).2 with ⟨hi, hcs⟩ | hs
  · simpa only [Pe.Counts, hi, hcs] using hc
  · exact stepAt_balanced (keepsLength_cells pe) hc hs

theorem Pe.push_counts {pe pe' : Pe} {x : UInt8} (h : pe.push x = some pe') {m b : Nat}
    (hc : pe.Counts m b) : pe'.Counts (m + 1) b := by
  obtain ⟨q, hw, rfl⟩ := Option.map_eq_some_iff.mp h
  show Balanced 16 (m + 1) q.buf.length pe.cells b
  rw [(Fifo.write_eq_some.mp hw).2.2, List.length_append]
  exact Balanced.shift hc 1

theorem Pe.pop_counts {pe pe' : Pe} {x : UInt8} (h : pe.pop = some (x, pe')) {m b : Nat}
    (hc : pe.Counts m b) : pe'.Counts m (b + 1) :=
  popLast_balanced hc (Pe.pop_popLast h)

theorem Pe.next_held {pe pe' : Pe} {w : Thread} (hwf : pe.WF) (h : pe.next w = some pe') :
    pe'.held = pe.held := by
  rcases (Pe.next_refines hwf h).2 with ⟨hi, hcs⟩ | hs
  · simp only [Pe.held, hi, hcs]
  · exact stepAt_load (keepsLength_cells pe) hs

theorem Pe.push_held {pe pe' : Pe} {x : UInt8} (h : pe.push x = some pe') :
    pe'.held = pe.held + 1 := by
  obtain ⟨q, hw, rfl⟩ := Option.map_eq_some_iff.mp h
  show q.buf.length + load pe.cells = _
  rw [(Fifo.write_eq_some.mp hw).2.2, List.length_append, List.length_singleton, Pe.held]
  omega

theorem Pe.pop_held {pe pe' : Pe} {x : UInt8} (h : pe.pop = some (x, pe')) :
    pe'.held + 1 = pe.held :=
  popLast_load (Pe.pop_popLast h)

theorem Pe.Fresh.counts {pe : Pe} (h : pe.Fresh) : pe.Counts 0 0 := by
  obtain ⟨h1, h2, h4, h8⟩ := h.pcs
  obtain ⟨b0, b1, b2, b4, b8⟩ := h.bufs
  simp [Pe.Counts, Pe.cells, Dataflow.Balanced, MergeThread.stage, Stage.taken, Stage.given, Stage.WF, *]

theorem Pe.Fresh.held {pe : Pe} (h : pe.Fresh) : pe.held = 0 := by
  obtain ⟨h1, h2, h4, h8⟩ := h.pcs
  obtain ⟨b0, b1, b2, b4, b8⟩ := h.bufs
  simp [Pe.held, Pe.cells, load, MergeThread.stage, Stage.load, *]

/-- **At a block boundary a further block comes out last, sorted.** -/
theorem Pe.outflow_block {pe : Pe} {m b : Nat} (future : List UInt8)
    (hc : pe.Counts m b) (hm : (m + future.length) % 16 = 0) {blk : List UInt8}
    (hblk : blk.length = 16) :
    pe.outflow (future ++ blk) = pe.outflow future ++ blk.mergeSort := by
  have hc' : Balanced 16 (m + future.length) (pe.i_array.buf ++ future).length pe.cells b := by
    rw [List.length_append]
    exact Balanced.shift hc _
  have := flow_block (by omega) (keepsLength_cells pe) hc' hm blk hblk
  rw [through_cells pe hblk, List.append_assoc] at this
  exact this

theorem Pe.Fresh.outflow_nil {pe : Pe} (h : pe.Fresh) : pe.outflow [] = [] := by
  rw [Pe.outflow, h.bufs.1]
  exact h.idle.flow_nil

end SortPlatform.Vp

import Mathlib.Algebra.BigOperators.Group.List.Basic
import SortPlatform.Lib.Pipeline

/-!
# How much a pipeline holds and how far it has to go

For FIFOs of any positive capacity.

* `depth` — the number of whole blocks that the stages of a pipeline and their output FIFOs hold
  when it is jammed: one in each stage, and as many as fit in the FIFO behind it.
* `work` — the reads and writes of the stages that are left to do for what is in the pipeline.

Principal results:

* `load_le_depth` — between blocks of its reader a pipeline never holds more than `depth`.
* `jammed_load` — and exactly `depth` when all stages are blocked with the first FIFO not empty.
* `stepAt_work` — every step of a stage is one unit of work.
-/

set_option autoImplicit false

namespace Dataflow

variable {α : Type*} {k : Nat}

/-! ## Depth -/

/-- The blocks a pipeline has room for behind its first FIFO. -/
def depth (k : Nat) : List (Cell α) → Nat
  | [] => 0
  | c :: cs => 1 + c.out.cap / k + depth k cs

/-- **What was written in front is held or was read at the end**, up to whole blocks. -/
theorem Balanced.load_mod (hk : 0 < k) : ∀ {w n b : Nat} {cs : List (Cell α)},
    Balanced k w n cs b → (n + load cs + b) % k = w % k
  | _, _, _, [], h => by
    simp only [Balanced] at h
    rw [load, Nat.add_zero, h]
  | w, n, b, c :: cs, ⟨h, hwf, ht⟩ => by
    have ih := ht.load_mod hk
    rw [load, ← h]
    cases hs : c.stage with
    | reading acc =>
      rw [hs] at ih
      simp only [Stage.given, Stage.load, Stage.taken, Nat.zero_mod] at ih ⊢
      rw [show n + (acc.length + c.out.buf.length + load cs) + b =
        n + acc.length + (c.out.buf.length + load cs + b) by omega, Nat.add_mod, ih, Nat.add_zero,
        Nat.mod_mod]
    | writing rest =>
      rw [hs] at ih hwf
      obtain ⟨hpos, hle⟩ := hwf
      simp only [Stage.given, Stage.load, Stage.taken, Nat.add_zero] at ih ⊢
      rw [show n + (rest.length + c.out.buf.length + load cs) + b =
        n + rest.length + (c.out.buf.length + load cs + b) by omega, Nat.add_mod, ih,
        ← Nat.add_mod, show n + rest.length + (k - rest.length) = n + k by omega,
        Nat.add_mod_right]

/-- The largest multiple of `k` up to a sum. -/
theorem le_of_mod_eq_zero {n d c : Nat} (hn : n % k = 0) (hle : n ≤ c + k * d) :
    n ≤ k * (c / k + d) := by
  rcases Nat.eq_zero_or_pos k with rfl | hk
  · rw [Nat.mod_zero] at hn
    omega
  · obtain ⟨m, rfl⟩ := Nat.dvd_of_mod_eq_zero hn
    refine Nat.mul_le_mul_left k ?_
    have hdiv : m ≤ (c + k * d) / k := by
      rw [Nat.le_div_iff_mul_le hk, Nat.mul_comm]
      exact hle
    rwa [Nat.add_mul_div_left _ _ hk] at hdiv

/-- **A pipeline whose reader is between blocks holds at most `depth` blocks.** -/
theorem load_le_depth (hk : 0 < k) : ∀ {cs : List (Cell α)} {w n b : Nat}, Balanced k w n cs b →
    b % k = 0 → load cs ≤ k * depth k cs
  | [], _, _, _, _, _ => by simp [load]
  | c :: cs, _, _, b, ⟨_, hwf, ht⟩, hb => by
    have ih := load_le_depth hk ht hb
    have hmod := ht.load_mod hk
    have hout := c.out.buf_le
    rw [Nat.add_mod, hb, Nat.add_zero, Nat.mod_mod] at hmod
    rw [load, depth, Nat.add_assoc 1, Nat.mul_add, Nat.mul_one]
    cases hs : c.stage with
    | reading acc =>
      rw [hs] at hmod hwf
      have hacc : acc.length < k := hwf
      have := le_of_mod_eq_zero (c := c.out.cap) (d := depth k cs)
        (hmod.trans (Nat.zero_mod k)) (by omega)
      simp only [Stage.load]
      omega
    | writing rest =>
      rw [hs] at hmod hwf
      obtain ⟨hpos, hle⟩ := hwf
      have hzero : (rest.length + (c.out.buf.length + load cs)) % k = 0 := by
        rw [Nat.add_mod, hmod, ← Nat.add_mod, Stage.given,
          show rest.length + (k - rest.length) = k by omega, Nat.mod_self]
      have := le_of_mod_eq_zero (c := k + c.out.cap) (d := depth k cs) hzero (by omega)
      rw [Nat.add_div_left _ hk, Nat.succ_add, Nat.mul_succ] at this
      simp only [Stage.load]
      omega

/-- **A jammed pipeline holds exactly `depth` blocks.** The stages are blocked, the first FIFO is
not empty, and the reader is between blocks. -/
theorem jammed_load (hk : 0 < k) : ∀ {cs : List (Cell α)} {q : Fifo α} {w b : Nat},
    Balanced k w q.buf.length cs b → Blocked k q cs → (∀ c ∈ cs, 0 < c.out.cap) → q.buf ≠ [] →
    b % k = 0 → load cs = k * depth k cs ∧ q.buf.length % k = w % k
  | [], q, w, b, h, _, _, _, hb => by
    simp only [Balanced] at h
    rw [Nat.add_mod, hb, Nat.add_zero, Nat.mod_mod] at h
    exact ⟨rfl, h⟩
  | c :: cs, q, w, b, ⟨h, hwf, ht⟩, hbl, hcap, hq, hb => by
    obtain ⟨hc, hbl⟩ := hbl.cons
    have hpos := hcap c List.mem_cons_self
    rcases Stage.next_eq_none hwf hc with ⟨-, hq0⟩ | ⟨⟨rest, hs⟩, hfull⟩
    · exact absurd hq0 hq
    · have hne : c.out.buf ≠ [] := by
        intro h0
        rw [h0, List.length_nil] at hfull
        omega
      obtain ⟨hload, hmod⟩ := jammed_load hk ht hbl
        (fun d hd => hcap d (List.mem_cons_of_mem _ hd)) hne hb
      rw [hs] at h hmod hwf
      obtain ⟨hr, hle⟩ := hwf
      refine ⟨?_, by simpa only [Stage.taken, Nat.add_zero] using h⟩
      -- the stage and the full FIFO behind it hold whole blocks, at least one and no second start
      have hzero : (rest.length + c.out.cap) % k = 0 := by
        rw [← hfull, Nat.add_mod, hmod, ← Nat.add_mod, Stage.given,
          show rest.length + (k - rest.length) = k by omega, Nat.mod_self]
      have hone : rest.length + c.out.cap = k * (1 + c.out.cap / k) := by
        have hdm := Nat.div_add_mod c.out.cap k
        have hlt := Nat.mod_lt c.out.cap hk
        obtain ⟨m, hm⟩ := Nat.dvd_of_mod_eq_zero hzero
        rw [hm]
        congr 1
        have h1 : k * (c.out.cap / k) < k * m := by omega
        have h2 : k * m < k * (c.out.cap / k + 2) := by
          rw [Nat.mul_add, Nat.mul_two]
          omega
        have := Nat.lt_of_mul_lt_mul_left h1
        have := Nat.lt_of_mul_lt_mul_left h2
        omega
      rw [load, hload, hs, hfull, Stage.load, depth, Nat.mul_add, ← hone]

/-! ## Work -/

/-- The reads and writes that are left for `n` elements in front of a pipeline and for what is in
it. -/
def work : Nat → List (Cell α) → Nat
  | _, [] => 0
  | n, c :: cs => n * (2 * cs.length + 2) + c.stage.load * (2 * cs.length + 1) +
      work c.out.buf.length cs

theorem work_add : ∀ (cs : List (Cell α)) (n d : Nat),
    work (n + d) cs = work n cs + d * (2 * cs.length)
  | [], n, d => by simp [work]
  | c :: cs, n, d => by
    rw [work, work, Nat.add_mul, List.length_cons, Nat.mul_add 2, Nat.mul_one]
    omega

theorem stepAt_length : ∀ {n : Nat} {q q' : Fifo α} {cs cs' : List (Cell α)},
    stepAt k n q cs = some (q', cs') → cs'.length = cs.length
  | _, _, _, [], _, h => by simp [stepAt] at h
  | n, q, q', c :: cs, cs', h => by
    rcases stepAt_cases h with ⟨st, o, -, rfl⟩ | ⟨m, o, cs₁, -, hn, -, rfl⟩
    · rfl
    · exact congrArg (· + 1) (stepAt_length hn)

/-- **Every step of a stage is one unit of work.** -/
theorem stepAt_work : ∀ {n : Nat} {q q' : Fifo α} {cs cs' : List (Cell α)}, KeepsLength k cs →
    stepAt k n q cs = some (q', cs') → work q'.buf.length cs' + 1 = work q.buf.length cs
  | _, _, _, [], _, _, h => by simp [stepAt] at h
  | n, q, q', c :: cs, cs', hf, h => by
    rcases stepAt_cases h with ⟨st, o, hn, rfl⟩ | ⟨m, o, cs₁, rfl, hn, rfl, rfl⟩
    · have hload := Stage.next_load (hf c List.mem_cons_self) hn
      have hadd := work_add cs c.out.buf.length 1
      simp only [work]
      generalize 2 * cs.length = l at *
      rcases Stage.next_cases hn with ⟨acc, x, hs, rfl, hb, -, rfl⟩ | ⟨y, rest, hs, rfl, rfl, hb, -, -⟩
      · -- an element has moved into the stage
        rw [hb, List.length_cons] at hload ⊢
        rw [show (Stage.accept k c.f acc x).load = c.stage.load + 1 by omega, Nat.add_mul,
          Nat.add_mul]
        omega
      · -- and one out of it
        have hout : c.stage.load = (Stage.emitted rest).load + 1 := by
          rw [hs]
          cases rest <;> rfl
        rw [hb, List.length_append, List.length_singleton, hadd, hout, Nat.add_mul]
        omega
    · have ih := stepAt_work hf.tail hn
      have hlen : cs₁.length = cs.length := stepAt_length hn
      simp only [work, hlen]
      omega

end Dataflow

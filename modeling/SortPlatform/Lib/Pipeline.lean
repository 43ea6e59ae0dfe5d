import SortPlatform.Lib.Fifo

/-!
# Linear pipelines of block stages

A stage reads a block of `k` elements one at a time from the FIFO in front of it, applies a
function to the block, writes the result one element at a time into the FIFO behind it, and
starts over. A pipeline is a list of stages, each with its output FIFO; the input FIFO of the
first one is kept apart.

* `Stage.feed`, `flow` — everything a stage, or a pipeline, will still deliver when it is given
  a list of further inputs and never has to wait.
* `Balanced` — between any two stages, elements written, buffered and read agree modulo `k`.
* `load` — the elements held by the stages and their output FIFOs.

Principal results:

* `Stage.steps_block` — a stage alone takes a block and delivers its image.
* `stepAt_flow`, `popLast_flow` — **every step of every stage preserves `flow`**, so what is
  finally delivered does not depend on the schedule or the capacities.
* `flow_block` — at a block boundary a further block is delivered last and transformed by the
  composition of the stage functions.
* `jammed_empty` — when all stages and the reader are blocked between blocks, nothing is left.
-/

set_option autoImplicit false

namespace Dataflow

variable {α : Type*}

/-! ## One stage -/

/-- Control state of a block stage: the elements read so far, or still to be written. -/
inductive Stage (α : Type*) where
  | reading (acc : List α)
  | writing (rest : List α)

namespace Stage

/-- After reading `x`; the block function runs as soon as the block is complete. -/
def accept (k : Nat) (f : List α → List α) (acc : List α) (x : α) : Stage α :=
  if acc.length + 1 = k then .writing (f (acc ++ [x])) else .reading (acc ++ [x])

/-- After a write that leaves `rest` to be written. -/
def emitted : List α → Stage α
  | [] => .reading []
  | y :: rest => .writing (y :: rest)

/-- One step of a stage between its FIFOs `i` and `o`; `none` if it is blocked. -/
def next (k : Nat) (f : List α → List α) :
    Stage α → Fifo α → Fifo α → Option (Stage α × Fifo α × Fifo α)
  | .reading acc, i, o => i.read.map fun p => (accept k f acc p.1, p.2, o)
  | .writing [], _, _ => none
  | .writing (y :: rest), i, o => (o.write y).map fun o' => (emitted rest, i, o')

/-- Elements read since the last block boundary. -/
def taken : Stage α → Nat
  | .reading acc => acc.length
  | .writing _ => 0

/-- Elements written since the last block boundary. -/
def given (k : Nat) : Stage α → Nat
  | .reading _ => 0
  | .writing rest => k - rest.length

/-- Elements held. -/
def load : Stage α → Nat
  | .reading acc => acc.length
  | .writing rest => rest.length

/-- A stage never holds a complete block while reading, nor an empty one while writing. -/
def WF (k : Nat) : Stage α → Prop
  | .reading acc => acc.length < k
  | .writing rest => 0 < rest.length ∧ rest.length ≤ k

/-- What a reading stage delivers from further inputs. -/
def feedFrom (k : Nat) (f : List α → List α) : List α → List α → List α
  | _, [] => []
  | acc, x :: xs =>
    if acc.length + 1 = k then f (acc ++ [x]) ++ feedFrom k f [] xs
    else feedFrom k f (acc ++ [x]) xs

/-- What a stage delivers from further inputs. -/
def feed (k : Nat) (f : List α → List α) : Stage α → List α → List α
  | .reading acc, xs => feedFrom k f acc xs
  | .writing rest, xs => rest ++ feedFrom k f [] xs

variable {k : Nat} {f : List α → List α}

@[simp] theorem feed_accept (acc : List α) (x : α) (xs : List α) :
    (accept k f acc x).feed k f xs = feedFrom k f acc (x :: xs) := by
  rw [feedFrom, accept]
  split <;> rfl

@[simp] theorem feed_emitted (rest xs : List α) :
    (emitted rest).feed k f xs = rest ++ feedFrom k f [] xs := by
  cases rest <;> rfl

/-- What a step can do. -/
theorem next_cases {st st' : Stage α} {i o i' o' : Fifo α}
    (h : st.next k f i o = some (st', i', o')) :
    (∃ acc x, st = .reading acc ∧ st' = accept k f acc x ∧ i.buf = x :: i'.buf ∧
      i'.cap = i.cap ∧ o' = o) ∨
    (∃ y rest, st = .writing (y :: rest) ∧ st' = emitted rest ∧ i' = i ∧
      o'.buf = o.buf ++ [y] ∧ o'.cap = o.cap ∧ o.buf.length < o.cap) := by
  match st, h with
  | .reading acc, h =>
    obtain ⟨⟨x, i₁⟩, hr, he⟩ := Option.map_eq_some_iff.mp h
    obtain ⟨hb, hc⟩ := Fifo.read_eq_some.mp hr
    cases he
    exact Or.inl ⟨acc, x, rfl, rfl, hb, hc, rfl⟩
  | .writing (y :: rest), h =>
    obtain ⟨o₁, hw, he⟩ := Option.map_eq_some_iff.mp h
    obtain ⟨hlt, hc, hb⟩ := Fifo.write_eq_some.mp hw
    cases he
    exact Or.inr ⟨y, rest, rfl, rfl, rfl, hb, hc, hlt⟩

/-- A blocked stage waits for its input FIFO to fill or for its output FIFO to drain. -/
theorem next_eq_none {st : Stage α} {i o : Fifo α} (hwf : st.WF k)
    (h : st.next k f i o = none) :
    ((∃ acc, st = .reading acc) ∧ i.buf = []) ∨
    ((∃ rest, st = .writing rest) ∧ o.buf.length = o.cap) := by
  match st, h with
  | .reading acc, h =>
    exact Or.inl ⟨⟨acc, rfl⟩, Fifo.read_eq_none.mp (Option.map_eq_none_iff.mp h)⟩
  | .writing [], h => simp [WF] at hwf
  | .writing (y :: rest), h =>
    exact Or.inr ⟨⟨_, rfl⟩, Fifo.write_eq_none.mp (Option.map_eq_none_iff.mp h)⟩

/-- **A step moves elements without changing what is delivered.** -/
theorem next_feed {st st' : Stage α} {i o i' o' : Fifo α}
    (h : st.next k f i o = some (st', i', o')) (xs : List α) :
    o'.buf ++ st'.feed k f (i'.buf ++ xs) = o.buf ++ st.feed k f (i.buf ++ xs) := by
  rcases next_cases h with ⟨acc, x, rfl, rfl, hb, -, rfl⟩ | ⟨y, rest, rfl, rfl, rfl, hb, -, -⟩
  · rw [feed_accept, hb]; rfl
  · rw [feed_emitted, hb, List.append_assoc]; rfl

section Length

variable (hf : ∀ b : List α, b.length = k → (f b).length = k)

include hf

theorem accept_wf (acc : List α) (x : α) (h : acc.length < k) : (accept k f acc x).WF k := by
  unfold accept
  split
  · rename_i hk
    have := hf (acc ++ [x]) (by simpa using hk)
    exact ⟨by omega, by omega⟩
  · simp only [WF, List.length_append, List.length_singleton]
    omega

theorem feedFrom_length : ∀ (xs acc : List α), acc.length < k →
    (feedFrom k f acc xs).length % k = 0
  | [], _, _ => by simp [feedFrom]
  | x :: xs, acc, h => by
    rw [feedFrom]
    split
    · rename_i hk
      rw [List.length_append, hf _ (by simpa using hk), Nat.add_mod_left]
      exact feedFrom_length xs [] (by simp; omega)
    · exact feedFrom_length xs _ (by rw [List.length_append, List.length_singleton]; omega)

end Length

theorem feedFrom_append : ∀ (xs acc ys : List α), acc.length < k →
    (acc.length + xs.length) % k = 0 →
    feedFrom k f acc (xs ++ ys) = feedFrom k f acc xs ++ feedFrom k f [] ys
  | [], acc, ys, h, hk => by
    rw [List.length_nil, Nat.add_zero, Nat.mod_eq_of_lt h] at hk
    rw [List.length_eq_zero_iff.mp hk]
    rfl
  | x :: xs, acc, ys, h, hk => by
    rw [List.length_cons] at hk
    rw [List.cons_append, feedFrom, feedFrom]
    split
    · rename_i hacc
      rw [show acc.length + (xs.length + 1) = k + xs.length by omega, Nat.add_mod_left] at hk
      rw [feedFrom_append xs [] ys (by simp; omega) (by simpa using hk), List.append_assoc]
    · refine feedFrom_append xs _ ys (by rw [List.length_append, List.length_singleton]; omega) ?_
      rw [List.length_append, List.length_singleton, Nat.add_assoc, Nat.add_comm 1]
      exact hk

/-- One whole block. -/
theorem feedFrom_block : ∀ (b acc : List α), acc.length < k → acc.length + b.length = k →
    feedFrom k f acc b = f (acc ++ b)
  | [], acc, h, hk => by simp at hk; omega
  | x :: xs, acc, h, hk => by
    rw [List.length_cons] at hk
    rw [feedFrom]
    split
    · rename_i hacc
      have : xs = [] := List.length_eq_zero_iff.mp (by omega)
      subst this
      rw [feedFrom, List.append_nil]
    · rw [feedFrom_block xs _ (by rw [List.length_append, List.length_singleton]; omega)
        (by rw [List.length_append, List.length_singleton]; omega), List.append_assoc]
      rfl

end Stage

/-! ## Runs of a stage -/

/-- `n` steps of a partial step function. -/
def steps {σ : Type*} (f : σ → Option σ) : Nat → σ → Option σ
  | 0, s => some s
  | n + 1, s => (f s).bind (steps f n)

theorem steps_add {σ : Type*} (f : σ → Option σ) : ∀ (m n : Nat) (s : σ),
    steps f (m + n) s = (steps f m s).bind (steps f n)
  | 0, n, s => by rw [Nat.zero_add]; rfl
  | m + 1, n, s => by
    rw [Nat.add_right_comm, steps, steps]
    cases f s with
    | none => rfl
    | some s' => exact steps_add f m n s'

/-- **Steps can be taken wherever an abstraction takes them.** -/
theorem steps_simulate {σ τ : Type*} {f : σ → Option σ} {g : τ → Option τ} (abs : σ → τ)
    {Ok : σ → Prop}
    (h : ∀ s t', Ok s → g (abs s) = some t' → ∃ s', f s = some s' ∧ abs s' = t' ∧ Ok s') :
    ∀ {n : Nat} {s : σ} {t' : τ}, Ok s → steps g n (abs s) = some t' →
      ∃ s', steps f n s = some s' ∧ abs s' = t' ∧ Ok s'
  | 0, s, t', hs, hg => by cases hg; exact ⟨s, rfl, rfl, hs⟩
  | n + 1, s, t', hs, hg => by
    obtain ⟨t₁, ht, hg⟩ := Option.bind_eq_some_iff.mp hg
    obtain ⟨s₁, hf, rfl, hs₁⟩ := h s t₁ hs ht
    obtain ⟨s', hs', habs⟩ := steps_simulate abs h hs₁ hg
    exact ⟨s', by rw [steps, hf]; exact hs', habs⟩

namespace Stage

/-- A stage with its two FIFOs as one state. -/
def step (k : Nat) (f : List α → List α) (s : Stage α × Fifo α × Fifo α) :
    Option (Stage α × Fifo α × Fifo α) :=
  s.1.next k f s.2.1 s.2.2

variable {k : Nat} {f : List α → List α}

theorem steps_reading : ∀ {rest : List α} (acc : List α) {i : Fifo α} (o : Fifo α), i.buf = rest →
    acc.length + rest.length = k → rest ≠ [] →
      ∃ i', steps (step k f) rest.length (.reading acc, i, o) =
        some (.writing (f (acc ++ rest)), i', o) ∧ i'.buf = []
  | [], _, _, _, _, _, hne => absurd rfl hne
  | x :: rest, acc, i, o, hb, hk, _ => by
    obtain ⟨i', hr, hb', -⟩ := Fifo.exists_read hb
    rw [List.length_cons] at hk ⊢
    rw [steps, step, next, hr, Option.map_some, Option.bind_some, accept]
    split
    · have hrest : rest = [] := List.length_eq_zero_iff.mp (by omega)
      subst hrest
      exact ⟨i', rfl, hb'⟩
    · obtain ⟨i'', hs, hb''⟩ := steps_reading (acc ++ [x]) o hb'
        (by rw [List.length_append, List.length_singleton]; omega)
        (by rintro rfl; rw [List.length_nil] at hk; omega)
      rw [List.append_assoc] at hs
      exact ⟨i'', hs, hb''⟩

theorem steps_writing : ∀ {rest : List α} (i : Fifo α) {o : Fifo α}, rest ≠ [] →
    o.buf.length + rest.length ≤ o.cap →
      ∃ o', steps (step k f) rest.length (.writing rest, i, o) = some (.reading [], i, o') ∧
        o'.buf = o.buf ++ rest
  | [], _, _, hne, _ => absurd rfl hne
  | y :: rest, i, o, _, hcap => by
    rw [List.length_cons] at hcap ⊢
    obtain ⟨o₁, hw⟩ : ∃ o₁, o.write y = some o₁ := by
      rw [← Option.ne_none_iff_exists']
      intro hnone
      rw [Fifo.write_eq_none] at hnone
      omega
    obtain ⟨-, hc, hb⟩ := Fifo.write_eq_some.mp hw
    rw [steps, step, next, hw, Option.map_some, Option.bind_some]
    cases rest with
    | nil => exact ⟨o₁, rfl, hb⟩
    | cons z zs =>
      obtain ⟨o', hs, hb'⟩ := steps_writing i (o := o₁) (List.cons_ne_nil z zs)
        (by rw [hb, hc, List.length_append, List.length_singleton]; omega)
      exact ⟨o', hs, by rw [hb', hb, List.append_assoc]; rfl⟩

/-- **A block in, a block out**: with its input buffered and room behind it, a stage takes a
block and delivers its image. -/
theorem steps_block (hf : ∀ b : List α, b.length = k → (f b).length = k) (hk : 0 < k)
    {i o : Fifo α} (hi : i.buf.length = k) (ho : o.buf.length + k ≤ o.cap) :
    ∃ i' o', steps (step k f) (k + k) (.reading [], i, o) = some (.reading [], i', o') ∧
      i'.buf = [] ∧ o'.buf = o.buf ++ f i.buf := by
  have hlen := hf i.buf hi
  obtain ⟨i', hr, hi'⟩ := steps_reading (f := f) [] o (rfl : i.buf = i.buf)
    (by rw [List.length_nil, Nat.zero_add, hi]) (by intro h; rw [h] at hi; simp at hi; omega)
  obtain ⟨o', hw, ho'⟩ := steps_writing (k := k) (f := f) i'
    (by intro h; rw [h] at hlen; simp at hlen; omega : f i.buf ≠ []) (by rw [hlen]; exact ho)
  refine ⟨i', o', ?_, hi', ho'⟩
  rw [hi, List.nil_append] at hr
  rw [hlen] at hw
  rw [steps_add, hr]
  exact hw

end Stage

/-! ## Pipelines -/

/-- A stage with its block function and its output FIFO. -/
structure Cell (α : Type*) where
  f : List α → List α
  stage : Stage α
  out : Fifo α

variable {k : Nat}

/-- What a pipeline delivers from further inputs. -/
def flow (k : Nat) : List (Cell α) → List α → List α
  | [], xs => xs
  | c :: cs, xs => flow k cs (c.out.buf ++ c.stage.feed k c.f xs)

/-- One step of the `n`-th stage; `q` is the input FIFO of the first one. -/
def stepAt (k : Nat) : Nat → Fifo α → List (Cell α) → Option (Fifo α × List (Cell α))
  | _, _, [] => none
  | 0, q, c :: cs =>
    (c.stage.next k c.f q c.out).map fun p => (p.2.1, { c with stage := p.1, out := p.2.2 } :: cs)
  | n + 1, q, c :: cs =>
    (stepAt k n c.out cs).map fun p => (q, { c with out := p.1 } :: p.2)

/-- A read from the last FIFO. -/
def popLast : Fifo α → List (Cell α) → Option (α × Fifo α × List (Cell α))
  | q, [] => q.read.map fun p => (p.1, p.2, [])
  | q, c :: cs => (popLast c.out cs).map fun p => (p.1, q, { c with out := p.2.1 } :: p.2.2)

/-- The composition of the stage functions. -/
def through (cs : List (Cell α)) (b : List α) : List α := cs.foldl (fun b c => c.f b) b

/-- Every stage function maps blocks to blocks. -/
def KeepsLength (k : Nat) (cs : List (Cell α)) : Prop :=
  ∀ c ∈ cs, ∀ b : List α, b.length = k → (c.f b).length = k

/-- Elements held by the stages and the FIFOs behind them. -/
def load : List (Cell α) → Nat
  | [] => 0
  | c :: cs => c.stage.load + c.out.buf.length + load cs

/-- With `w` elements written into the first FIFO, `n` of them still in it and `b` read from the
last one, the counts agree modulo `k` along the pipeline. -/
def Balanced (k : Nat) : Nat → Nat → List (Cell α) → Nat → Prop
  | w, n, [], b => (n + b) % k = w % k
  | w, n, c :: cs, b => (n + c.stage.taken) % k = w % k ∧ c.stage.WF k ∧
      Balanced k (c.stage.given k) c.out.buf.length cs b

theorem KeepsLength.tail {c : Cell α} {cs : List (Cell α)} (h : KeepsLength k (c :: cs)) :
    KeepsLength k cs :=
  fun d hd => h d (List.mem_cons_of_mem _ hd)

/-- What a step of a stage can do: the first stage steps, or a later one does. -/
theorem stepAt_cases {n : Nat} {q q' : Fifo α} {c : Cell α} {cs cs' : List (Cell α)}
    (h : stepAt k n q (c :: cs) = some (q', cs')) :
    (∃ st o, c.stage.next k c.f q c.out = some (st, q', o) ∧
      cs' = { c with stage := st, out := o } :: cs) ∨
    (∃ m o cs₁, n = m + 1 ∧ stepAt k m c.out cs = some (o, cs₁) ∧ q' = q ∧
      cs' = { c with out := o } :: cs₁) := by
  cases n with
  | zero =>
    obtain ⟨⟨st, i, o⟩, hn, he⟩ := Option.map_eq_some_iff.mp h
    cases he
    exact Or.inl ⟨st, o, hn, rfl⟩
  | succ m =>
    obtain ⟨⟨o, cs₁⟩, hn, he⟩ := Option.map_eq_some_iff.mp h
    cases he
    exact Or.inr ⟨m, o, cs₁, rfl, hn, rfl, rfl⟩

/-- **No step changes what the pipeline delivers.** -/
theorem stepAt_flow : ∀ {n : Nat} {q q' : Fifo α} {cs cs' : List (Cell α)},
    stepAt k n q cs = some (q', cs') → ∀ xs, flow k cs' (q'.buf ++ xs) = flow k cs (q.buf ++ xs)
  | _, _, _, [], _, h, _ => by simp [stepAt] at h
  | n, q, q', c :: cs, cs', h, xs => by
    rcases stepAt_cases h with ⟨st, o, hn, rfl⟩ | ⟨m, o, cs₁, rfl, hn, rfl, rfl⟩
    · simp only [flow, Stage.next_feed hn]
    · simp only [flow]
      exact stepAt_flow hn _

/-- **A read from the last FIFO takes the head of what the pipeline delivers.** -/
theorem popLast_flow : ∀ {q q' : Fifo α} {cs cs' : List (Cell α)} {x : α},
    popLast q cs = some (x, q', cs') →
      ∀ xs, flow k cs (q.buf ++ xs) = x :: flow k cs' (q'.buf ++ xs)
  | q, q', [], cs', x, h, xs => by
    obtain ⟨⟨y, q₁⟩, hr, he⟩ := Option.map_eq_some_iff.mp h
    cases he
    rw [(Fifo.read_eq_some.mp hr).1]
    rfl
  | q, q', c :: cs, cs', x, h, xs => by
    obtain ⟨⟨y, o, cs₁⟩, hr, he⟩ := Option.map_eq_some_iff.mp h
    cases he
    simp only [flow]
    exact popLast_flow hr _

/-- The last FIFO of a pipeline. -/
def lastFifo : Fifo α → List (Cell α) → Fifo α
  | q, [] => q
  | _, c :: cs => lastFifo c.out cs

/-! ## Balance -/

theorem Balanced.shift : ∀ {w n b : Nat} {cs : List (Cell α)}, Balanced k w n cs b →
    ∀ d, Balanced k (w + d) (n + d) cs b
  | w, n, b, [], h, d => by
    simp only [Balanced] at *
    rw [Nat.add_right_comm, Nat.add_mod, h, ← Nat.add_mod]
  | w, n, b, c :: cs, ⟨h, hwf, ht⟩, d => by
    refine ⟨?_, hwf, ht⟩
    rw [Nat.add_right_comm, Nat.add_mod, h, ← Nat.add_mod]

theorem Balanced.congr : ∀ {w w' n b : Nat} {cs : List (Cell α)}, Balanced k w n cs b →
    w % k = w' % k → Balanced k w' n cs b
  | _, _, _, _, [], h, hw => by simp only [Balanced] at *; rw [h, hw]
  | _, _, _, _, _ :: _, ⟨h, hwf, ht⟩, hw => ⟨by rw [h, hw], hwf, ht⟩

/-- A step of a stage keeps the counts in balance. -/
theorem Stage.next_balanced {f : List α → List α} (hf : ∀ b : List α, b.length = k → (f b).length = k)
    {st st' : Stage α} {i o i' o' : Fifo α} (hwf : st.WF k)
    (h : st.next k f i o = some (st', i', o')) :
    st'.WF k ∧ (i'.buf.length + st'.taken) % k = (i.buf.length + st.taken) % k ∧
      ∃ d, o'.buf.length = o.buf.length + d ∧ (st'.given k) % k = (st.given k + d) % k := by
  rcases next_cases h with ⟨acc, x, rfl, rfl, hb, -, rfl⟩ | ⟨y, rest, rfl, rfl, rfl, hb, -, -⟩
  · refine ⟨accept_wf hf acc x hwf, ?_, 0, rfl, ?_⟩
    · rw [hb, List.length_cons]
      unfold accept
      split
      · rename_i hk
        simp only [taken]
        rw [Nat.add_zero, show i'.buf.length + 1 + acc.length = i'.buf.length + k by omega,
          Nat.add_mod_right]
      · simp only [taken, List.length_append, List.length_singleton]
        congr 1; omega
    · unfold accept
      split
      · rename_i hk
        simp [given, hf (acc ++ [x]) (by simpa using hk)]
      · rfl
  · obtain ⟨hpos, hle⟩ := hwf
    rw [List.length_cons] at hle
    refine ⟨?_, ?_, 1, by rw [hb, List.length_append]; rfl, ?_⟩
    · cases rest with
      | nil => simp only [emitted, WF, List.length_nil]; omega
      | cons z zs => simp only [emitted, WF, List.length_cons] at *; omega
    · cases rest <;> rfl
    · cases rest with
      | nil =>
        simp only [emitted, given, List.length_cons, List.length_nil] at *
        rw [show k - (0 + 1) + 1 = k by omega, Nat.mod_self, Nat.zero_mod]
      | cons z zs =>
        simp only [emitted, given, List.length_cons] at *
        congr 1; omega

theorem stepAt_balanced : ∀ {n : Nat} {q q' : Fifo α} {cs cs' : List (Cell α)} {w b : Nat},
    KeepsLength k cs → Balanced k w q.buf.length cs b → stepAt k n q cs = some (q', cs') →
      Balanced k w q'.buf.length cs' b
  | _, _, _, [], _, _, _, _, _, h => by simp [stepAt] at h
  | n, q, q', c :: cs, cs', w, b, hf, ⟨hw, hwf, ht⟩, h => by
    rcases stepAt_cases h with ⟨st, o, hn, rfl⟩ | ⟨m, o, cs₁, rfl, hn, rfl, rfl⟩
    · obtain ⟨hwf', htk, d, hd, hg⟩ :=
        Stage.next_balanced (hf c List.mem_cons_self) hwf hn
      refine ⟨by rw [htk, hw], hwf', ?_⟩
      show Balanced k (st.given k) o.buf.length cs b
      rw [hd]
      exact (ht.shift d).congr hg.symm
    · exact ⟨hw, hwf, stepAt_balanced hf.tail ht hn⟩

theorem popLast_balanced : ∀ {q q' : Fifo α} {cs cs' : List (Cell α)} {x : α} {w b : Nat},
    Balanced k w q.buf.length cs b → popLast q cs = some (x, q', cs') →
      Balanced k w q'.buf.length cs' (b + 1)
  | q, q', [], cs', x, w, b, hw, h => by
    obtain ⟨⟨y, q₁⟩, hr, he⟩ := Option.map_eq_some_iff.mp h
    cases he
    rw [(Fifo.read_eq_some.mp hr).1, List.length_cons] at hw
    simp only [Balanced] at *
    rw [← hw]
    congr 1; omega
  | q, q', c :: cs, cs', x, w, b, ⟨hw, hwf, ht⟩, h => by
    obtain ⟨⟨y, o, cs₁⟩, hr, he⟩ := Option.map_eq_some_iff.mp h
    cases he
    exact ⟨hw, hwf, popLast_balanced ht hr⟩

/-! ## Whole blocks -/

theorem through_cons (c : Cell α) (cs : List (Cell α)) (b : List α) :
    through (c :: cs) b = through cs (c.f b) := rfl

/-- An idle pipeline: nothing read, nothing buffered. -/
def Idle (cs : List (Cell α)) : Prop := ∀ c ∈ cs, c.stage = .reading [] ∧ c.out.buf = []

theorem Idle.flow_nil : ∀ {cs : List (Cell α)}, Idle cs → flow k cs [] = []
  | [], _ => rfl
  | c :: cs, h => by
    obtain ⟨hs, ho⟩ := h c List.mem_cons_self
    rw [flow, hs, ho]
    exact Idle.flow_nil fun d hd => h d (List.mem_cons_of_mem _ hd)

theorem Idle.load_eq_zero : ∀ {cs : List (Cell α)}, Idle cs → load cs = 0
  | [], _ => rfl
  | c :: cs, h => by
    obtain ⟨hs, ho⟩ := h c List.mem_cons_self
    rw [load, hs, ho, Idle.load_eq_zero fun d hd => h d (List.mem_cons_of_mem _ hd)]
    rfl

/-- **A block written at a block boundary is delivered last, transformed by every stage.** -/
theorem flow_block (hk : 0 < k) : ∀ {cs : List (Cell α)} {xs : List α} {w b : Nat},
    KeepsLength k cs → Balanced k w xs.length cs b → w % k = 0 → ∀ blk : List α, blk.length = k →
      flow k cs (xs ++ blk) = flow k cs xs ++ through cs blk
  | [], _, _, _, _, _, _, _, _ => rfl
  | c :: cs, xs, w, b, hf, ⟨hw, hwf, ht⟩, hw0, blk, hblk => by
    have hfc := hf c List.mem_cons_self
    rw [hw0] at hw
    -- the stage in front is at a block boundary once it has consumed `xs`
    have hfeed : c.stage.feed k c.f (xs ++ blk) = c.stage.feed k c.f xs ++ c.f blk := by
      cases hs : c.stage with
      | reading acc =>
        rw [hs] at hw hwf
        rw [Stage.feed, Stage.feed, Stage.feedFrom_append xs acc blk hwf
            (by rw [Nat.add_comm]; exact hw),
          Stage.feedFrom_block blk [] hk (by rw [List.length_nil, Nat.zero_add]; exact hblk)]
        rfl
      | writing rest =>
        rw [hs] at hw
        rw [Stage.feed, Stage.feed, Stage.feedFrom_append xs [] blk hk
            (by rw [List.length_nil, Nat.zero_add]; exact hw),
          Stage.feedFrom_block blk [] hk (by rw [List.length_nil, Nat.zero_add]; exact hblk),
          List.append_assoc]
        rfl
    have hlen : (c.stage.given k + (c.stage.feed k c.f xs).length) % k = 0 := by
      cases hs : c.stage with
      | reading acc =>
        rw [hs] at hwf
        rw [Stage.given, Nat.zero_add]
        exact Stage.feedFrom_length hfc xs acc hwf
      | writing rest =>
        rw [hs] at hwf
        have := Stage.feedFrom_length hfc xs [] hk
        rw [Stage.given, Stage.feed, List.length_append, ← Nat.add_assoc,
          Nat.sub_add_cancel hwf.2, Nat.add_mod_left]
        exact this
    have ht' : Balanced k (c.stage.given k + (c.stage.feed k c.f xs).length)
        (c.out.buf ++ c.stage.feed k c.f xs).length cs b := by
      rw [List.length_append]
      exact ht.shift _
    rw [flow, flow, through_cons, hfeed, ← List.append_assoc]
    exact flow_block hk hf.tail ht' hlen _ (hfc blk hblk)

/-! ## Blocked pipelines -/

/-- No stage can step. -/
def Blocked (k : Nat) (q : Fifo α) (cs : List (Cell α)) : Prop := ∀ n, stepAt k n q cs = none

theorem Blocked.cons {q : Fifo α} {c : Cell α} {cs : List (Cell α)} (h : Blocked k q (c :: cs)) :
    c.stage.next k c.f q c.out = none ∧ Blocked k c.out cs :=
  ⟨Option.map_eq_none_iff.mp (h 0), fun n => Option.map_eq_none_iff.mp (h (n + 1))⟩

/-- With an empty last FIFO, blocked stages can only be waiting for input. -/
theorem starved : ∀ {cs : List (Cell α)} {q : Fifo α} {w b : Nat},
    Balanced k w q.buf.length cs b → Blocked k q cs → (∀ c ∈ cs, 0 < c.out.cap) →
    (lastFifo q cs).buf = [] →
      q.buf = [] ∧ ∀ c ∈ cs, (∃ acc, c.stage = .reading acc) ∧ c.out.buf = []
  | [], q, _, _, _, _, _, hq => ⟨hq, fun c hc => (List.not_mem_nil hc).elim⟩
  | c :: cs, q, w, b, ⟨_, hwf, ht⟩, hbl, hcap, hq => by
    obtain ⟨hc, hbl⟩ := hbl.cons
    obtain ⟨ho, hcs⟩ := starved ht hbl (fun d hd => hcap d (List.mem_cons_of_mem _ hd)) hq
    rcases Stage.next_eq_none hwf hc with ⟨hr, hq0⟩ | ⟨-, hfull⟩
    · refine ⟨hq0, fun d hd => ?_⟩
      rcases List.mem_cons.mp hd with rfl | hd
      · exact ⟨hr, ho⟩
      · exact hcs d hd
    · have := hcap c List.mem_cons_self
      rw [ho, List.length_nil] at hfull
      omega

/-- Stages that wait for input behind empty FIFOs are at a block boundary if the writer is. -/
theorem Balanced.idle : ∀ {cs : List (Cell α)} {w b : Nat}, Balanced k w 0 cs b →
    (∀ c ∈ cs, (∃ acc, c.stage = .reading acc) ∧ c.out.buf = []) → w % k = 0 →
      Idle cs ∧ b % k = 0
  | [], w, b, hw, _, hw0 => by
    simp only [Balanced, Nat.zero_add] at hw
    exact ⟨fun c hc => (List.not_mem_nil hc).elim, by rw [hw, hw0]⟩
  | c :: cs, w, b, ⟨hw, hwf, ht⟩, h, hw0 => by
    obtain ⟨⟨acc, hs⟩, ho⟩ := h c List.mem_cons_self
    rw [hs] at hw hwf ht
    rw [ho] at ht
    rw [hw0, Nat.zero_add, Stage.taken, Nat.mod_eq_of_lt hwf] at hw
    obtain ⟨hidle, hb⟩ := Balanced.idle ht (fun d hd => h d (List.mem_cons_of_mem _ hd))
      (Nat.zero_mod k)
    refine ⟨fun d hd => ?_, hb⟩
    rcases List.mem_cons.mp hd with rfl | hd
    · exact ⟨by rw [hs, List.length_eq_zero_iff.mp hw], ho⟩
    · exact hidle d hd

/-- **Starvation.** A pipeline in which every stage is blocked while its last FIFO is empty and
its writer is between blocks is idle, and its reader is between blocks. -/
theorem jammed_empty {cs : List (Cell α)} {q : Fifo α} {w b : Nat}
    (hw : Balanced k w q.buf.length cs b) (hbl : Blocked k q cs)
    (hcap : ∀ c ∈ cs, 0 < c.out.cap) (hlast : (lastFifo q cs).buf = []) (hw0 : w % k = 0) :
    q.buf = [] ∧ Idle cs ∧ b % k = 0 := by
  obtain ⟨hq, hcs⟩ := starved hw hbl hcap hlast
  rw [hq] at hw
  exact ⟨hq, hw.idle hcs hw0⟩

/-! ## Conservation -/

theorem Stage.next_load {f : List α → List α} (hf : ∀ b : List α, b.length = k → (f b).length = k)
    {st st' : Stage α} {i o i' o' : Fifo α} (h : st.next k f i o = some (st', i', o')) :
    i'.buf.length + st'.load + o'.buf.length = i.buf.length + st.load + o.buf.length := by
  rcases next_cases h with ⟨acc, x, rfl, rfl, hb, -, rfl⟩ | ⟨y, rest, rfl, rfl, rfl, hb, -, -⟩
  · rw [hb, List.length_cons]
    unfold accept
    split
    · rename_i hk
      have := hf (acc ++ [x]) (by simpa using hk)
      simp only [load]
      omega
    · simp only [load, List.length_append, List.length_singleton]
      omega
  · rw [hb, List.length_append, List.length_singleton]
    cases rest <;> simp only [emitted, load, List.length_cons, List.length_nil] <;> omega

/-- A step moves elements; it neither creates nor drops one. -/
theorem stepAt_load : ∀ {n : Nat} {q q' : Fifo α} {cs cs' : List (Cell α)}, KeepsLength k cs →
    stepAt k n q cs = some (q', cs') →
      q'.buf.length + load cs' = q.buf.length + load cs
  | _, _, _, [], _, _, h => by simp [stepAt] at h
  | n, q, q', c :: cs, cs', hf, h => by
    rcases stepAt_cases h with ⟨st, o, hn, rfl⟩ | ⟨m, o, cs₁, rfl, hn, rfl, rfl⟩
    · have := Stage.next_load (hf c List.mem_cons_self) hn
      simp only [load]
      omega
    · have := stepAt_load hf.tail hn
      simp only [load]
      omega

theorem popLast_load : ∀ {q q' : Fifo α} {cs cs' : List (Cell α)} {x : α},
    popLast q cs = some (x, q', cs') →
      q'.buf.length + load cs' + 1 = q.buf.length + load cs
  | q, q', [], cs', x, h => by
    obtain ⟨⟨y, q₁⟩, hr, he⟩ := Option.map_eq_some_iff.mp h
    cases he
    rw [(Fifo.read_eq_some.mp hr).1]
    simp [load]
  | q, q', c :: cs, cs', x, h => by
    obtain ⟨⟨y, o, cs₁⟩, hr, he⟩ := Option.map_eq_some_iff.mp h
    cases he
    have := popLast_load hr
    simp only [load]
    omega

end Dataflow

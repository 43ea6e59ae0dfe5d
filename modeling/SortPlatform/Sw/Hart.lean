import SortPlatform.Sw.Barrier
import SortPlatform.Sw.MergeLoop
import SortPlatform.Sw.Program

/-!
# One hart

`main` of `src/sw/final/main.cpp` and `main128.cpp` as one hart runs it, from the entry of `main`
to the end of `src/sw/final/bootstrap.S`, one access to memory or to a register of the DMA a step.
`sem_wait` and `sem_post` are atomic. A step that has to wait is `none`, and so is a store outside
an array.

Principal result: `hartStep_move` — what a step can do, as far as words, events and stages go.
-/

set_option autoImplicit false

namespace SortPlatform.Sw

/-! ## Memory -/

structure Memory where
  arr : Arr → List UInt8
  word : Word → Nat

namespace Memory

def setWord (mem : Memory) (w : Word) (v : Nat) : Memory :=
  { mem with word := Function.update mem.word w v }

def setArr (mem : Memory) (a : Arr) (xs : List UInt8) : Memory :=
  { mem with arr := Function.update mem.arr a xs }

@[simp] theorem setWord_word (mem : Memory) (w : Word) (v : Nat) :
    (mem.setWord w v).word = Function.update mem.word w v := rfl

@[simp] theorem setArr_arr (mem : Memory) (a : Arr) (xs : List UInt8) :
    (mem.setArr a xs).arr = Function.update mem.arr a xs := rfl

/-- `a[i] = v` -/
def store (mem : Memory) (a : Arr) (i : Nat) (v : UInt8) : Option Memory :=
  if i < (mem.arr a).length then some (mem.setArr a ((mem.arr a).set i v)) else none

theorem store_eq_some {mem mem' : Memory} {a : Arr} {i : Nat} {v : UInt8} :
    mem.store a i v = some mem' ↔
      i < (mem.arr a).length ∧ mem' = mem.setArr a ((mem.arr a).set i v) := by
  unfold store
  split
  · simp [*, eq_comm]
  · simp [*]

theorem store_length {mem mem' : Memory} {a : Arr} {i : Nat} {v : UInt8}
    (h : mem.store a i v = some mem') (b : Arr) : (mem'.arr b).length = (mem.arr b).length := by
  obtain ⟨-, rfl⟩ := store_eq_some.mp h
  by_cases hb : b = a
  · subst hb
    simp
  · simp [hb]

theorem store_arr {mem mem' : Memory} {a b : Arr} {i : Nat} {v : UInt8}
    (h : mem.store a i v = some mem') (hb : b ≠ a) : mem'.arr b = mem.arr b := by
  obtain ⟨-, rfl⟩ := store_eq_some.mp h
  exact Function.update_of_ne hb ..

theorem store_word {mem mem' : Memory} {a : Arr} {i : Nat} {v : UInt8}
    (h : mem.store a i v = some mem') : mem'.word = mem.word := by
  obtain ⟨-, rfl⟩ := store_eq_some.mp h
  rfl

/-- The objects of the barrier. -/
def barrierWords (mem : Memory) : BarrierWords :=
  ⟨mem.word .barrier_lock, mem.word .barrier_sem, mem.word .barrier_counter⟩

def setBarrier (mem : Memory) (w : BarrierWords) : Memory :=
  ((mem.setWord .barrier_lock w.lock).setWord .barrier_sem w.sem).setWord .barrier_counter
    w.counter

theorem setBarrier_word (mem : Memory) (w : BarrierWords) {x : Word} (h1 : x ≠ .barrier_lock)
    (h2 : x ≠ .barrier_sem) (h3 : x ≠ .barrier_counter) : (mem.setBarrier w).word x = mem.word x := by
  simp [setBarrier, Function.update, h1, h2, h3]

end Memory

/-! ## Events -/

/-- What a step does that other harts and devices can notice. -/
inductive Event where
  | semInit (w : Word) (count : Nat)
  | semPost (w : Word)
  | dmaStore (c : Call) (r : DmaReg)
  | load (h : Hart) (a : Arr) (i : Nat)
  | store (h : Hart) (a : Arr) (i : Nat)
  /-- `return` from `main` -/
  | returned (h : Hart)
  | sysExit (h : Hart)
  deriving DecidableEq, Repr

/-! ## The program of a hart -/

inductive HartPc where
  /-- the `k`-th `sem_init` -/
  | init (k : Nat)
  /-- `sem_wait(&DMA_flag[hart_id])` before a phase -/
  | wait (ph : Phase)
  /-- after `k` stores of the calls of a phase -/
  | transfer (ph : Phase) (k : Nat)
  /-- `sem_post` of the other hart's `DMA_flag` after a phase -/
  | post (ph : Phase)
  /-- the head of the loop over `W` -/
  | passes (W : Nat)
  /-- the head of the loop over `i` -/
  | pairs (W i : Nat)
  | merge (W i : Nat) (m : Merge)
  /-- `tmp[k] = out[k]`: the load -/
  | copy (W k : Nat)
  /-- `tmp[k] = out[k]`: the store -/
  | copyStore (W k : Nat) (v : UInt8)
  | barrier (b : BarrierPc)
  /-- the head of the loop over `i` of the final merge -/
  | finals (i : Nat)
  | final (i : Nat) (m : Merge)
  /-- `return 0` -/
  | ret
  | amoadd
  /-- `blt a0, t2, 1b` -/
  | spin (a0 : Nat)
  | sysExit
  | exited
  deriving DecidableEq, Repr

/-- `if (hart_id == 0)`, `if (hart_id == 1)`: only hart 0 initialises, and it does not wait before
its writes. -/
def entry : Hart → HartPc
  | .hart0 => .init 0
  | .hart1 => .wait .write

/-- What follows a phase. -/
def Phase.next : Phase → HartPc
  | .write => .wait .read
  | .read => .passes 32

/-- `if (hart_id == 0)` after the barrier. -/
def afterBarrier : Hart → HartPc
  | .hart0 => .finals 1
  | .hart1 => .ret

/-- One step of a merge of `x` and `y` into `o`. -/
def mergeIn (h : Hart) (x y o : Arr) (b : Bounds) (stray : UInt8) (m : Merge) (mem : Memory) :
    Option (Merge × Memory × List Event) :=
  match m.next b (mem.arr x) (mem.arr y) stray with
  | (m', none) => some (m', mem, [])
  | (m', some (.left i)) => some (m', mem, [.load h x i])
  | (m', some (.right i)) => some (m', mem, [.load h y i])
  | (m', some (.out i v)) => (mem.store o i v).map fun mem' => (m', mem', [.store h o i])

/-- The merge of the `i`-th pair of runs of width `W / 2`. -/
def passBounds (W i : Nat) : Bounds := ⟨(i - 1) * W + W / 2, i * W, i * W⟩

def passStart (W i : Nat) : Merge := ⟨(i - 1) * W, (i - 1) * W + W / 2, (i - 1) * W, .test⟩

/-- The merge of `out0` and `out1` into `result`. -/
def finalBounds (p : Program) (i : Nat) : Bounds := ⟨p.half, p.half, i * p.total⟩

def finalStart : Merge := ⟨0, 0, 0, .test⟩

/-- The posts of a step in `barrier`. -/
def barrierPosts (b : BarrierPc) : List Event :=
  match b with
  | .unlockLast | .unlockFirst => [.semPost .barrier_lock]
  | .release j => if j < lastArrival PROCESSORS then [.semPost .barrier_sem] else []
  | _ => []

theorem mem_barrierPosts {b : BarrierPc} {e : Event} (he : e ∈ barrierPosts b) :
    ∃ w, e = .semPost w := by
  unfold barrierPosts at he
  split at he
  · exact ⟨_, List.mem_singleton.mp he⟩
  · exact ⟨_, List.mem_singleton.mp he⟩
  · split at he
    · exact ⟨_, List.mem_singleton.mp he⟩
    · cases he
  · cases he

/-- `blt`, on two's complement. -/
def blt (a b : Nat) : Bool := decide (Int.bmod a (2 ^ 32) < Int.bmod b (2 ^ 32))

/-- One step of hart `h`; `stray` is found by a load outside an array. -/
def hartStep (p : Program) (h : Hart) (stray : UInt8) (pc : HartPc) (mem : Memory) :
    Option (HartPc × Memory × List Event) :=
  match pc with
  | .init k =>
    match sem_inits[k]? with
    | some (w, count) => some (.init (k + 1), mem.setWord w count, [.semInit w count])
    | none => some (.transfer .write 0, mem, [])
  | .wait ph => (sem_wait (mem.word (.DMA_flag h))).map fun v =>
      (.transfer ph 0, mem.setWord (.DMA_flag h) v, [])
  | .transfer ph k =>
    match (stores (p.transfers ph h))[k]? with
    | some (c, r) => some (.transfer ph (k + 1), mem, [.dmaStore c r])
    | none => some (.post ph, mem, [])
  | .post ph =>
    some (ph.next, mem.setWord (.DMA_flag h.other) (sem_post (mem.word (.DMA_flag h.other))),
      [.semPost (.DMA_flag h.other)])
  | .passes W => some (if W ≤ p.half then .pairs W 1 else .barrier .waitLock, mem, [])
  | .pairs W i => some (if i ≤ p.half / W then .merge W i (passStart W i) else .copy W 0, mem, [])
  | .merge W i m =>
    if m.pc = .done then some (.pairs W (i + 1), mem, [])
    else (mergeIn h (tmp h) (tmp h) (out h) (passBounds W i) stray m mem).map fun r =>
      (.merge W i r.1, r.2)
  | .copy W k =>
    if k < p.half then
      some (.copyStore W k (load (mem.arr (out h)) stray k), mem, [.load h (out h) k])
    else some (.passes (W * 2), mem, [])
  | .copyStore W k v => (mem.store (tmp h) k v).map fun mem' =>
      (.copy W (k + 1), mem', [.store h (tmp h) k])
  | .barrier b =>
    if b = .returned then some (afterBarrier h, mem, [])
    else (barrier PROCESSORS b mem.barrierWords).map fun r =>
      (.barrier r.1, mem.setBarrier r.2, barrierPosts b)
  | .finals i => some (if i ≤ p.total / p.total then .final i finalStart else .ret, mem, [])
  | .final i m =>
    if m.pc = .done then some (.finals (i + 1), mem, [])
    else (mergeIn h .out0 .out1 .result (finalBounds p i) stray m mem).map fun r =>
      (.final i r.1, r.2)
  | .ret => some (.amoadd, mem, [.returned h])
  | .amoadd =>
    some (.spin (mem.word .exit_counter),
      mem.setWord .exit_counter ((mem.word .exit_counter + 1) % 2 ^ 32), [])
  | .spin a0 => if blt a0 1 then none else some (.sysExit, mem, [])
  | .sysExit => some (.exited, mem, [.sysExit h])
  | .exited => none

/-! ## Stages -/

/-- How far a hart has come. -/
@[simp] def HartPc.stage : HartPc → Nat
  | .init _ | .wait .write => 0
  | .transfer .write _ => 1
  | .post .write => 2
  | .wait .read => 3
  | .transfer .read _ => 4
  | .post .read => 5
  | .passes _ | .pairs _ _ | .merge _ _ _ | .copy _ _ | .copyStore _ _ _ => 6
  | .barrier _ => 7
  | .finals _ | .final _ _ | .ret => 8
  | .amoadd => 9
  | .spin _ => 10
  | .sysExit => 11
  | .exited => 12

/-- An access to the arrays `loads` or `stores`. -/
def Accesses (h : Hart) (loads stores : Arr → Prop) (e : Event) : Prop :=
  ∃ a i, (e = .load h a i ∧ loads a) ∨ (e = .store h a i ∧ stores a)

/-- What a step can do, as far as words, events and stages go. -/
inductive Move (p : Program) (h : Hart) (mem : Memory) :
    HartPc → HartPc → Memory → List Event → Prop
  | init {k : Nat} {w : Word} {count : Nat} (hk : sem_inits[k]? = some (w, count)) :
      Move p h mem (.init k) (.init (k + 1)) (mem.setWord w count) [.semInit w count]
  | start {k : Nat} (hk : sem_inits.length ≤ k) :
      Move p h mem (.init k) (.transfer .write 0) mem []
  | wait {ph : Phase} {v : Nat} (hv : mem.word (.DMA_flag h) = v + 1) :
      Move p h mem (.wait ph) (.transfer ph 0) (mem.setWord (.DMA_flag h) v) []
  | dmaStore {ph : Phase} {k : Nat} {c : Call} {r : DmaReg}
      (hk : (stores (p.transfers ph h))[k]? = some (c, r)) :
      Move p h mem (.transfer ph k) (.transfer ph (k + 1)) mem [.dmaStore c r]
  | sent {ph : Phase} {k : Nat} (hk : (stores (p.transfers ph h)).length ≤ k) :
      Move p h mem (.transfer ph k) (.post ph) mem []
  | post {ph : Phase} :
      Move p h mem (.post ph) ph.next
        (mem.setWord (.DMA_flag h.other) (sem_post (mem.word (.DMA_flag h.other))))
        [.semPost (.DMA_flag h.other)]
  | pass {pc pc' : HartPc} {mem' : Memory} {ev : List Event} (hpc : pc.stage = 6)
      (hpc' : pc'.stage = 6) (hw : mem'.word = mem.word)
      (hsize : ∀ a, (mem'.arr a).length = (mem.arr a).length)
      (hframe : ∀ a, a ≠ tmp h → a ≠ out h → mem'.arr a = mem.arr a)
      (hev : ∀ e ∈ ev, Accesses h (fun a => a = tmp h ∨ a = out h)
        (fun a => a = tmp h ∨ a = out h) e) : Move p h mem pc pc' mem' ev
  | enter {W : Nat} : Move p h mem (.passes W) (.barrier .waitLock) mem []
  | barrier {b : BarrierPc} {r : BarrierPc × BarrierWords} (hb : b ≠ .returned)
      (hr : barrier PROCESSORS b mem.barrierWords = some r) :
      Move p h mem (.barrier b) (.barrier r.1) (mem.setBarrier r.2) (barrierPosts b)
  | leave {pc' : HartPc} (hpc' : pc'.stage = 8) : Move p h mem (.barrier .returned) pc' mem []
  | final {pc pc' : HartPc} {mem' : Memory} {ev : List Event} (hpc : pc.stage = 8)
      (hpc' : pc'.stage = 8) (hw : mem'.word = mem.word)
      (hsize : ∀ a, (mem'.arr a).length = (mem.arr a).length)
      (hframe : ∀ a, a ≠ .result → mem'.arr a = mem.arr a)
      (hev : ∀ e ∈ ev, Accesses h (fun a => a = .out0 ∨ a = .out1) (fun a => a = .result) e) :
      Move p h mem pc pc' mem' ev
  | ret : Move p h mem .ret .amoadd mem [.returned h]
  | amoadd : Move p h mem .amoadd (.spin (mem.word .exit_counter))
      (mem.setWord .exit_counter ((mem.word .exit_counter + 1) % 2 ^ 32)) []
  | unspin {a0 : Nat} (ha : blt a0 1 = false) : Move p h mem (.spin a0) .sysExit mem []
  | exit : Move p h mem .sysExit .exited mem [.sysExit h]

section Move

variable {p : Program} {h : Hart} {stray : UInt8} {pc pc' : HartPc} {mem mem' : Memory}
  {ev : List Event}

theorem mergeIn_eq_some {x y o : Arr} {b : Bounds} {m m' : Merge}
    (hs : mergeIn h x y o b stray m mem = some (m', mem', ev)) :
    m' = (m.next b (mem.arr x) (mem.arr y) stray).1 ∧ mem'.word = mem.word ∧
      (∀ a, (mem'.arr a).length = (mem.arr a).length) ∧
      (∀ a, a ≠ o → mem'.arr a = mem.arr a) ∧
      ∀ e ∈ ev, Accesses h (fun a => a = x ∨ a = y) (fun a => a = o) e := by
  unfold mergeIn at hs
  split at hs <;> rename_i heq
  · cases hs
    exact ⟨by rw [heq], rfl, fun _ => rfl, fun _ _ => rfl, by simp⟩
  · cases hs
    refine ⟨by rw [heq], rfl, fun _ => rfl, fun _ _ => rfl, fun e he => ?_⟩
    rw [List.mem_singleton.mp he]
    exact ⟨x, _, Or.inl ⟨rfl, Or.inl rfl⟩⟩
  · cases hs
    refine ⟨by rw [heq], rfl, fun _ => rfl, fun _ _ => rfl, fun e he => ?_⟩
    rw [List.mem_singleton.mp he]
    exact ⟨y, _, Or.inl ⟨rfl, Or.inr rfl⟩⟩
  · obtain ⟨mem₁, hst, hs⟩ := Option.map_eq_some_iff.mp hs
    cases hs
    refine ⟨by rw [heq], Memory.store_word hst, Memory.store_length hst,
      fun _ ha => Memory.store_arr hst ha, fun e he => ?_⟩
    rw [List.mem_singleton.mp he]
    exact ⟨o, _, Or.inr ⟨rfl, rfl⟩⟩

/-- **What a step can do.** -/
theorem hartStep_move (hs : hartStep p h stray pc mem = some (pc', mem', ev)) :
    Move p h mem pc pc' mem' ev := by
  unfold hartStep at hs
  cases pc with
  | init k =>
    dsimp only at hs
    split at hs
    · cases hs
      exact .init (by assumption)
    · rename_i hk
      cases hs
      exact .start (List.getElem?_eq_none_iff.mp hk)
  | wait ph =>
    obtain ⟨v, hv, hs⟩ := Option.map_eq_some_iff.mp hs
    cases hs
    exact .wait (sem_wait_eq_some.mp hv)
  | transfer ph k =>
    dsimp only at hs
    split at hs
    · cases hs
      exact .dmaStore (by assumption)
    · rename_i hk
      cases hs
      exact .sent (List.getElem?_eq_none_iff.mp hk)
  | post ph =>
    cases hs
    exact .post
  | passes W =>
    cases hs
    split
    · exact .pass rfl rfl rfl (fun _ => rfl) (fun _ _ _ => rfl) (by simp)
    · exact .enter
  | pairs W i =>
    cases hs
    refine .pass rfl ?_ rfl (fun _ => rfl) (fun _ _ _ => rfl) (by simp)
    split <;> rfl
  | merge W i m =>
    dsimp only at hs
    split at hs
    · cases hs
      exact .pass rfl rfl rfl (fun _ => rfl) (fun _ _ _ => rfl) (by simp)
    · obtain ⟨⟨m', r⟩, hm, hs⟩ := Option.map_eq_some_iff.mp hs
      cases hs
      obtain ⟨-, hw, hsize, hframe, hev⟩ := mergeIn_eq_some hm
      refine .pass rfl rfl hw hsize (fun a _ ha => hframe a ha) fun e he => ?_
      obtain ⟨a, i, ⟨rfl, ha⟩ | ⟨rfl, ha⟩⟩ := hev e he
      · exact ⟨a, i, Or.inl ⟨rfl, Or.inl (ha.elim id id)⟩⟩
      · exact ⟨a, i, Or.inr ⟨rfl, Or.inr ha⟩⟩
  | copy W k =>
    dsimp only at hs
    split at hs
    · cases hs
      refine .pass rfl rfl rfl (fun _ => rfl) (fun _ _ _ => rfl) fun e he => ?_
      rw [List.mem_singleton.mp he]
      exact ⟨out h, k, Or.inl ⟨rfl, Or.inr rfl⟩⟩
    · cases hs
      exact .pass rfl rfl rfl (fun _ => rfl) (fun _ _ _ => rfl) (by simp)
  | copyStore W k v =>
    obtain ⟨mem₁, hst, hs⟩ := Option.map_eq_some_iff.mp hs
    cases hs
    refine .pass rfl rfl (Memory.store_word hst) (Memory.store_length hst)
      (fun a ha _ => Memory.store_arr hst ha) fun e he => ?_
    rw [List.mem_singleton.mp he]
    exact ⟨tmp h, k, Or.inr ⟨rfl, Or.inl rfl⟩⟩
  | barrier b =>
    dsimp only at hs
    split at hs
    · rename_i hb
      subst hb
      cases hs
      refine .leave ?_
      cases h <;> rfl
    · rename_i hb
      obtain ⟨r, hr, hs⟩ := Option.map_eq_some_iff.mp hs
      cases hs
      exact .barrier hb hr
  | finals i =>
    cases hs
    refine .final rfl ?_ rfl (fun _ => rfl) (fun _ _ => rfl) (by simp)
    split <;> rfl
  | final i m =>
    dsimp only at hs
    split at hs
    · cases hs
      exact .final rfl rfl rfl (fun _ => rfl) (fun _ _ => rfl) (by simp)
    · obtain ⟨⟨m', r⟩, hm, hs⟩ := Option.map_eq_some_iff.mp hs
      cases hs
      obtain ⟨-, hw, hsize, hframe, hev⟩ := mergeIn_eq_some hm
      exact .final rfl rfl hw hsize hframe hev
  | ret =>
    cases hs
    exact .ret
  | amoadd =>
    cases hs
    exact .amoadd
  | spin a0 =>
    dsimp only at hs
    split at hs
    · cases hs
    · rename_i ha
      cases hs
      exact .unspin (by simpa using ha)
  | sysExit =>
    cases hs
    exact .exit
  | exited => cases hs

theorem Move.length (hm : Move p h mem pc pc' mem' ev) (a : Arr) :
    (mem'.arr a).length = (mem.arr a).length := by
  cases hm with
  | pass _ _ _ hsize => exact hsize a
  | final _ _ _ hsize => exact hsize a
  | _ => rfl

/-- No step leads back. -/
theorem Move.stage_le (hm : Move p h mem pc pc' mem' ev) : pc.stage ≤ pc'.stage := by
  cases hm with
  | @wait ph | @dmaStore ph | @sent ph => cases ph <;> simp
  | @post ph => cases ph <;> simp [Phase.next]
  | pass hpc hpc' => omega
  | leave hpc' =>
    show 7 ≤ pc'.stage
    omega
  | final hpc hpc' => omega
  | _ => simp

/-- **What a step leaves alone**: the passes of a hart change its own arrays, the final merge
changes `result`. -/
theorem Move.arr (hm : Move p h mem pc pc' mem' ev) (a : Arr) :
    mem'.arr a = mem.arr a ∨ (pc.stage = 6 ∧ (a = tmp h ∨ a = out h)) ∨
      (pc.stage = 8 ∧ a = .result) := by
  cases hm with
  | pass hpc _ _ _ hframe =>
    by_cases ha : a = tmp h ∨ a = out h
    · exact Or.inr (Or.inl ⟨hpc, ha⟩)
    · exact Or.inl (hframe a (fun h => ha (Or.inl h)) fun h => ha (Or.inr h))
  | final hpc _ _ _ hframe =>
    by_cases ha : a = .result
    · exact Or.inr (Or.inr ⟨hpc, ha⟩)
    · exact Or.inl (hframe a ha)
  | _ => exact Or.inl rfl

end Move

end SortPlatform.Sw

import SortPlatform.Sw.Hart

/-!
# Both harts

Both harts run `main` from reset on a shared memory. The DMA is a device that may replace the
contents of any array at any time; the words are the harts' own. `trace` collects what the steps
do.

`Harts.Inv` ties both program counters to the words:

* a count of `DMA_flag[h]` and the waits hart `h` has got past are the posts of the other hart,
* the stores to the registers of the DMA are those of the phases the harts have been through,
* `exit_counter` counts the harts that have come to it, and all but the first may exit.

Principal result: `harts_inv` — the invariant holds in every reachable state.
-/

set_option autoImplicit false

namespace SortPlatform.Sw

/-! ## Both harts -/

structure Harts where
  pc : Hart → HartPc
  mem : Memory
  trace : List Event

/-- `SYS_EXIT` has been executed; it stops all harts. -/
def Harts.Exited (s : Harts) : Prop := ∃ h, s.pc h = .exited

instance (s : Harts) : Decidable s.Exited := inferInstanceAs (Decidable (∃ _, _))

inductive HartsAct where
  /-- A step of hart `h`. -/
  | hart (h : Hart) (stray : UInt8)
  /-- The DMA replaces the contents of an array. -/
  | dma (a : Arr) (bytes : List UInt8)

def Harts.next (p : Program) (s : Harts) : HartsAct → Option Harts
  | .hart h stray =>
    if s.Exited then none
    else (hartStep p h stray (s.pc h) s.mem).map fun r =>
      ⟨Function.update s.pc h r.1, r.2.1, s.trace ++ r.2.2⟩
  | .dma a bytes =>
    if s.Exited ∨ bytes.length ≠ (s.mem.arr a).length then none
    else some { s with mem := s.mem.setArr a bytes }

/-- Reset: all words are zero. -/
def harts (p : Program) : Machine Harts HartsAct where
  init s := s.pc = entry ∧ (∀ a, (s.mem.arr a).length = p.length a) ∧ (∀ w, s.mem.word w = 0) ∧
    s.trace = []
  next := Harts.next p

/-! ## Places -/

/-- Where a hart can be, with the limits of the loops it is in. -/
def Place (p : Program) (h : Hart) (pc : HartPc) : Prop :=
  match pc with
  | .init _ => h = .hart0
  | .wait .write => h = .hart1
  | .merge W i m => i ≤ p.half / W ∧ m.Below (passBounds W i)
  | .copyStore _ k _ => k < p.half
  | .finals _ => h = .hart0
  | .final i m => h = .hart0 ∧ i ≤ p.total / p.total ∧ m.Below (finalBounds p i)
  | _ => True

section Step

variable {p : Program} {h : Hart} {stray : UInt8} {pc pc' : HartPc} {mem mem' : Memory}
  {ev : List Event}

theorem hartStep_place (hp : Place p h pc) (hs : hartStep p h stray pc mem = some (pc', mem', ev)) :
    Place p h pc' := by
  unfold hartStep at hs
  cases pc with
  | init k =>
    dsimp only at hs
    split at hs <;> cases hs
    · exact hp
    · trivial
  | wait ph =>
    obtain ⟨v, -, hs⟩ := Option.map_eq_some_iff.mp hs
    cases hs
    trivial
  | transfer ph k =>
    dsimp only at hs
    split at hs <;> cases hs <;> trivial
  | post ph =>
    cases hs
    cases ph <;> trivial
  | passes W =>
    cases hs
    split <;> trivial
  | pairs W i =>
    cases hs
    split
    · exact ⟨by assumption, trivial⟩
    · trivial
  | merge W i m =>
    dsimp only at hs
    split at hs
    · cases hs
      trivial
    · obtain ⟨⟨m', r⟩, hm, hs⟩ := Option.map_eq_some_iff.mp hs
      cases hs
      refine ⟨hp.1, ?_⟩
      rw [(mergeIn_eq_some hm).1]
      exact hp.2.next
  | copy W k =>
    dsimp only at hs
    split at hs <;> cases hs
    · assumption
    · trivial
  | copyStore W k v =>
    obtain ⟨mem₁, -, hs⟩ := Option.map_eq_some_iff.mp hs
    cases hs
    trivial
  | barrier b =>
    dsimp only at hs
    split at hs
    · cases hs
      cases h
      · exact rfl
      · trivial
    · obtain ⟨r, -, hs⟩ := Option.map_eq_some_iff.mp hs
      cases hs
      trivial
  | finals i =>
    cases hs
    split
    · exact ⟨hp, by assumption, trivial⟩
    · trivial
  | final i m =>
    dsimp only at hs
    split at hs
    · cases hs
      exact hp.1
    · obtain ⟨⟨m', r⟩, hm, hs⟩ := Option.map_eq_some_iff.mp hs
      cases hs
      refine ⟨hp.1, hp.2.1, ?_⟩
      rw [(mergeIn_eq_some hm).1]
      exact hp.2.2.next
  | ret | amoadd | sysExit =>
    cases hs
    trivial
  | spin a0 =>
    dsimp only at hs
    split at hs <;> cases hs
    trivial
  | exited => cases hs

/-- A merge never leaves the array it stores to. -/
theorem mergeIn_ne_none {x y o : Arr} {b : Bounds} {m : Merge} (hm : m.Below b)
    (hlen : b.last ≤ (mem.arr o).length) : mergeIn h x y o b stray m mem ≠ none := by
  unfold mergeIn
  split
  · simp
  · simp
  · simp
  · rename_i i v heq
    have hlt : i < b.last := hm.store (congrArg Prod.snd heq)
    rw [Memory.store, if_pos (by omega)]
    simp

/-- **Where a hart waits.** -/
theorem hartStep_eq_none (hlen : ∀ a, (mem.arr a).length = p.length a) (hp : Place p h pc)
    (hs : hartStep p h stray pc mem = none) :
    (∃ ph, pc = .wait ph ∧ mem.word (.DMA_flag h) = 0) ∨
    (∃ b, pc = .barrier b ∧ b ≠ .returned ∧ barrier PROCESSORS b mem.barrierWords = none) ∨
    (∃ a0, pc = .spin a0 ∧ blt a0 1) ∨ pc = .exited := by
  unfold hartStep at hs
  cases pc with
  | wait ph => exact Or.inl ⟨ph, rfl, sem_wait_eq_none.mp (Option.map_eq_none_iff.mp hs)⟩
  | barrier b =>
    dsimp only at hs
    split at hs
    · cases hs
    · exact Or.inr (Or.inl ⟨b, rfl, by assumption, Option.map_eq_none_iff.mp hs⟩)
  | spin a0 =>
    dsimp only at hs
    split at hs
    · rename_i ha
      exact Or.inr (Or.inr (Or.inl ⟨a0, rfl, ha⟩))
    · cases hs
  | exited => exact Or.inr (Or.inr (Or.inr rfl))
  | merge W i m =>
    dsimp only at hs
    split at hs
    · cases hs
    · refine absurd (Option.map_eq_none_iff.mp hs) (mergeIn_ne_none hp.2 ?_)
      rw [hlen, length_out]
      exact Nat.mul_le_of_le_div _ _ _ hp.1
  | copyStore W k v =>
    have hk : k < (mem.arr (tmp h)).length := by
      rw [hlen, length_tmp]
      exact hp
    have hst := Option.map_eq_none_iff.mp hs
    rw [Memory.store_eq_some.mpr ⟨hk, rfl⟩] at hst
    cases hst
  | final i m =>
    dsimp only at hs
    split at hs
    · cases hs
    · refine absurd (Option.map_eq_none_iff.mp hs) (mergeIn_ne_none hp.2.2 ?_)
      rw [hlen]
      exact Nat.mul_le_of_le_div _ _ _ hp.2.1
  | init k | transfer ph k | copy W k =>
    dsimp only at hs
    split at hs <;> cases hs
  | _ => cases hs

/-! ## The flags -/

/-- The posts a hart has made to the other's `DMA_flag`. -/
def posts (stage : Nat) : Nat := (if 3 ≤ stage then 1 else 0) + (if 6 ≤ stage then 1 else 0)

/-- The waits on its own `DMA_flag` a hart has got past. -/
def waits (h : Hart) (stage : Nat) : Nat :=
  match h with
  | .hart0 => if 4 ≤ stage then 1 else 0
  | .hart1 => (if 1 ≤ stage then 1 else 0) + (if 4 ≤ stage then 1 else 0)

theorem posts_le (n : Nat) : posts n ≤ 2 := by
  unfold posts
  split <;> split <;> omega

/-- From stage 6 on the flags are left alone. -/
theorem posts_of_le {n : Nat} (h : 6 ≤ n) : posts n = 2 := by
  unfold posts
  rw [if_pos (by omega), if_pos h]

theorem waits_of_le {n m : Nat} (h : Hart) (hn : 4 ≤ n) (hm : 4 ≤ m) : waits h n = waits h m := by
  unfold waits
  cases h
  · rw [if_pos hn, if_pos hm]
  · simp only [hn, hm, show 1 ≤ n by omega, show 1 ≤ m by omega]

theorem sem_inits_flag {k count : Nat} {g : Hart}
    (hk : sem_inits[k]? = some (.DMA_flag g, count)) : count = 0 := by
  have hall : ∀ x ∈ sem_inits, ∀ g, x.1 = .DMA_flag g → x.2 = 0 := by decide
  exact hall _ (List.mem_of_getElem? hk) g rfl

/-- Steps from stage 6 on do not touch the flags. -/
theorem flags_of_word {n : Nat} (hstage : 6 ≤ pc.stage) (hstage' : 6 ≤ pc'.stage)
    (hword : ∀ g, mem'.word (.DMA_flag g) = mem.word (.DMA_flag g))
    (hown : mem.word (.DMA_flag h) + waits h pc.stage = posts n)
    (hother : mem.word (.DMA_flag h.other) + waits h.other n = posts pc.stage) :
    mem'.word (.DMA_flag h) + waits h pc'.stage = posts n ∧
      mem'.word (.DMA_flag h.other) + waits h.other n = posts pc'.stage := by
  rw [hword, hword, waits_of_le h (show 4 ≤ pc'.stage by omega) (show 4 ≤ pc.stage by omega),
    posts_of_le hstage', ← posts_of_le hstage]
  exact ⟨hown, hother⟩

/-- **One step keeps the balance of both flags**, `n` being the stage of the other hart. -/
theorem Move.flags (hm : Move p h mem pc pc' mem' ev) (hp : Place p h pc) {n : Nat}
    (hown : mem.word (.DMA_flag h) + waits h pc.stage = posts n)
    (hother : mem.word (.DMA_flag h.other) + waits h.other n = posts pc.stage) :
    mem'.word (.DMA_flag h) + waits h pc'.stage = posts n ∧
      mem'.word (.DMA_flag h.other) + waits h.other n = posts pc'.stage := by
  have hne : h ≠ h.other := h.ne_other
  cases hm with
  | @init k w count hk =>
    -- the other hart is still waiting, so both flags are zero
    cases (show h = .hart0 from hp)
    have hn : n = 0 := by
      simp only [Hart.other, HartPc.stage, waits, posts] at hother
      grind
    subst hn
    have h0 : mem.word (.DMA_flag .hart0) = 0 := by simpa [HartPc.stage, waits, posts] using hown
    have h1 : mem.word (.DMA_flag .hart1) = 0 := by
      simpa [HartPc.stage, waits, posts, Hart.other] using hother
    have hword : ∀ g, (mem.setWord w count).word (.DMA_flag g) = 0 := by
      intro g
      rw [Memory.setWord_word, Function.update_apply]
      split
      · rename_i hw
        subst hw
        exact sem_inits_flag hk
      · cases g <;> assumption
    rw [hword, hword]
    exact ⟨rfl, rfl⟩
  | start hk =>
    cases (show h = .hart0 from hp)
    exact ⟨hown, hother⟩
  | @wait ph v hv =>
    rw [Memory.setWord_word, Function.update_self, Function.update_of_ne (by simp [hne.symm])]
    rw [hv] at hown
    cases ph with
    | write =>
      cases (show h = .hart1 from hp)
      refine ⟨?_, hother⟩
      rw [← hown]
      rfl
    | read =>
      refine ⟨?_, hother⟩
      rw [← hown]
      cases h
      · rfl
      · show v + 2 = v + 1 + 1
        rfl
  | @dmaStore ph k c r hk => cases ph <;> exact ⟨hown, hother⟩
  | @sent ph k hk => cases ph <;> cases h <;> exact ⟨hown, hother⟩
  | @post ph =>
    rw [Memory.setWord_word, Function.update_self, Function.update_of_ne (by simp [hne])]
    have hpost : sem_post (mem.word (.DMA_flag h.other)) = mem.word (.DMA_flag h.other) + 1 := by
      refine sem_post_of_lt ?_
      have := posts_le (HartPc.post ph).stage
      omega
    rw [hpost]
    cases ph with
    | write =>
      refine ⟨by cases h <;> exact hown, ?_⟩
      have hother : _ = 0 := hother
      show _ = 1
      omega
    | read =>
      refine ⟨by cases h <;> exact hown, ?_⟩
      have hother : _ = 1 := hother
      show _ = 2
      omega
  | pass hpc hpc' hw =>
    exact flags_of_word (by omega) (by omega) (fun g => by rw [hw]) hown hother
  | enter => exact flags_of_word (by simp) (by simp) (fun g => rfl) hown hother
  | barrier hb hr =>
    refine flags_of_word (by simp) (by simp) (fun g => ?_) hown hother
    exact Memory.setBarrier_word mem _ (by simp) (by simp) (by simp)
  | leave hpc' => exact flags_of_word (by simp) (by omega) (fun g => rfl) hown hother
  | final hpc hpc' hw =>
    exact flags_of_word (by omega) (by omega) (fun g => by rw [hw]) hown hother
  | ret => exact flags_of_word (by simp) (by simp) (fun g => rfl) hown hother
  | amoadd =>
    refine flags_of_word (by simp) (by simp) (fun g => ?_) hown hother
    rw [Memory.setWord_word, Function.update_of_ne (by simp)]
  | unspin ha => exact flags_of_word (by simp) (by simp) (fun g => rfl) hown hother
  | exit => exact flags_of_word (by simp) (by simp) (fun g => rfl) hown hother

/-- **What the flags say about the stages**: a hart enters a phase only after the other has left
the one before. -/
theorem stages_of_flags {f0 f1 n0 n1 : Nat} (h0 : f0 + waits .hart0 n0 = posts n1)
    (h1 : f1 + waits .hart1 n1 = posts n0) :
    (1 ≤ n1 → 3 ≤ n0) ∧ (4 ≤ n0 → 3 ≤ n1) ∧ (4 ≤ n1 → 6 ≤ n0) := by
  unfold waits posts at h0 h1
  dsimp only at h0 h1
  refine ⟨fun h => ?_, fun h => ?_, fun h => ?_⟩ <;> grind

/-! ## The stores to the DMA -/

/-- The stores to the registers of the DMA. -/
def dmaLog (trace : List Event) : List (Call × DmaReg) :=
  trace.filterMap fun
    | .dmaStore c r => some (c, r)
    | _ => none

@[simp] theorem dmaLog_append (tr tr' : List Event) : dmaLog (tr ++ tr') = dmaLog tr ++ dmaLog tr' :=
  List.filterMap_append

theorem dmaLog_eq_nil {tr : List Event} (htr : ∀ e ∈ tr, ∀ c r, e ≠ .dmaStore c r) :
    dmaLog tr = [] := by
  unfold dmaLog
  refine List.filterMap_eq_nil_iff.mpr fun e he => ?_
  cases e with
  | dmaStore c r => exact absurd rfl (htr _ he c r)
  | _ => rfl

def Phase.stage : Phase → Nat
  | .write => 1
  | .read => 4

/-- The stores of the phase in progress. -/
def HartPc.count : HartPc → Nat
  | .transfer _ k => k
  | _ => 0

/-- The stores of a phase that a hart has made. -/
def made (p : Program) (ph : Phase) (h : Hart) (pc : HartPc) : List (Call × DmaReg) :=
  if pc.stage < ph.stage then []
  else if pc.stage = ph.stage then (stores (p.transfers ph h)).take pc.count
  else stores (p.transfers ph h)

theorem made_of_lt (h : Hart) (ph : Phase) (hlt : pc.stage < ph.stage) : made p ph h pc = [] := if_pos hlt

theorem made_of_gt (h : Hart) (ph : Phase) (hlt : ph.stage < pc.stage) :
    made p ph h pc = stores (p.transfers ph h) := by
  unfold made
  rw [if_neg (by omega), if_neg (by omega)]

theorem made_transfer (ph : Phase) (k : Nat) :
    made p ph h (.transfer ph k) = (stores (p.transfers ph h)).take k := by
  cases ph <;> rfl

theorem prefix_made (ph : Phase) : made p ph h pc <+: stores (p.transfers ph h) := by
  unfold made
  split
  · exact List.nil_prefix
  · split
    · exact List.take_prefix _ _
    · exact List.prefix_refl _

/-- From stage 5 on all stores are made. -/
theorem made_of_le (hstage : 5 ≤ pc.stage) (hstage' : 5 ≤ pc'.stage) (ph : Phase) :
    made p ph h pc' = made p ph h pc := by
  have hph : ph.stage < 5 := by cases ph <;> decide
  rw [made_of_gt h ph (by omega), made_of_gt h ph (by omega)]

theorem Accesses.ne_dmaStore {loads stores : Arr → Prop} {e : Event} (he : Accesses h loads stores e)
    (c : Call) (r : DmaReg) : e ≠ .dmaStore c r := by
  obtain ⟨a, i, ⟨rfl, -⟩ | ⟨rfl, -⟩⟩ := he <;> simp

theorem Move.dmaLog_eq_nil (hm : Move p h mem pc pc' mem' ev)
    (hk : ∀ ph k x, pc = .transfer ph k → (stores (p.transfers ph h))[k]? ≠ some x) :
    dmaLog ev = [] := by
  cases hm with
  | dmaStore hk' => exact absurd hk' (hk _ _ _ rfl)
  | pass _ _ _ _ _ hev => exact Sw.dmaLog_eq_nil fun e he => (hev e he).ne_dmaStore
  | final _ _ _ _ _ hev => exact Sw.dmaLog_eq_nil fun e he => (hev e he).ne_dmaStore
  | barrier hb hr =>
    refine Sw.dmaLog_eq_nil fun e he c r => ?_
    obtain ⟨w, rfl⟩ := mem_barrierPosts he
    simp
  | _ => rfl

/-- **A step makes at most one store to the DMA**, the next one of its phase. -/
theorem Move.made (hm : Move p h mem pc pc' mem' ev) :
    (dmaLog ev = [] ∧ ∀ ph, made p ph h pc' = made p ph h pc) ∨
    ∃ ph k x, pc = .transfer ph k ∧ (stores (p.transfers ph h))[k]? = some x ∧ dmaLog ev = [x] ∧
      made p ph h pc' = made p ph h pc ++ [x] ∧
      ∀ ph', ph' ≠ ph → made p ph' h pc' = made p ph' h pc := by
  by_cases hstore : ∃ ph k x, pc = .transfer ph k ∧ (stores (p.transfers ph h))[k]? = some x
  · obtain ⟨ph, k, x, rfl, hx⟩ := hstore
    cases hm with
    | @dmaStore _ _ c r hk =>
      cases hx.symm.trans hk
      refine Or.inr ⟨ph, k, (c, r), rfl, hk, rfl, ?_, fun ph' hne => ?_⟩
      · rw [made_transfer, made_transfer, List.take_add_one, hk]
        rfl
      · cases ph <;> cases ph' <;> first | rfl | exact absurd rfl hne
    | sent hk =>
      rw [List.getElem?_eq_none hk] at hx
      cases hx
    | pass hpc => cases ph <;> cases hpc
    | final hpc => cases ph <;> cases hpc
  · refine Or.inl ⟨hm.dmaLog_eq_nil fun ph k x hpc hx => hstore ⟨ph, k, x, hpc, hx⟩, ?_⟩
    intro ph'
    cases hm with
    | dmaStore hk => exact absurd ⟨_, _, _, rfl, hk⟩ hstore
    | @sent ph k hk =>
      by_cases hne : ph' = ph
      · subst hne
        rw [made_transfer, List.take_of_length_le hk]
        cases ph' <;> rfl
      · cases ph <;> cases ph' <;> first | rfl | exact absurd rfl hne
    | init | start => cases ph' <;> rfl
    | @wait ph | @post ph => cases ph <;> cases ph' <;> rfl
    | pass hpc hpc' => exact made_of_le (by omega) (by omega) ph'
    | leave hpc' => exact made_of_le (by simp) (by omega) ph'
    | final hpc hpc' => exact made_of_le (by omega) (by omega) ph'
    | enter | barrier | ret | amoadd | unspin | exit => exact made_of_le (by simp) (by simp) ph'

theorem hartStep_transfer {ph : Phase} {k : Nat} {x : Call × DmaReg}
    (hk : (stores (p.transfers ph h))[k]? = some x)
    (hs : hartStep p h stray (.transfer ph k) mem = some (pc', mem', ev)) :
    pc' = .transfer ph (k + 1) ∧ mem' = mem ∧ dmaLog ev = [x] := by
  simp only [hartStep, hk] at hs
  cases hs
  exact ⟨rfl, rfl, rfl⟩

/-! ## The initialisation -/

theorem Accesses.ne_semInit {loads stores : Arr → Prop} {e : Event} (he : Accesses h loads stores e)
    (w : Word) (count : Nat) : e ≠ .semInit w count := by
  obtain ⟨a, i, ⟨rfl, -⟩ | ⟨rfl, -⟩⟩ := he <;> simp

/-- **Only hart 0 initialises**, one word at a time. -/
theorem Move.semInit (hm : Move p h mem pc pc' mem' ev) :
    (∃ k w count, pc = .init k ∧ ev = [.semInit w count]) ∨ ∀ w count, .semInit w count ∉ ev := by
  cases hm with
  | init hk => exact Or.inl ⟨_, _, _, rfl, rfl⟩
  | pass _ _ _ _ _ hev => exact Or.inr fun w c he => (hev _ he).ne_semInit w c rfl
  | final _ _ _ _ _ hev => exact Or.inr fun w c he => (hev _ he).ne_semInit w c rfl
  | barrier hb hr =>
    refine Or.inr fun w c he => ?_
    obtain ⟨w', he⟩ := mem_barrierPosts he
    cases he
  | _ => exact Or.inr fun w c => by simp

/-- A hart at stage 0 makes no post. -/
theorem Move.semPost (hm : Move p h mem pc pc' mem' ev) (hstage : pc.stage = 0) (w : Word) :
    .semPost w ∉ ev := by
  cases hm with
  | init => simp
  | @post ph => cases ph <;> cases hstage
  | pass hpc => omega
  | final hpc => omega
  | barrier => cases hstage
  | _ => simp

/-! ## The exit counter -/

/-- 1 once a hart has counted itself in `exit_counter`. -/
def counted (stage : Nat) : Nat := if 10 ≤ stage then 1 else 0

/-- 1 for a hart that does not stay in the loop behind `amoadd`. -/
def won (pc : HartPc) : Nat :=
  match pc with
  | .spin a0 => if blt a0 1 then 0 else 1
  | .sysExit | .exited => 1
  | _ => 0

theorem won_of_lt (hlt : pc.stage < 10) : won pc = 0 := by
  cases pc with
  | spin | sysExit | exited => simp at hlt
  | _ => rfl

theorem sem_inits_exit {k count : Nat} {w : Word} (hk : sem_inits[k]? = some (w, count)) :
    w ≠ .exit_counter := by
  have hall : ∀ x ∈ sem_inits, x.1 ≠ .exit_counter := by decide
  exact hall _ (List.mem_of_getElem? hk)

/-- Steps before `amoadd` leave `exit_counter` alone. -/
theorem exits_of_word {q : HartPc} (hlt : pc.stage < 10) (hlt' : pc'.stage < 10)
    (hword : mem'.word .exit_counter = mem.word .exit_counter)
    (hc : mem.word .exit_counter = counted pc.stage + counted q.stage)
    (hw : won pc + won q = mem.word .exit_counter - 1) :
    mem'.word .exit_counter = counted pc'.stage + counted q.stage ∧
      won pc' + won q = mem'.word .exit_counter - 1 := by
  have hcount : counted pc'.stage = counted pc.stage := by
    unfold counted
    rw [if_neg (by omega), if_neg (by omega)]
  rw [hword, hcount, won_of_lt hlt', ← won_of_lt hlt]
  exact ⟨hc, hw⟩

/-- **One step keeps the count and the number of winners**, `q` being the place of the other
hart. -/
theorem Move.exits (hm : Move p h mem pc pc' mem' ev) {q : HartPc}
    (hc : mem.word .exit_counter = counted pc.stage + counted q.stage)
    (hw : won pc + won q = mem.word .exit_counter - 1) :
    mem'.word .exit_counter = counted pc'.stage + counted q.stage ∧
      won pc' + won q = mem'.word .exit_counter - 1 := by
  cases hm with
  | init hk =>
    refine exits_of_word (by simp) (by simp) ?_ hc hw
    rw [Memory.setWord_word, Function.update_of_ne (sem_inits_exit hk).symm]
  | @wait ph v hv =>
    refine exits_of_word (by cases ph <;> simp) (by cases ph <;> simp) ?_ hc hw
    rw [Memory.setWord_word, Function.update_of_ne (by simp)]
  | @post ph =>
    refine exits_of_word (by cases ph <;> simp) (by cases ph <;> simp [Phase.next]) ?_ hc hw
    rw [Memory.setWord_word, Function.update_of_ne (by simp)]
  | start hk | enter | ret => exact exits_of_word (by simp) (by simp) rfl hc hw
  | @dmaStore ph | @sent ph =>
    exact exits_of_word (by cases ph <;> simp) (by cases ph <;> simp) rfl hc hw
  | pass hpc hpc' hword => exact exits_of_word (by omega) (by omega) (by rw [hword]) hc hw
  | final hpc hpc' hword => exact exits_of_word (by omega) (by omega) (by rw [hword]) hc hw
  | leave hpc' => exact exits_of_word (by simp) (by omega) rfl hc hw
  | barrier hb hr =>
    exact exits_of_word (by simp) (by simp)
      (Memory.setBarrier_word mem _ (by simp) (by simp) (by simp)) hc hw
  | amoadd =>
    -- the first to come finds 0 and stays in the loop, the second finds 1
    have hpc : won .amoadd = 0 := rfl
    have hcount : counted HartPc.amoadd.stage = 0 := rfl
    rw [hcount, Nat.zero_add] at hc
    rw [hpc, Nat.zero_add] at hw
    have hq : counted q.stage = 0 ∨ counted q.stage = 1 := by
      unfold counted
      split
      · exact Or.inr rfl
      · exact Or.inl rfl
    rw [Memory.setWord_word, Function.update_self]
    rcases hq with hq | hq
    · rw [hc, hq] at hw ⊢
      exact ⟨rfl, by rw [hw]; rfl⟩
    · rw [hc, hq] at hw ⊢
      exact ⟨rfl, by rw [hw]; rfl⟩
  | unspin ha =>
    refine ⟨hc, ?_⟩
    rw [← hw]
    simp [won, ha]
  | exit => exact ⟨hc, hw⟩

end Step

/-! ## The invariant -/

structure Harts.Inv (p : Program) (s : Harts) : Prop where
  length : ∀ a, (s.mem.arr a).length = p.length a
  place : ∀ h, Place p h (s.pc h)
  flags : ∀ h, s.mem.word (.DMA_flag h) + waits h (s.pc h).stage = posts (s.pc h.other).stage
  log : dmaLog s.trace =
    made p .write .hart0 (s.pc .hart0) ++ made p .write .hart1 (s.pc .hart1) ++
      made p .read .hart0 (s.pc .hart0) ++ made p .read .hart1 (s.pc .hart1)
  unposted : (s.pc .hart0).stage = 0 → ∀ w, .semPost w ∉ s.trace
  inits : s.trace.Pairwise fun e e' => ∀ w c, e = .semPost w → e' ≠ .semInit w c
  counter : s.mem.word .exit_counter =
    counted (s.pc .hart0).stage + counted (s.pc .hart1).stage
  winner : won (s.pc .hart0) + won (s.pc .hart1) = s.mem.word .exit_counter - 1
  returned : ∀ h, 9 ≤ (s.pc h).stage → .returned h ∈ s.trace
  exit : ∀ h, .sysExit h ∈ s.trace → s.pc h = .exited ∧
    ∃ pre, s.trace = pre ++ [.sysExit h] ∧ ∀ g, .returned g ∈ pre ∧ .sysExit g ∉ pre

variable {p : Program} {s s' : Harts}

theorem harts_init (h : (harts p).init s) : s.Inv p := by
  obtain ⟨hpc, hlen, hword, htr⟩ := h
  refine ⟨hlen, ?_, ?_, ?_, ?_, ?_, ?_, ?_, ?_, ?_⟩
  · intro h
    rw [hpc]
    cases h <;> exact rfl
  · intro h
    rw [hword, hpc]
    cases h <;> rfl
  · rw [htr, hpc]
    rfl
  · simp [htr]
  · simp [htr]
  · rw [hword, hpc]
    rfl
  · rw [hword, hpc]
    rfl
  · intro h
    rw [hpc]
    cases h <;> simp [entry]
  · simp [htr]

/-- **The order of the stages.** -/
theorem Harts.Inv.stages (hi : s.Inv p) :
    (1 ≤ (s.pc .hart1).stage → 3 ≤ (s.pc .hart0).stage) ∧
    (4 ≤ (s.pc .hart0).stage → 3 ≤ (s.pc .hart1).stage) ∧
    (4 ≤ (s.pc .hart1).stage → 6 ≤ (s.pc .hart0).stage) :=
  stages_of_flags (hi.flags .hart0) (hi.flags .hart1)

/-- Every fact about both harts is one about the stepping hart and the other. -/
theorem Hart.forall_iff (h : Hart) {P : Hart → Prop} : (∀ g, P g) ↔ P h ∧ P h.other := by
  constructor
  · exact fun hall => ⟨hall h, hall h.other⟩
  · rintro ⟨hh, ho⟩ g
    by_cases hg : g = h
    · rwa [hg]
    · rwa [Hart.eq_other_of_ne hg]

/-! ### Steps -/

section Step

variable {h : Hart} {pc' : HartPc} {mem' : Memory} {ev : List Event}

/-- **A store to the DMA comes in the order of the phases.** -/
theorem Harts.Inv.log_step (hi : s.Inv p) (hm : Move p h s.mem (s.pc h) pc' mem' ev)
    {pc : Hart → HartPc} (hh : pc h = pc') (ho : pc h.other = s.pc h.other) :
    dmaLog (s.trace ++ ev) =
      made p .write .hart0 (pc .hart0) ++ made p .write .hart1 (pc .hart1) ++
        made p .read .hart0 (pc .hart0) ++ made p .read .hart1 (pc .hart1) := by
  obtain ⟨h10, h01, h11⟩ := hi.stages
  rw [dmaLog_append, hi.log]
  rcases hm.made with ⟨hnil, hsame⟩ | ⟨ph, k, x, hpc, -, hx, hgrow, hsame⟩
  · have hall : ∀ g ph, made p ph g (pc g) = made p ph g (s.pc g) := by
      refine (Hart.forall_iff h).mpr ⟨fun ph => ?_, fun ph => ?_⟩
      · rw [hh, hsame]
      · rw [ho]
    simp only [hall, hnil, List.append_nil]
  · -- the phases that come later have not begun
    rw [hx]
    have hw := hsame .write
    have hr := hsame .read
    cases h <;> cases ph <;> simp only [Hart.other] at hh ho <;> rw [hh, ho, hgrow]
    · have h0 : (s.pc .hart0).stage = 1 := by rw [hpc]; rfl
      rw [hr (by simp), made_of_lt .hart1 .write (show _ < 1 by omega),
        made_of_lt .hart1 .read (show _ < 4 by omega),
        made_of_lt .hart0 .read (show _ < 4 by omega)]
      simp
    · have h0 : (s.pc .hart0).stage = 4 := by rw [hpc]; rfl
      rw [hw (by simp), made_of_lt .hart1 .read (show _ < 4 by omega)]
      simp
    · have h0 : (s.pc .hart1).stage = 1 := by rw [hpc]; rfl
      rw [hr (by simp), made_of_lt .hart0 .read (show _ < 4 by omega),
        made_of_lt .hart1 .read (show _ < 4 by omega)]
      simp
    · rw [hw (by simp), List.append_assoc]

theorem Accesses.eq_load_or_store {loads stores : Arr → Prop} {e : Event}
    (he : Accesses h loads stores e) : ∃ a i, e = .load h a i ∨ e = .store h a i := by
  obtain ⟨a, i, he⟩ := he
  exact ⟨a, i, he.imp And.left And.left⟩

theorem Move.returned {pc : HartPc} {mem : Memory} (hm : Move p h mem pc pc' mem' ev)
    (hstage : 9 ≤ pc'.stage) : 9 ≤ pc.stage ∨ .returned h ∈ ev := by
  cases hm with
  | ret => exact Or.inr (List.mem_singleton_self _)
  | amoadd | unspin | exit => exact Or.inl (by simp)
  | @wait ph | @dmaStore ph | @sent ph => cases ph <;> simp at hstage
  | @post ph => cases ph <;> simp [Phase.next] at hstage
  | pass _ hpc' => omega
  | leave hpc' => omega
  | final _ hpc' => omega
  | init | start | enter | barrier => simp at hstage

theorem Move.sysExit {pc : HartPc} {mem : Memory} (hm : Move p h mem pc pc' mem' ev) {g : Hart}
    (hg : .sysExit g ∈ ev) : g = h ∧ pc = .sysExit ∧ pc' = .exited ∧ ev = [.sysExit h] := by
  cases hm with
  | exit =>
    cases List.mem_singleton.mp hg
    exact ⟨rfl, rfl, rfl, rfl⟩
  | pass _ _ _ _ _ hev | final _ _ _ _ _ hev =>
    obtain ⟨a, i, he | he⟩ := (hev _ hg).eq_load_or_store <;> cases he
  | barrier =>
    obtain ⟨w, hg⟩ := mem_barrierPosts hg
    cases hg
  | _ => simp at hg

/-- **No count is overwritten**: while hart 0 initialises, nobody has posted. -/
theorem Harts.Inv.unposted_step (hi : s.Inv p) (hm : Move p h s.mem (s.pc h) pc' mem' ev)
    {pc : Hart → HartPc} (hh : pc h = pc') (ho : pc h.other = s.pc h.other)
    (hstage : (pc .hart0).stage = 0) (w : Word) : .semPost w ∉ s.trace ++ ev := by
  have h0 : (s.pc .hart0).stage = 0 ∧ (s.pc h).stage = 0 := by
    cases h with
    | hart0 =>
      have := hm.stage_le
      rw [hh] at hstage
      exact ⟨by omega, by omega⟩
    | hart1 =>
      have ho : pc .hart0 = s.pc .hart0 := ho
      rw [ho] at hstage
      refine ⟨hstage, ?_⟩
      have := hi.stages.1
      omega
  intro hw
  rcases List.mem_append.mp hw with hw | hw
  · exact hi.unposted h0.1 w hw
  · exact hm.semPost h0.2 w hw

theorem Harts.Inv.inits_step (hi : s.Inv p) (hm : Move p h s.mem (s.pc h) pc' mem' ev) :
    (s.trace ++ ev).Pairwise fun e e' => ∀ w c, e = .semPost w → e' ≠ .semInit w c := by
  rw [List.pairwise_append]
  rcases hm.semInit with ⟨k, w, count, hpc, rfl⟩ | hno
  · have hplace := hi.place h
    rw [hpc] at hplace
    cases (show h = .hart0 from hplace)
    refine ⟨hi.inits, List.pairwise_singleton _ _, ?_⟩
    rintro e he e' - w' c rfl
    exact absurd he (hi.unposted (by rw [hpc]; rfl) w')
  · refine ⟨hi.inits, List.pairwise_of_forall_mem_list ?_, ?_⟩
    · rintro e - e' he' w c - rfl
      exact hno w c he'
    · rintro e - e' he' w c - rfl
      exact hno w c he'

/-- A hart that gets out of the loop has found the other counted. -/
theorem Harts.Inv.counted_of_won (hi : s.Inv p) (hw : won (s.pc h) = 1) (g : Hart) :
    10 ≤ (s.pc g).stage := by
  have hcounter := hi.counter
  have hwinner := hi.winner
  have hle : 1 ≤ won (s.pc .hart0) + won (s.pc .hart1) := by
    cases h <;> omega
  unfold counted at hcounter
  split at hcounter <;> split at hcounter
  · cases g <;> assumption
  all_goals omega

/-- **One step of a hart keeps the invariant.** -/
theorem Harts.Inv.hart (hi : s.Inv p) (hex : ¬ s.Exited) {stray : UInt8}
    (hs : hartStep p h stray (s.pc h) s.mem = some (pc', mem', ev)) :
    Harts.Inv p ⟨Function.update s.pc h pc', mem', s.trace ++ ev⟩ := by
  have hm := hartStep_move hs
  have hh : Function.update s.pc h pc' h = pc' := Function.update_self ..
  have ho : Function.update s.pc h pc' h.other = s.pc h.other :=
    Function.update_of_ne h.ne_other.symm ..
  generalize Function.update s.pc h pc' = pc at hh ho
  have hplace : ∀ g, Place p g (pc g) := by
    refine (Hart.forall_iff h).mpr ⟨?_, ?_⟩
    · rw [hh]
      exact hartStep_place (hi.place h) hs
    · rw [ho]
      exact hi.place _
  have hflags : ∀ g, mem'.word (.DMA_flag g) + waits g (pc g).stage = posts (pc g.other).stage := by
    have hother := hi.flags h.other
    rw [Hart.other_other] at hother
    obtain ⟨hown', hother'⟩ := hm.flags (hi.place h) (hi.flags h) hother
    refine (Hart.forall_iff h).mpr ⟨?_, ?_⟩
    · rw [hh, ho]
      exact hown'
    · rw [Hart.other_other, hh, ho]
      exact hother'
  have hexits : mem'.word .exit_counter = counted (pc .hart0).stage + counted (pc .hart1).stage ∧
      won (pc .hart0) + won (pc .hart1) = mem'.word .exit_counter - 1 := by
    cases h with
    | hart0 =>
      have ho : pc .hart1 = s.pc .hart1 := ho
      have hexits := hm.exits hi.counter hi.winner
      rw [← hh, ← ho] at hexits
      exact hexits
    | hart1 =>
      have ho : pc .hart0 = s.pc .hart0 := ho
      have hexits := hm.exits (hi.counter.trans (Nat.add_comm _ _))
        ((Nat.add_comm _ _).trans hi.winner)
      rw [← hh, ← ho, Nat.add_comm, Nat.add_comm (won _)] at hexits
      exact hexits
  have hreturned : ∀ g, 9 ≤ (pc g).stage → .returned g ∈ s.trace ++ ev := by
    refine (Hart.forall_iff h).mpr ⟨?_, ?_⟩
    · rw [hh]
      intro hstage
      rcases hm.returned hstage with hstage | hmem
      · exact List.mem_append_left _ (hi.returned h hstage)
      · exact List.mem_append_right _ hmem
    · rw [ho]
      exact fun hstage => List.mem_append_left _ (hi.returned _ hstage)
  have hexit : ∀ g, .sysExit g ∈ s.trace ++ ev → pc g = .exited ∧
      ∃ pre, s.trace ++ ev = pre ++ [.sysExit g] ∧ ∀ f, .returned f ∈ pre ∧ .sysExit f ∉ pre := by
    have hnoexit : ∀ g, .sysExit g ∉ s.trace := fun g hg => hex ⟨g, (hi.exit g hg).1⟩
    intro g hg
    obtain ⟨rfl, hpc, hpc', rfl⟩ := hm.sysExit ((List.mem_append.mp hg).resolve_left (hnoexit g))
    refine ⟨hh.trans hpc', s.trace, rfl, fun f => ⟨hi.returned f ?_, hnoexit f⟩⟩
    have := hi.counted_of_won (h := g) (by rw [hpc]; rfl) f
    omega
  exact ⟨fun a => (hm.length a).trans (hi.length a), hplace, hflags, hi.log_step hm hh ho,
    hi.unposted_step hm hh ho, hi.inits_step hm, hexits.1, hexits.2, hreturned, hexit⟩

end Step

/-- **The invariant holds in every reachable state.** -/
theorem harts_inv (h : (harts p).Reach s) : s.Inv p := by
  refine h.invariant (fun s h0 => harts_init h0) ?_
  intro s a s' hi _ hn
  cases a with
  | hart h stray =>
    simp only [harts, Harts.next] at hn
    split at hn
    · cases hn
    · rename_i hex
      obtain ⟨⟨pc', mem', ev⟩, hs, rfl⟩ := Option.map_eq_some_iff.mp hn
      exact hi.hart hex hs
  | dma a bytes =>
    simp only [harts, Harts.next] at hn
    split at hn
    · cases hn
    · rename_i hok
      cases hn
      obtain ⟨hlen, hplace, hflags, hlog, hun, hinit, hc, hw, hret, hexit⟩ := hi
      refine ⟨fun b => ?_, hplace, hflags, hlog, hun, hinit, hc, hw, hret, hexit⟩
      by_cases hb : b = a
      · subst hb
        have : bytes.length = (s.mem.arr b).length := by
          by_contra hne
          exact hok (Or.inr hne)
        simpa [this] using hlen b
      · simpa [hb] using hlen b

end SortPlatform.Sw

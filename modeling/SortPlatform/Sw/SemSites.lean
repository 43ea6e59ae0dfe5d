import SortPlatform.Sw.Harts
import SortPlatform.Sw.SemProgress

/-!
# The semaphores that `main` uses

Where `main` of `src/sw/final/main.cpp` and `main128.cpp` calls `sem_wait` and `sem_post`, on which
of its words, and the words as a hart's `lr.w` and `sc.w` find them in RAM.

* `HartPc.site` — the call that a hart is at.
* `Memory.ram` — the words of a memory, at the addresses the linker gives them.

Principal results:

* `hartStep_site` — at a call `hartStep` is the atomic `sem_wait` or `sem_post`.
* `hartStep_ram` — elsewhere a hart changes RAM by at most one store, that of `HartPc.stored`.
-/

set_option autoImplicit false

namespace SortPlatform.Sw

open Rv32a

/-! ## The calls -/

/-- A call of `sem_wait` or `sem_post`, and where it returns to. -/
structure SemSite where
  op : SemOp
  word : Word
  resume : HartPc
  deriving DecidableEq, Repr

/-- The call of `sem_wait` or `sem_post` that hart `h` is at. -/
def HartPc.site (h : Hart) : HartPc → Option SemSite
  | .wait ph => some ⟨.wait, .DMA_flag h, .transfer ph 0⟩
  | .post ph => some ⟨.post, .DMA_flag h.other, ph.next⟩
  | .barrier .waitLock => some ⟨.wait, .barrier_lock, .barrier .test⟩
  | .barrier .unlockLast => some ⟨.post, .barrier_lock, .barrier (.release 0)⟩
  | .barrier (.release j) =>
    if j < lastArrival PROCESSORS then
      some ⟨.post, .barrier_sem, .barrier (.release (j + 1))⟩
    else none
  | .barrier .unlockFirst => some ⟨.post, .barrier_lock, .barrier .waitSem⟩
  | .barrier .waitSem => some ⟨.wait, .barrier_sem, .barrier .returned⟩
  | _ => none

/-- What other harts notice of a call. -/
def SemSite.events (site : SemSite) : List Event :=
  match site.op with
  | .wait => []
  | .post => [.semPost site.word]

/-- The call takes effect with its store. -/
def SemSite.noticed (site : SemSite) : Option MemAccess → List Event
  | some (.store _ _) => site.events
  | _ => []

theorem dmaLog_events (site : SemSite) : dmaLog site.events = [] := by
  unfold SemSite.events
  split <;> rfl

theorem HartPc.site_resume {h : Hart} {pc : HartPc} {site : SemSite} (hs : pc.site h = some site) :
    site.resume ≠ .exited := by
  unfold HartPc.site at hs
  split at hs
  case h_2 ph => cases hs; cases ph <;> exact nofun
  case h_5 =>
    split at hs <;> cases hs
    exact nofun
  all_goals cases hs <;> exact nofun

section Site

variable {p : Program} {h : Hart} {stray : UInt8} {pc pc' : HartPc} {mem mem' : Memory}
  {ev : List Event} {site : SemSite}

theorem setBarrier_lock (v : Nat) :
    mem.setBarrier { mem.barrierWords with lock := v } = mem.setWord .barrier_lock v := by
  unfold Memory.setBarrier Memory.setWord Memory.barrierWords
  congr 1
  funext x
  cases x <;> simp

theorem setBarrier_sem (v : Nat) :
    mem.setBarrier { mem.barrierWords with sem := v } = mem.setWord .barrier_sem v := by
  unfold Memory.setBarrier Memory.setWord Memory.barrierWords
  congr 1
  funext x
  cases x <;> simp

theorem setBarrier_counter (v : Nat) :
    mem.setBarrier { mem.barrierWords with counter := v } = mem.setWord .barrier_counter v := by
  unfold Memory.setBarrier Memory.setWord Memory.barrierWords
  congr 1
  funext x
  cases x <;> simp

theorem setBarrier_self : mem.setBarrier mem.barrierWords = mem := by
  unfold Memory.setBarrier Memory.setWord Memory.barrierWords
  obtain ⟨arr, word⟩ := mem
  congr 1
  funext x
  cases x <;> simp

/-- **At a call a hart does what the atomic semaphore does.** -/
theorem hartStep_site (hsite : pc.site h = some site) :
    hartStep p h stray pc mem = (site.op.atomic (mem.word site.word)).map fun v =>
      (site.resume, mem.setWord site.word v, site.events) := by
  unfold HartPc.site at hsite
  split at hsite
  case h_1 ph => cases hsite; rfl
  case h_2 ph => cases hsite; rfl
  case h_3 =>
    cases hsite
    simp only [hartStep, barrier, reduceCtorEq, if_false, Option.map_map, SemOp.atomic]
    refine congrArg (fun f => Option.map f _) (funext fun v => ?_)
    simp only [Function.comp_apply, setBarrier_lock]
    rfl
  case h_4 =>
    cases hsite
    simp only [hartStep, barrier, reduceCtorEq, if_false, Option.map_some, SemOp.atomic,
      setBarrier_lock]
    rfl
  case h_5 j =>
    split at hsite
    · rename_i hj
      cases hsite
      simp only [hartStep, barrier, reduceCtorEq, if_false, if_pos hj, Option.map_some,
        SemOp.atomic, setBarrier_sem, barrierPosts]
      rfl
    · cases hsite
  case h_6 =>
    cases hsite
    simp only [hartStep, barrier, reduceCtorEq, if_false, Option.map_some, SemOp.atomic,
      setBarrier_lock]
    rfl
  case h_7 =>
    cases hsite
    simp only [hartStep, barrier, reduceCtorEq, if_false, Option.map_map, SemOp.atomic]
    refine congrArg (fun f => Option.map f _) (funext fun v => ?_)
    simp only [Function.comp_apply, setBarrier_sem]
    rfl
  case h_8 => cases hsite

/-! ## The words in RAM -/

/-- The globals of `main`. -/
def words : List Word :=
  [.barrier_counter, .barrier_lock, .barrier_sem, .DMA_flag .hart0, .DMA_flag .hart1, .lock,
    .print_flag .hart0, .print_flag .hart1, .exit_counter]

/-- What an `lr.w` finds; zero where none of the words is. -/
def Memory.ram (addr : Word → Word32) (mem : Memory) (a : Word32) : Word32 :=
  match words.find? fun w => addr w = a with
  | some w => BitVec.ofNat 32 (mem.word w)
  | none => 0

/-- What an `sc.w` leaves. -/
def Memory.writeAt (addr : Word → Word32) (mem : Memory) : Option MemAccess → Memory
  | some (.store a v) => { mem with word := fun w => if addr w = a then v.toNat else mem.word w }
  | _ => mem

/-- The word that a step stores to, but for the calls. -/
def HartPc.stored : HartPc → Option Word
  | .init k => sem_inits[k]?.map Prod.fst
  | .barrier .reset | .barrier (.incrStore _) => some .barrier_counter
  | .amoadd => some .exit_counter
  | _ => none

/-- The store of a step that left the memory `mem`. -/
def HartPc.access (addr : Word → Word32) (pc : HartPc) (mem : Memory) : Option MemAccess :=
  pc.stored.map fun w => .store (addr w) (BitVec.ofNat 32 (mem.word w))

section Ram

variable {addr : Word → Word32}

theorem ram_addr (hinj : addr.Injective) (mem : Memory) (w : Word) :
    mem.ram addr (addr w) = BitVec.ofNat 32 (mem.word w) := by
  have hfind : (words.find? fun w' => addr w' = addr w) = some w := by
    simp only [hinj.eq_iff]
    cases w with
    | DMA_flag h | print_flag h => cases h <;> decide
    | _ => decide
  rw [Memory.ram, hfind]

theorem ram_congr (h : mem'.word = mem.word) : mem'.ram addr = mem.ram addr := by
  funext a
  unfold Memory.ram
  rw [h]

theorem ram_setWord (hinj : addr.Injective) (mem : Memory) (w : Word) (v : Nat) :
    (mem.setWord w v).ram addr =
      Function.update (mem.ram addr) (addr w) (BitVec.ofNat 32 v) := by
  funext a
  by_cases ha : a = addr w
  · subst ha
    rw [ram_addr hinj, Memory.setWord_word, Function.update_self, Function.update_self]
  · rw [Function.update_of_ne ha]
    unfold Memory.ram
    split
    · rename_i w' hfind
      have haddr : addr w' = a := by simpa using List.find?_some hfind
      have hne : w' ≠ w := by
        intro heq
        subst heq
        exact ha haddr.symm
      rw [Memory.setWord_word, Function.update_of_ne hne]
    · rfl

theorem writeAt_addr (hinj : addr.Injective) (mem : Memory) (w : Word) (v : Word32) :
    mem.writeAt addr (some (.store (addr w) v)) = mem.setWord w v.toNat := by
  have hword : (fun w' => if addr w' = addr w then v.toNat else mem.word w') =
      Function.update mem.word w v.toNat := by
    funext w'
    by_cases hw : w' = w
    · subst hw
      simp
    · rw [Function.update_of_ne hw]
      exact if_neg fun heq => hw (hinj heq)
  rw [Memory.setWord, ← hword]
  rfl

theorem ram_writeAt (hinj : addr.Injective) (mem : Memory) (acc : Option MemAccess)
    (hacc : ∀ a v, acc = some (.store a v) → ∃ w, a = addr w) :
    (mem.writeAt addr acc).ram addr = write acc (mem.ram addr) := by
  match acc with
  | none | some (.load _ _) => rfl
  | some (.store a v) =>
    obtain ⟨w, rfl⟩ := hacc a v rfl
    rw [writeAt_addr hinj, ram_setWord hinj, BitVec.ofNat_toNat, BitVec.setWidth_eq]
    rfl

/-- **A step that is not a call** changes RAM by the store of `HartPc.stored`, if at all. -/
theorem hartStep_ram (hinj : addr.Injective) (hsite : pc.site h = none)
    (hs : hartStep p h stray pc mem = some (pc', mem', ev)) :
    mem'.ram addr = write (pc.access addr mem') (mem.ram addr) := by
  have hquiet : pc.stored = none → mem'.word = mem.word →
      mem'.ram addr = write (pc.access addr mem') (mem.ram addr) := by
    intro hstored hword
    rw [HartPc.access, hstored]
    exact ram_congr hword
  have hset : ∀ w v, pc.stored = some w → mem' = mem.setWord w v →
      mem'.ram addr = write (pc.access addr mem') (mem.ram addr) := by
    intro w v hstored hmem
    rw [HartPc.access, hstored, hmem, ram_setWord hinj, Memory.setWord_word]
    simp [write]
  cases hartStep_move hs with
  | @init k w count hk => exact hset w count (by simp [HartPc.stored, hk]) rfl
  | wait => cases hsite
  | post => cases hsite
  | @pass pc pc' mem' ev hpc hpc' hw hsize hframe hev =>
    refine hquiet ?_ hw
    cases pc with
    | init | barrier | amoadd => cases hpc
    | _ => rfl
  | @final pc pc' mem' ev hpc hpc' hw hsize hframe hev =>
    refine hquiet ?_ hw
    cases pc with
    | init | barrier | amoadd => cases hpc
    | _ => rfl
  | @barrier b r hb hr =>
    cases b with
    | waitLock | unlockLast | unlockFirst | waitSem => cases hsite
    | test | incr =>
      cases hr
      refine hquiet rfl ?_
      rw [setBarrier_self]
    | reset | incrStore v =>
      cases hr
      exact hset .barrier_counter _ rfl (setBarrier_counter _)
    | release j =>
      by_cases hj : j < lastArrival PROCESSORS
      · simp only [HartPc.site, if_pos hj] at hsite
        cases hsite
      · simp only [Sw.barrier, if_neg hj] at hr
        cases hr
        refine hquiet rfl ?_
        rw [setBarrier_self]
    | returned => exact absurd rfl hb
  | amoadd => exact hset .exit_counter _ rfl rfl
  | start hk =>
    exact hquiet (by rw [HartPc.stored, List.getElem?_eq_none_iff.mpr hk]; rfl) rfl
  | _ => exact hquiet rfl rfl

end Ram

/-- The words stay in 32 bits. -/
theorem hartStep_word_lt (hlt : ∀ w, mem.word w < 2 ^ 32)
    (hs : hartStep p h stray pc mem = some (pc', mem', ev)) (w : Word) : mem'.word w < 2 ^ 32 := by
  have hset : ∀ w' v, v < 2 ^ 32 → Function.update mem.word w' v w < 2 ^ 32 := by
    intro w' v hv
    by_cases hw : w = w'
    · subst hw
      rwa [Function.update_self]
    · rw [Function.update_of_ne hw]
      exact hlt w
  have hmod : ∀ v, v % 2 ^ 32 < 2 ^ 32 := fun v => Nat.mod_lt _ (by decide)
  cases hartStep_move hs with
  | @init k w' count hk =>
    refine hset w' count ?_
    have hall : ∀ x ∈ sem_inits, x.2 < 2 ^ 32 := by decide
    exact hall _ (List.mem_of_getElem? hk)
  | @wait ph v hv =>
    refine hset (.DMA_flag h) v ?_
    have := hlt (.DMA_flag h)
    omega
  | post => exact hset _ _ (hmod _)
  | amoadd => exact hset _ _ (hmod _)
  | pass _ _ hw | final _ _ hw => rw [hw]; exact hlt w
  | @barrier b r hb hr =>
    cases b with
    | waitLock =>
      obtain ⟨v, hv, rfl⟩ := Option.map_eq_some_iff.mp hr
      rw [setBarrier_lock]
      refine hset _ v ?_
      have hlock := hlt .barrier_lock
      have hdown : mem.word .barrier_lock = v + 1 := sem_wait_eq_some.mp hv
      omega
    | waitSem =>
      obtain ⟨v, hv, rfl⟩ := Option.map_eq_some_iff.mp hr
      rw [setBarrier_sem]
      refine hset _ v ?_
      have hsem := hlt .barrier_sem
      have hdown : mem.word .barrier_sem = v + 1 := sem_wait_eq_some.mp hv
      omega
    | test | incr =>
      cases hr
      rw [setBarrier_self]
      exact hlt w
    | reset =>
      cases hr
      rw [setBarrier_counter]
      exact hset _ _ (by decide)
    | incrStore v =>
      cases hr
      rw [setBarrier_counter]
      exact hset _ _ (hmod _)
    | unlockLast | unlockFirst =>
      cases hr
      rw [setBarrier_lock]
      exact hset _ _ (hmod _)
    | release j =>
      simp only [Sw.barrier] at hr
      split at hr <;> cases hr
      · rw [setBarrier_sem]
        exact hset _ _ (hmod _)
      · rw [setBarrier_self]
        exact hlt w
    | returned => exact absurd rfl hb
  | _ => exact hlt w

theorem harts_word_lt {s : Harts} {ok : Harts → HartsAct → Prop} (hs : (harts p).ReachBy ok s) :
    ∀ w, s.mem.word w < 2 ^ 32 := by
  refine hs.invariant (motive := fun s => ∀ w, s.mem.word w < 2 ^ 32) ?_ ?_
  · rintro s ⟨-, -, hword, -⟩ w
    rw [hword]
    decide
  · intro s a s' hlt _ hn
    cases a with
    | hart h stray =>
      simp only [harts, Harts.next] at hn
      split at hn
      · cases hn
      obtain ⟨⟨pc', mem', ev⟩, hstep, rfl⟩ := Option.map_eq_some_iff.mp hn
      exact hartStep_word_lt hlt hstep
    | dma a bytes =>
      simp only [harts, Harts.next] at hn
      split at hn
      · cases hn
      · cases hn
        exact hlt

end Site

end SortPlatform.Sw

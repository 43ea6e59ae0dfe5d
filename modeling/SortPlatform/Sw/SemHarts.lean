import SortPlatform.Sw.Barrier
import SortPlatform.Sw.SemAsm

/-!
# Harts on one semaphore

Any number of harts, each making a finite sequence of calls of `sem_wait` and `sem_post` of
`src/sw/final/main.cpp` on one word, instruction by instruction in any interleaving.

* `semMachine` — the harts; an `sc.w` may fail spuriously.
* `atomicMachine` — the same calls with each `sem_wait` and `sem_post` one atomic step.

Principal results:

* `semMachine_simulates` — every state of the harts is a state of the atomic semaphore.
* `sem_counts` — the word is the initial count plus the posts less the waits stored, and every
  returned call has stored exactly once.
-/

set_option autoImplicit false

namespace SortPlatform.Sw

open Rv32a

/-! ## The atomic semaphore -/

/-- A call in one step; `none` while `sem_wait` waits. -/
def SemOp.atomic : SemOp → Nat → Option Nat
  | .wait, word => sem_wait word
  | .post, word => some (sem_post word)

/-- The count, and for every hart the calls that have still to take effect and those that have. -/
structure AtomicSem (H : Type) where
  word : Nat
  due : H → List SemOp
  made : H → List SemOp

section Atomic

variable {H : Type} [DecidableEq H]

def AtomicSem.next (s : AtomicSem H) (h : H) : Option (AtomicSem H) :=
  match s.due h with
  | [] => none
  | k :: ks => (k.atomic s.word).map fun word =>
      ⟨word, Function.update s.due h ks, Function.update s.made h (s.made h ++ [k])⟩

/-- Every hart makes the calls `ops` on a count of `c`. -/
def atomicMachine (ops : H → List SemOp) (c : Nat) : Machine (AtomicSem H) H where
  init s := s.word = c ∧ s.due = ops ∧ ∀ h, s.made h = []
  next := AtomicSem.next

variable [Fintype H]

/-- The count is the balance of what has taken effect. -/
structure AtomicSem.Inv (ops : H → List SemOp) (c : Nat) (s : AtomicSem H) : Prop where
  calls : ∀ h, s.made h ++ s.due h = ops h
  word : s.word + ∑ h, (s.made h).count .wait = c + ∑ h, (s.made h).count .post

/-- **One atomic call keeps the balance**, as long as all posts together do not overflow it. -/
theorem AtomicSem.Inv.next {ops : H → List SemOp} {c : Nat} {s s' : AtomicSem H} {h : H}
    (hc : c + ∑ h, (ops h).count .post < 2 ^ 32) (hi : s.Inv ops c) (hn : s.next h = some s') :
    s'.Inv ops c := by
  obtain ⟨hcalls, hword⟩ := hi
  unfold AtomicSem.next at hn
  split at hn
  · cases hn
  · rename_i k ks hdue
    obtain ⟨word', hk, rfl⟩ := Option.map_eq_some_iff.mp hn
    have hwait := sum_update_add (List.count .wait) s.made h (s.made h ++ [k])
    have hpost := sum_update_add (List.count .post) s.made h (s.made h ++ [k])
    refine ⟨fun u => ?_, ?_⟩
    · by_cases hu : u = h
      · subst hu
        simp [← hcalls u, hdue]
      · simp [hu, hcalls u]
    · dsimp only
      rw [List.count_append] at hwait hpost
      cases k with
      | wait =>
        have hw : ([SemOp.wait].count .wait) = 1 ∧ ([SemOp.wait].count .post) = 0 := by decide
        rw [hw.1] at hwait
        rw [hw.2] at hpost
        have hk := sem_wait_eq_some.mp hk
        omega
      | post =>
        have hw : ([SemOp.post].count .wait) = 0 ∧ ([SemOp.post].count .post) = 1 := by decide
        rw [hw.1] at hwait
        rw [hw.2] at hpost
        -- this post is one of the calls not yet counted
        have hle : ∑ u, (Function.update s.made h (s.made h ++ [.post]) u).count .post ≤
            ∑ u, (ops u).count .post := by
          refine Finset.sum_le_sum fun u _ => ?_
          rw [← hcalls u]
          by_cases hu : u = h
          · subst hu
            rw [Function.update_self, hdue]
            exact ((List.singleton_sublist.mpr List.mem_cons_self).append_left _).count_le _
          · rw [Function.update_of_ne hu]
            exact (List.sublist_append_left _ _).count_le _
        cases hk
        have hlt : s.word + 1 < 2 ^ 32 := by omega
        rw [sem_post_of_lt hlt]
        omega

theorem atomicMachine_inv {ops : H → List SemOp} {c : Nat}
    (hc : c + ∑ h, (ops h).count .post < 2 ^ 32) {s : AtomicSem H}
    (h : (atomicMachine ops c).Reach s) : s.Inv ops c := by
  refine h.invariant (motive := fun s => s.Inv ops c) ?_ ?_
  · rintro s ⟨hword, hdue, hmade⟩
    exact ⟨fun u => by rw [hmade u, hdue]; rfl, by simp [hmade, hword]⟩
  · intro s h s' hi _ hn
    exact hi.next hc hn

end Atomic

/-! ## The harts -/

/-- A call with the registers its `asm` block was given. -/
structure SemCall where
  op : SemOp
  regs : Operands

/-- A hart: the calls it has still to make, the call it is in with its accesses so far, and the
calls it has returned from with theirs. -/
structure SemHart where
  todo : List SemCall
  call : Option SemCall
  core : Core
  trace : List MemAccess
  returned : List (SemCall × List MemAccess)

inductive SemTurn where
  /-- The next call, with the registers it finds; `__sem` holds the address. -/
  | enter (regs : Reg → Word32)
  /-- One instruction; `fails` lets an `sc.w` fail. -/
  | instr (fails : Bool)
  | ret

def SemHart.next (sem : Word32) (mem : Word32 → Word32) (th : SemHart) :
    SemTurn → Option (SemHart × Option MemAccess)
  | .enter regs =>
    match th.call, th.todo with
    | none, call :: todo =>
      if regs call.regs.sem = sem then
        some (⟨todo, some call, ⟨0, regs, th.core.reservation⟩, [], th.returned⟩, none)
      else none
    | _, _ => none
  | .instr fails => th.call.bind fun call =>
      (step (call.op.asm call.regs) fails mem th.core).map fun p =>
        ({ th with core := p.1, trace := th.trace ++ p.2.toList }, p.2)
  | .ret => th.call.bind fun call =>
      if th.core.pc = (call.op.asm call.regs).length then
        some ({ th with call := none, returned := th.returned ++ [(call, th.trace)] }, none)
      else none

/-- What another hart's access does to a hart. -/
def SemHart.observe (th : SemHart) (acc : Option MemAccess) : SemHart :=
  { th with core := th.core.observe acc }

structure SemHarts (H : Type) where
  harts : H → SemHart
  mem : Word32 → Word32

/-- The calls a hart has entered. -/
def SemHart.entered (th : SemHart) : List (SemCall × List MemAccess) :=
  th.returned ++ (th.call.map fun call => (call, th.trace)).toList

/-- The successful stores a hart has made in its calls of `k`. -/
def SemHart.stored (k : SemOp) (th : SemHart) : Nat :=
  (th.entered.flatMap fun p => if p.1.op = k then storesOf p.2 else []).length

section Harts

variable {H : Type} [DecidableEq H]

def SemHarts.next (sem : Word32) (s : SemHarts H) (a : H × SemTurn) : Option (SemHarts H) :=
  ((s.harts a.1).next sem s.mem a.2).map fun p =>
    ⟨Function.update (fun u => (s.harts u).observe p.2) a.1 p.1, write p.2 s.mem⟩

/-- Hart `h` makes the calls `calls h` on the word at `sem`, which holds `c`. -/
def semMachine (calls : H → List SemCall) (sem c : Word32) : Machine (SemHarts H) (H × SemTurn) where
  init s := s.mem sem = c ∧
    ∀ h, (s.harts h).todo = calls h ∧ (s.harts h).call = none ∧ (s.harts h).returned = []
  next := SemHarts.next sem

end Harts

/-! ## One hart -/

/-- The calls of a hart that have taken effect: one for every store. -/
def SemHart.made (th : SemHart) : List SemOp :=
  th.entered.flatMap fun p => (storesOf p.2).map fun _ => p.1.op

/-- The calls of a hart that have not taken effect. -/
def SemHart.due (th : SemHart) : List SemOp :=
  (match th.call with
    | some call => if storesOf th.trace = [] then [call.op] else []
    | none => []) ++ th.todo.map SemCall.op

/-- The invariant of a hart: its calls have distinct operands, it is inside its present call, and
it has stored once in every call it has returned from. -/
structure SemHart.Inv (sem : Word32) (mem : Word32 → Word32) (th : SemHart) : Prop where
  todo : ∀ call ∈ th.todo, call.regs.Distinct
  call : ∀ call, th.call = some call → call.regs.Distinct ∧
    InCall call.op call.regs sem th.core mem th.trace
  returned : ∀ p ∈ th.returned, Stored p.1.op sem p.2

theorem SemHart.stored_eq (k : SemOp) (th : SemHart) : th.stored k = th.made.count k := by
  unfold SemHart.stored SemHart.made
  rw [List.length_flatMap, List.count_flatMap]
  congr 1
  refine List.map_congr_left fun p _ => ?_
  dsimp only [Function.comp_apply]
  rw [List.map_const', List.count_replicate]
  by_cases hk : p.1.op = k <;> simp [hk]

/-- How a hart's step shows in its calls: not at all, or its next call takes effect. -/
inductive SemHart.Shows (sem : Word32) (mem : Word32 → Word32) (th th' : SemHart) :
    Option MemAccess → Prop
  | silent {acc : Option MemAccess} (hmade : th'.made = th.made) (hdue : th'.due = th.due)
      (hmem : write acc mem = mem) : Shows sem mem th th' acc
  | effect {acc : Option MemAccess} (k : SemOp) (hmade : th'.made = th.made ++ [k])
      (hdue : th.due = k :: th'.due)
      (hword : k.atomic (mem sem).toNat = some (write acc mem sem).toNat) :
      Shows sem mem th th' acc

section Hart

variable {sem : Word32} {mem : Word32 → Word32} {th th' : SemHart} {acc : Option MemAccess}

/-- **Counting the word down or up is the atomic call.** -/
theorem atomic_apply (k : SemOp) {v : Word32} (h0 : k = .wait → v ≠ 0) :
    k.atomic v.toNat = some (k.apply v).toNat := by
  cases k with
  | wait =>
    have hne : v ≠ 0 := h0 rfl
    have hpos : v.toNat ≠ 0 := fun h => hne (BitVec.eq_of_toNat_eq h)
    simp only [SemOp.atomic, SemOp.apply, sem_wait, if_neg hpos]
    congr 1
    bv_omega
  | post => simp [SemOp.atomic, SemOp.apply, sem_post]

theorem SemHart.Inv.other (hi : th.Inv sem mem) (acc : Option MemAccess) :
    (th.observe acc).Inv sem (write acc mem) := by
  obtain ⟨htodo, hcall, hret⟩ := hi
  refine ⟨htodo, fun call h => ?_, hret⟩
  exact ⟨(hcall call h).1, (hcall call h).2.other acc⟩

/-- **One step of a hart.** -/
theorem SemHart.Inv.next {turn : SemTurn} (hi : th.Inv sem mem)
    (h : th.next sem mem turn = some (th', acc)) :
    th'.Inv sem (write acc mem) ∧ th.Shows sem mem th' acc := by
  obtain ⟨htodo, hcall, hret⟩ := hi
  obtain ⟨todo, call, core, trace, returned⟩ := th
  cases turn with
  | enter regs =>
    simp only [SemHart.next] at h
    split at h
    · rename_i call' todo'
      split at h
      · rename_i haddr
        cases h
        refine ⟨⟨fun c hc => htodo c (List.mem_cons_of_mem _ hc), ?_, hret⟩, ?_⟩
        · intro c hc
          cases hc
          refine ⟨htodo _ List.mem_cons_self, InCall.start rfl ?_⟩
          rw [Core.reg, if_neg call'.regs.sem_ne_zero]
          exact haddr
        · refine .silent ?_ rfl rfl
          simp [SemHart.made, SemHart.entered]
      · cases h
    · cases h
  | instr fails =>
    obtain ⟨call', hsome, h⟩ := Option.bind_eq_some_iff.mp h
    dsimp only at hsome
    subst hsome
    obtain ⟨⟨core', acc'⟩, hstep, h⟩ := Option.map_eq_some_iff.mp h
    cases h
    obtain ⟨hd, hin⟩ := hcall call' rfl
    obtain ⟨hin', heffect⟩ := hin.own hd hstep
    refine ⟨⟨htodo, ?_, hret⟩, ?_⟩
    · intro c hc
      cases hc
      exact ⟨hd, hin'⟩
    · rcases acc' with _ | ⟨addr, value⟩ | ⟨addr, value⟩
      · exact .silent (by simp [SemHart.made, SemHart.entered]) (by simp [SemHart.due]) rfl
      · exact .silent (by simp [SemHart.made, SemHart.entered]) (by simp [SemHart.due]) rfl
      · obtain ⟨rfl, rfl, h0, hs⟩ := heffect
        refine .effect call'.op ?_ ?_ ?_
        · simp [SemHart.made, SemHart.entered, hs]
        · simp [SemHart.due, hs]
        · rw [atomic_apply _ h0]
          simp [write]
  | ret =>
    obtain ⟨call', hsome, h⟩ := Option.bind_eq_some_iff.mp h
    dsimp only at hsome
    subst hsome
    split at h
    · rename_i hend
      cases h
      obtain ⟨hd, hin⟩ := hcall call' rfl
      have hstored : Stored call'.op sem trace := by
        have hknows := hin.knows
        have hdone : call'.op.phase core.pc = .done := by rw [hend]; cases call'.op <;> rfl
        rw [hdone] at hknows
        exact hknows
      refine ⟨⟨htodo, fun c hc => (by cases hc), ?_⟩, ?_⟩
      · intro p hp
        rcases List.mem_append.mp hp with hp | hp
        · exact hret p hp
        · rw [List.mem_singleton.mp hp]
          exact hstored
      · obtain ⟨v, -, -, hs⟩ := hstored
        refine .silent ?_ ?_ rfl
        · simp [SemHart.made, SemHart.entered]
        · simp [SemHart.due, hs]
    · cases h

end Hart

/-! ## All harts -/

section Harts

variable {H : Type} [DecidableEq H] {calls : H → List SemCall} {sem c : Word32}

/-- The atomic semaphore's view of the harts. -/
def SemHarts.atomic (sem : Word32) (s : SemHarts H) : AtomicSem H :=
  ⟨(s.mem sem).toNat, fun h => (s.harts h).due, fun h => (s.harts h).made⟩

theorem SemHarts.next_eq_some {s s' : SemHarts H} {a : H × SemTurn} (h : s.next sem a = some s') :
    ∃ th acc, (s.harts a.1).next sem s.mem a.2 = some (th, acc) ∧
      s' = ⟨Function.update (fun u => (s.harts u).observe acc) a.1 th, write acc s.mem⟩ := by
  obtain ⟨⟨th, acc⟩, hnext, rfl⟩ := Option.map_eq_some_iff.mp h
  exact ⟨th, acc, hnext, rfl⟩

theorem semMachine_inv (hd : ∀ h, ∀ call ∈ calls h, call.regs.Distinct) {s : SemHarts H}
    (hs : (semMachine calls sem c).Reach s) : ∀ h, (s.harts h).Inv sem s.mem := by
  refine hs.invariant (motive := fun s => ∀ h, (s.harts h).Inv sem s.mem) ?_ ?_
  · rintro s ⟨-, hinit⟩ h
    obtain ⟨htodo, hcall, hret⟩ := hinit h
    refine ⟨by rw [htodo]; exact hd h, fun call h => ?_, fun p hp => ?_⟩
    · rw [hcall] at h
      cases h
    · rw [hret] at hp
      cases hp
  · intro s a s' hi _ hn u
    obtain ⟨th, acc, hnext, rfl⟩ := SemHarts.next_eq_some hn
    by_cases hu : u = a.1
    · subst hu
      dsimp only
      rw [Function.update_self]
      exact ((hi a.1).next hnext).1
    · dsimp only
      rw [Function.update_of_ne hu]
      exact (hi u).other acc

/-- A step of hart `h` changes no other hart's calls. -/
theorem SemHarts.view_update {α : Type} (f : SemHart → α)
    (hf : ∀ th acc, f (SemHart.observe th acc) = f th) (s : SemHarts H) (h : H) (th : SemHart)
    (acc : Option MemAccess) :
    (fun u => f (Function.update (fun u => (s.harts u).observe acc) h th u)) =
      Function.update (fun u => f (s.harts u)) h (f th) := by
  funext u
  by_cases hu : u = h
  · subst hu; simp
  · simp [hu, hf]

/-- **The harts implement the atomic semaphore**: an instruction is silent or is the atomic step
of its hart's present call. -/
theorem semMachine_simulates (hd : ∀ h, ∀ call ∈ calls h, call.regs.Distinct) {s : SemHarts H}
    (hs : (semMachine calls sem c).Reach s) :
    (atomicMachine (fun h => (calls h).map SemCall.op) c.toNat).Reach (s.atomic sem) := by
  refine Machine.ReachBy.simulate (M := semMachine calls sem c)
    (N := atomicMachine (fun h => (calls h).map SemCall.op) c.toNat) (SemHarts.atomic sem) ?_ ?_ hs
  · rintro s ⟨hmem, hinit⟩
    refine ⟨congrArg BitVec.toNat hmem, funext fun h => ?_, fun h => ?_⟩
    · obtain ⟨htodo, hcall, -⟩ := hinit h
      simp [SemHarts.atomic, SemHart.due, htodo, hcall]
    · obtain ⟨-, hcall, hret⟩ := hinit h
      simp [SemHarts.atomic, SemHart.made, SemHart.entered, hcall, hret]
  · intro s a s' hs _ _ hn
    obtain ⟨th, acc, hnext, rfl⟩ := SemHarts.next_eq_some hn
    have hdue := SemHarts.view_update SemHart.due (fun _ _ => rfl) s a.1 th acc
    have hmade := SemHarts.view_update SemHart.made (fun _ _ => rfl) s a.1 th acc
    cases ((semMachine_inv hd hs a.1).next hnext).2 with
    | silent hm hdu hmem =>
      refine Or.inl ?_
      simp only [SemHarts.atomic, hdue, hmade, hmem, hm, hdu]
      simp
    | effect k hm hdu hword =>
      refine Or.inr ⟨a.1, trivial, ?_⟩
      simp only [atomicMachine, AtomicSem.next, SemHarts.atomic, hdu, hword, Option.map_some, hdue,
        hmade, hm]

/-- **The LR/SC loops implement a counting semaphore**: the word is the initial count plus the
posts less the waits stored, without wrapping, and every call returned from has made exactly one
successful store. -/
theorem sem_counts (H : Type) [Fintype H] [DecidableEq H] (calls : H → List SemCall)
    (sem c : Word32) (hd : ∀ h, ∀ call ∈ calls h, call.regs.Distinct)
    (hc : c.toNat + ∑ h, (calls h).countP (fun call => call.op = .post) < 2 ^ 32) (s : SemHarts H)
    (hs : (semMachine calls sem c).Reach s) :
    (s.mem sem).toNat =
        c.toNat + ∑ h, (s.harts h).stored .post - ∑ h, (s.harts h).stored .wait ∧
      ∑ h, (s.harts h).stored .wait ≤ c.toNat + ∑ h, (s.harts h).stored .post ∧
      ∀ h, ∀ p ∈ (s.harts h).returned, (storesOf p.2).length = 1 := by
  have hposts : ∀ h, ((calls h).map SemCall.op).count .post =
      (calls h).countP (fun call => call.op = .post) := by
    intro h
    rw [List.count, List.countP_map]
    rfl
  have hinv := atomicMachine_inv (by simpa only [hposts] using hc) (semMachine_simulates hd hs)
  have hword : (s.mem sem).toNat + ∑ h, (s.harts h).made.count .wait =
    c.toNat + ∑ h, (s.harts h).made.count .post := hinv.word
  simp only [SemHart.stored_eq]
  refine ⟨by omega, by omega, ?_⟩
  intro h p hp
  obtain ⟨v, -, -, hstores⟩ := (semMachine_inv hd hs h).returned p hp
  rw [hstores]
  rfl

/-- One hart posts, the other waits and then posts. -/
def threeCalls : Bool → List SemCall
  | false => [⟨.post, distinctOperands⟩]
  | true => [⟨.wait, distinctOperands⟩, ⟨.post, distinctOperands⟩]

theorem threeCalls_distinct (h : Bool) : ∀ call ∈ threeCalls h, call.regs.Distinct := by
  intro call hcall
  have hregs : call.regs = distinctOperands := by
    cases h <;> simp only [threeCalls, List.mem_cons, List.not_mem_nil, or_false] at hcall
    · rw [hcall]
    · rcases hcall with rfl | rfl <;> rfl
  rw [hregs]
  exact distinctOperands_distinct

/-- Two harts on a count of 0: hart `true` finds it zero twice, and its first `sc.w` fails. -/
theorem sem_counts_two : ∃ s : SemHarts Bool, (semMachine threeCalls someWord 0).Reach s ∧
    ((s.harts false).returned.length, (s.harts true).returned.length) = (1, 2) ∧
    s.mem someWord = 1 ∧
    (s.mem someWord).toNat = (0 : Word32).toNat + ∑ h, (s.harts h).stored .post -
      ∑ h, (s.harts h).stored .wait := by
  let start : SemHarts Bool :=
    ⟨fun h => ⟨threeCalls h, none, ⟨0, fun _ => 0, none⟩, [], []⟩, fun _ => 0⟩
  have hinit : (semMachine threeCalls someWord 0).init start := ⟨rfl, fun _ => ⟨rfl, rfl, rfl⟩⟩
  let enter : SemTurn := .enter fun _ => someWord
  let i : SemTurn := .instr false
  have hrun : ((semMachine threeCalls someWord 0).exec start
      [(false, enter), (true, enter), (true, i), (false, i), (true, i), (true, i), (false, i),
        (false, i), (true, i), (false, i), (false, .ret), (true, i), (true, i), (true, i),
        (true, .instr true), (true, i), (true, i), (true, i), (true, i), (true, i), (true, i),
        (true, .ret), (true, enter), (true, i), (true, i), (true, i), (true, i), (true, .ret)]).map
      (fun s => (((s.harts false).returned.length, (s.harts true).returned.length),
        s.mem someWord)) = some ((1, 2), 1) := by decide +kernel
  obtain ⟨s, hs, hret⟩ := Option.map_eq_some_iff.mp hrun
  have hreach := Machine.reach_exec (.init hinit) hs
  refine ⟨s, hreach, congrArg Prod.fst hret, congrArg Prod.snd hret, ?_⟩
  exact (sem_counts Bool threeCalls someWord 0 threeCalls_distinct (by decide) s hreach).1

end Harts

end SortPlatform.Sw

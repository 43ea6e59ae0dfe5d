import Mathlib.Algebra.BigOperators.Ring.Finset
import SortPlatform.Sw.SemHarts

/-!
# The semaphores make progress

How many instructions the `lr.w`/`sc.w` loops of `sem_wait` and `sem_post` of
`src/sw/final/main.cpp` take when any number of harts call them on one word.

* `SemCall.rank` — goes down with every instruction, and up by one lap of five instructions when
  another hart's store takes the reservation.
* `SemHarts.spins` — a `sem_wait` goes back to its `lr.w` because the count is zero.
* `SemHarts.spurious` — an `sc.w` fails although nobody has stored.

Principal result: `sem_lock_free` — apart from spinning and spurious failures a call costs seven
steps and a lap for every other hart, and the harts stop only where the atomic semaphore does.
-/

set_option autoImplicit false

namespace SortPlatform.Sw

open Rv32a

/-! ## The cost of one call -/

/-- A lap of the loop is in vain once its reservation is lost. -/
def lapRank (sem : Word32) (core : Core) (left : Nat) : Nat :=
  if core.reservation = some sem then left else left + 5

/-- The steps left of a call when nobody else stores and nothing fails. -/
def SemCall.rank (sem : Word32) (call : SemCall) (core : Core) : Nat :=
  match call.op.phase core.pc with
  | .load => 6
  | .test => lapRank sem core 5
  | .add => lapRank sem core 4
  | .store => lapRank sem core 3
  | .retry => if core.reg call.regs.success = 0 then 2 else 7
  | .done => 1

/-- The next instruction goes back to the `lr.w`, and the count is zero. -/
def SemCall.spins (sem : Word32) (mem : Word32 → Word32) (call : SemCall) (core : Core) : Bool :=
  call.op.phase core.pc = .test ∧ core.reg call.regs.value = 0 ∧ mem sem = 0

/-- The next instruction is an `sc.w` that fails with its reservation intact. -/
def SemCall.spurious (sem : Word32) (fails : Bool) (call : SemCall) (core : Core) : Bool :=
  call.op.phase core.pc = .store ∧ core.reservation = some sem ∧ fails = true

/-- What an instruction costs: it is the store of its call, or it is seen by nobody. -/
inductive SemCall.Pays (sem : Word32) (mem : Word32 → Word32) (fails : Bool) (call : SemCall)
    (core core' : Core) : Option MemAccess → Prop
  | store {addr value : Word32}
      (hlost : call.rank sem (core.observe (some (.store addr value))) = call.rank sem core + 5)
      (hdown : call.rank sem core' < call.rank sem core) :
      Pays sem mem fails call core core' (some (.store addr value))
  | quiet {acc : Option MemAccess} (hobserve : ∀ c : Core, c.observe acc = c)
      (hstores : storesOf acc.toList = [])
      (hdown : call.rank sem core' + 1 ≤ call.rank sem core +
        2 * (call.spins sem mem core).toNat + 5 * (call.spurious sem fails core).toNat) :
      Pays sem mem fails call core core' acc

section Call

variable {sem : Word32} {mem : Word32 → Word32} {fails : Bool} {call : SemCall} {c c' : Core}
  {trace : List MemAccess} {acc : Option MemAccess}

theorem phase_zero (k : SemOp) : k.phase 0 = .load := by cases k <;> rfl

theorem wait_of_test {k : SemOp} {pc : Nat} (h : k.phase pc = .test) : k = .wait := by
  cases k with
  | wait => rfl
  | post =>
    match pc with
    | 0 | 1 | 2 | 3 | _ + 4 => cases h

theorem lapRank_lt {left left' : Nat} (hres : c'.reservation = c.reservation) (h : left' < left) :
    lapRank sem c' left' < lapRank sem c left := by
  unfold lapRank
  rw [hres]
  split
  · exact h
  · exact Nat.add_lt_add_right h 5

/-- An instruction that only goes down. -/
theorem SemCall.Pays.down (hobserve : ∀ c : Core, c.observe acc = c)
    (hstores : storesOf acc.toList = []) (h : call.rank sem c' < call.rank sem c) :
    call.Pays sem mem fails c c' acc := by
  refine .quiet hobserve hstores ?_
  omega

/-- **`lr.w`** begins a lap. -/
theorem SemCall.pays_lr_w (haddr : c.reg call.regs.sem = sem) (hpc : call.op.phase c.pc = .load)
    (hnext : call.op.phase (c.pc + 1) = .test ∨ call.op.phase (c.pc + 1) = .add)
    (h : (Instr.lr_w call.regs.value call.regs.sem).exec fails mem c = some (c', acc)) :
    call.Pays sem mem fails c c' acc := by
  obtain ⟨rfl, rfl⟩ := exec_lr_w h
  refine .down (fun _ => rfl) rfl ?_
  rw [haddr]
  rcases hnext with hnext | hnext <;> simp [SemCall.rank, hpc, hnext, lapRank]

/-- **`beqz`** goes back on zero: the count still is zero, or the lap was in vain. -/
theorem SemCall.pays_beqz (hl : Loaded sem c mem trace (c.reg call.regs.value))
    (hpc : call.op.phase c.pc = .test) (hnext : call.op.phase (c.pc + 1) = .add)
    (h : (Instr.beqz call.regs.value 0).exec fails mem c = some (c', acc)) :
    call.Pays sem mem fails c c' acc := by
  obtain ⟨hc, rfl⟩ := exec_beqz h
  rcases hc with ⟨h0, rfl⟩ | ⟨-, rfl⟩
  · refine .quiet (fun _ => rfl) rfl ?_
    have hrank : call.rank sem (c.goto 0) = 6 := by
      simp [SemCall.rank, phase_zero]
    by_cases hmem : mem sem = 0
    · have hspins : call.spins sem mem c = true := by simp [SemCall.spins, hpc, h0, hmem]
      have hge : 5 ≤ call.rank sem c := by
        simp only [SemCall.rank, hpc, lapRank]
        split <;> omega
      rw [hrank, hspins, Bool.toNat_true]
      omega
    · have hlost : c.reservation ≠ some sem := by
        intro hres
        exact hmem ((hl.current hres).trans h0)
      have hge : call.rank sem c = 10 := by simp [SemCall.rank, hpc, lapRank, hlost]
      rw [hrank, hge]
      omega
  · refine .down (fun _ => rfl) rfl ?_
    simp only [SemCall.rank, hpc, hnext, Core.goto_pc]
    exact lapRank_lt rfl (by decide)

/-- **`addi`** keeps the reservation. -/
theorem SemCall.pays_addi {imm : BitVec 12} (hpc : call.op.phase c.pc = .add)
    (hnext : call.op.phase (c.pc + 1) = .store)
    (h : (Instr.addi call.regs.value call.regs.value imm).exec fails mem c = some (c', acc)) :
    call.Pays sem mem fails c c' acc := by
  obtain ⟨rfl, rfl⟩ := exec_addi h
  refine .down (fun _ => rfl) rfl ?_
  simp only [SemCall.rank, hpc, hnext, Core.goto_pc]
  exact lapRank_lt rfl (by decide)

/-- **`sc.w`** stores with its reservation intact. -/
theorem SemCall.pays_sc_w (haddr : c.reg call.regs.sem = sem) (hpc : call.op.phase c.pc = .store)
    (hnext : call.op.phase (c.pc + 1) = .retry)
    (h : (Instr.sc_w call.regs.success call.regs.value call.regs.sem).exec fails mem c =
      some (c', acc)) : call.Pays sem mem fails c c' acc := by
  have hs := call.regs.success_ne_zero
  rcases exec_sc_w h with ⟨hres, rfl, rfl⟩ | ⟨rfl, rfl⟩
  · rw [haddr] at hres ⊢
    refine .store ?_ ?_
    · simp [Core.observe, hres, SemCall.rank, hpc, lapRank]
    · simp [SemCall.rank, hpc, hnext, lapRank, hres, Core.reg_setReg_self _ hs]
  · refine .quiet (fun _ => rfl) rfl ?_
    have hrank : call.rank sem (((c.setReg call.regs.success 1).reserve none).goto (c.pc + 1)) =
        7 := by
      simp [SemCall.rank, hnext, Core.reg_setReg_self _ hs]
    by_cases hres : c.reservation = some sem
    · -- the flag is the only reason left
      have hfails : fails = true := by
        cases fails with
        | true => rfl
        | false => cases (exec_sc_w_intact (by rw [hres, haddr]) h).2
      have hspurious : call.spurious sem fails c = true := by
        simp [SemCall.spurious, hpc, hres, hfails]
      rw [hrank, hspurious, Bool.toNat_true]
      simp only [SemCall.rank, hpc, lapRank, if_pos hres]
      omega
    · rw [hrank]
      simp only [SemCall.rank, hpc, lapRank, if_neg hres]
      omega

/-- **`bnez`** leaves the loop after the store. -/
theorem SemCall.pays_bnez (hpc : call.op.phase c.pc = .retry)
    (hnext : call.op.phase (c.pc + 1) = .done)
    (h : (Instr.bnez call.regs.success 0).exec fails mem c = some (c', acc)) :
    call.Pays sem mem fails c c' acc := by
  obtain ⟨hc, rfl⟩ := exec_bnez h
  refine .down (fun _ => rfl) rfl ?_
  rcases hc with ⟨hne, rfl⟩ | ⟨h0, rfl⟩
  · simp only [SemCall.rank, hpc, Core.goto_pc, phase_zero, if_neg hne]
    decide
  · simp [SemCall.rank, hpc, hnext, h0]

/-- **One instruction of a call.** -/
theorem SemCall.pays (hi : InCall call.op call.regs sem c mem trace)
    (h : step (call.op.asm call.regs) fails mem c = some (c', acc)) :
    call.Pays sem mem fails c c' acc := by
  obtain ⟨haddr, hknows⟩ := hi
  obtain ⟨i, hi, hexec⟩ := step_eq_some.mp h
  obtain ⟨pc, regs, reservation⟩ := c
  obtain ⟨op, o⟩ := call
  cases op with
  | wait =>
    match pc with
    | 0 => cases hi; exact pays_lr_w haddr rfl (Or.inl rfl) hexec
    | 1 => cases hi; exact pays_beqz hknows rfl rfl hexec
    | 2 => cases hi; exact pays_addi rfl rfl hexec
    | 3 => cases hi; exact pays_sc_w haddr rfl rfl hexec
    | 4 => cases hi; exact pays_bnez rfl rfl hexec
    | _ + 5 => cases hi
  | post =>
    match pc with
    | 0 => cases hi; exact pays_lr_w haddr rfl (Or.inr rfl) hexec
    | 1 => cases hi; exact pays_addi rfl rfl hexec
    | 2 => cases hi; exact pays_sc_w haddr rfl rfl hexec
    | 3 => cases hi; exact pays_bnez rfl rfl hexec
    | _ + 4 => cases hi

/-- Another hart's access costs at most the present lap. -/
theorem SemCall.rank_observe (call : SemCall) (sem : Word32) (c : Core) (acc : Option MemAccess) :
    call.rank sem (c.observe acc) ≤ call.rank sem c + 5 := by
  simp only [SemCall.rank, Core.observe_pc, Core.observe_reg, lapRank]
  split <;> (repeat' split) <;> omega

/-- Each call stays inside its block. -/
theorem pc_asm_le {k : SemOp} {o : Operands}
    (h : step (k.asm o) fails mem c = some (c', acc)) : c'.pc ≤ (k.asm o).length := by
  obtain ⟨i, hi, hexec⟩ := step_eq_some.mp h
  have hlt : c.pc + 1 ≤ (k.asm o).length := (List.getElem?_eq_some_iff.mp hi).1
  have hmem : i ∈ k.asm o := List.mem_of_getElem? hi
  have hback : ∀ r target, i = .beqz r target ∨ i = .bnez r target → target = 0 := by
    intro r target hr
    cases k <;> simp only [SemOp.asm, Asm.sem_wait, Asm.sem_post, List.mem_cons, List.not_mem_nil,
      or_false] at hmem <;> grind
  cases i with
  | lr_w rd rs1 =>
    obtain ⟨rfl, -⟩ := exec_lr_w hexec
    exact hlt
  | sc_w rd rs2 rs1 => rcases exec_sc_w hexec with ⟨-, rfl, -⟩ | ⟨rfl, -⟩ <;> exact hlt
  | addi rd rs1 imm =>
    obtain ⟨rfl, -⟩ := exec_addi hexec
    exact hlt
  | beqz rs1 target =>
    obtain ⟨⟨-, rfl⟩ | ⟨-, rfl⟩, -⟩ := exec_beqz hexec
    · rw [hback rs1 target (Or.inl rfl)]
      exact Nat.zero_le _
    · exact hlt
  | bnez rs1 target =>
    obtain ⟨⟨-, rfl⟩ | ⟨-, rfl⟩, -⟩ := exec_bnez hexec
    · rw [hback rs1 target (Or.inr rfl)]
      exact Nat.zero_le _
    · exact hlt

/-- Only a `sem_wait` that has not stored goes around, and only while the count is zero. -/
theorem SemCall.spinning (hi : InCall call.op call.regs sem c mem trace)
    (h : call.spins sem mem c = true) : call.op = .wait ∧ storesOf trace = [] ∧ mem sem = 0 := by
  obtain ⟨htest, -, hmem⟩ := of_decide_eq_true h
  refine ⟨wait_of_test htest, ?_, hmem⟩
  have hknows := hi.knows
  rw [htest] at hknows
  exact hknows.stores

/-- Inside its block a call can always go on: its address is a multiple of four. -/
theorem SemCall.step_isSome (call : SemCall) (fails : Bool) (mem : Word32 → Word32)
    (hsem : aligned sem = true) (haddr : c.reg call.regs.sem = sem)
    (hlt : c.pc < (call.op.asm call.regs).length) :
    ∃ p, step (call.op.asm call.regs) fails mem c = some p := by
  have hi : (call.op.asm call.regs)[c.pc]? = some (call.op.asm call.regs)[c.pc] :=
    List.getElem?_eq_getElem hlt
  have haligned : ∀ addr, (call.op.asm call.regs)[c.pc].address c = some addr →
      aligned addr = true := by
    intro addr h
    rw [address_asm (List.getElem_mem hlt) h, haddr]
    exact hsem
  unfold step
  rw [hi, Option.bind_some]
  cases hinstr : (call.op.asm call.regs)[c.pc] with
  | lr_w rd rs1 =>
    have ha : aligned (c.reg rs1) = true := haligned _ (by rw [hinstr]; rfl)
    exact ⟨_, if_pos ha⟩
  | sc_w rd rs2 rs1 =>
    have ha : aligned (c.reg rs1) = true := haligned _ (by rw [hinstr]; rfl)
    simp only [Instr.exec, if_pos ha]
    split <;> exact ⟨_, rfl⟩
  | addi rd rs1 imm => exact ⟨_, rfl⟩
  | beqz rs1 target => exact ⟨_, rfl⟩
  | bnez rs1 target => exact ⟨_, rfl⟩

end Call

/-! ## The cost of a hart's step -/

/-- The steps left of a hart when nobody else stores and nothing fails. -/
def SemHart.rank (sem : Word32) (th : SemHart) : Nat :=
  7 * th.todo.length + match th.call with
    | some call => call.rank sem th.core
    | none => 0

def SemHart.spins (sem : Word32) (mem : Word32 → Word32) (th : SemHart) : SemTurn → Bool
  | .instr _ => th.call.any fun call => call.spins sem mem th.core
  | _ => false

def SemHart.spurious (sem : Word32) (th : SemHart) : SemTurn → Bool
  | .instr fails => th.call.any fun call => call.spurious sem fails th.core
  | _ => false

section Hart

variable {sem : Word32} {mem : Word32 → Word32} {th th' : SemHart} {acc : Option MemAccess}

theorem SemHart.rank_observe (acc : Option MemAccess) :
    (th.observe acc).rank sem ≤ th.rank sem + 5 := by
  obtain ⟨todo, call, core, trace, returned⟩ := th
  cases call with
  | none => simp [SemHart.rank, SemHart.observe]
  | some call =>
    have hcall := call.rank_observe sem core acc
    simp only [SemHart.rank, SemHart.observe]
    omega

/-- **What a hart's step costs**: a store takes one call from those that are due and the present
lap from every other hart, any other step leaves the other harts alone. -/
inductive SemHart.Pays (sem : Word32) (mem : Word32 → Word32) (th th' : SemHart) (turn : SemTurn) :
    Option MemAccess → Prop
  | store {acc : Option MemAccess} (hdue : th'.due.length + 1 = th.due.length)
      (hlost : (th.observe acc).rank sem = th.rank sem + 5) (hdown : th'.rank sem < th.rank sem) :
      Pays sem mem th th' turn acc
  | quiet {acc : Option MemAccess} (hdue : th'.due = th.due)
      (hobserve : ∀ u : SemHart, u.observe acc = u)
      (hdown : th'.rank sem + 1 ≤ th.rank sem + 2 * (th.spins sem mem turn).toNat +
        5 * (th.spurious sem turn).toNat) :
      Pays sem mem th th' turn acc

theorem SemHart.Inv.pays {turn : SemTurn} (hi : th.Inv sem mem)
    (h : th.next sem mem turn = some (th', acc)) : th.Pays sem mem th' turn acc := by
  obtain ⟨-, hcall, -⟩ := hi
  obtain ⟨todo, call, core, trace, returned⟩ := th
  cases turn with
  | enter regs =>
    simp only [SemHart.next] at h
    split at h
    · rename_i call' todo'
      split at h
      · cases h
        refine .quiet rfl (fun _ => rfl) ?_
        simp only [SemHart.rank, SemCall.rank, phase_zero, List.length_cons]
        omega
      · cases h
    · cases h
  | instr fails =>
    obtain ⟨call', hsome, h⟩ := Option.bind_eq_some_iff.mp h
    dsimp only at hsome
    subst hsome
    obtain ⟨⟨core', acc'⟩, hstep, h⟩ := Option.map_eq_some_iff.mp h
    cases h
    obtain ⟨hd, hin⟩ := hcall call' rfl
    cases SemCall.pays (c := core) hin hstep with
    | @store addr value hlost hdown =>
      have hs : storesOf trace = [] := (hin.own hd hstep).2.2.2.2
      refine .store ?_ ?_ ?_
      · simp [SemHart.due, hs]
      · simp only [SemHart.rank, SemHart.observe, hlost]
        omega
      · dsimp only [SemHart.rank]
        omega
    | quiet hobserve hstores hdown =>
      refine .quiet ?_ ?_ ?_
      · have htrace : storesOf (trace ++ acc'.toList) = storesOf trace := by
          rw [storesOf_append, hstores, List.append_nil]
        simp only [SemHart.due, htrace]
      · intro u
        simp only [SemHart.observe, hobserve]
      · simp only [SemHart.spins, SemHart.spurious, Option.any_some]
        dsimp only [SemHart.rank]
        omega
  | ret =>
    obtain ⟨call', hsome, h⟩ := Option.bind_eq_some_iff.mp h
    dsimp only at hsome
    subst hsome
    split at h
    · rename_i hend
      cases h
      have hdone : call'.op.phase core.pc = .done := by rw [hend]; cases call'.op <;> rfl
      obtain ⟨v, -, -, hs⟩ : Stored call'.op sem trace := by
        have hknows := (hcall call' rfl).2.knows
        rw [hdone] at hknows
        exact hknows
      refine .quiet ?_ (fun _ => rfl) ?_
      · simp [SemHart.due, hs]
      · simp only [SemHart.rank, SemCall.rank, hdone]
        omega
    · cases h

/-- A call has not run past its block. -/
def SemHart.Inside (th : SemHart) : Prop :=
  ∀ call, th.call = some call → th.core.pc ≤ (call.op.asm call.regs).length

theorem SemHart.inside_next {turn : SemTurn} (h : th.next sem mem turn = some (th', acc)) :
    th'.Inside := by
  obtain ⟨todo, call, core, trace, returned⟩ := th
  intro call' hcall
  cases turn with
  | enter regs =>
    simp only [SemHart.next] at h
    split at h
    · split at h <;> cases h
      exact Nat.zero_le _
    · cases h
  | instr fails =>
    obtain ⟨call₀, hsome, h⟩ := Option.bind_eq_some_iff.mp h
    obtain ⟨⟨core', acc'⟩, hstep, h⟩ := Option.map_eq_some_iff.mp h
    cases h
    cases hsome.symm.trans hcall
    exact pc_asm_le hstep
  | ret =>
    obtain ⟨call₀, -, h⟩ := Option.bind_eq_some_iff.mp h
    split at h <;> cases h
    cases hcall

/-- **Where a hart is stuck**: it has nothing to do, or it waits for a count that is zero. -/
theorem SemHart.Inv.stuck (hsem : aligned sem = true) (hi : th.Inv sem mem)
    (hpc : th.Inside)
    (hstuck : ∀ turn p, th.next sem mem turn = some p → th.spins sem mem turn = true) :
    th.due = [] ∨ ∃ ks, th.due = .wait :: ks ∧ mem sem = 0 := by
  obtain ⟨-, hcall, -⟩ := hi
  obtain ⟨todo, call, core, trace, returned⟩ := th
  cases call with
  | none =>
    cases todo with
    | nil => exact Or.inl rfl
    | cons call todo =>
      have henter := hstuck (.enter fun _ => sem) _ (if_pos rfl)
      cases henter
  | some call =>
    obtain ⟨-, hin⟩ := hcall call rfl
    have hle := hpc call rfl
    by_cases hend : core.pc = (call.op.asm call.regs).length
    · have hret := hstuck .ret _ (if_pos hend)
      cases hret
    · obtain ⟨p, hstep⟩ := call.step_isSome false mem hsem hin.addr (lt_of_le_of_ne hle hend)
      have hspins := hstuck (.instr false) _ (congrArg (Option.map _) hstep)
      obtain ⟨hop, hs, hmem⟩ := SemCall.spinning hin hspins
      refine Or.inr ⟨todo.map SemCall.op, ?_, hmem⟩
      simp [SemHart.due, hs, hop]

end Hart

/-! ## All harts -/

section Harts

variable {H : Type} [DecidableEq H] {calls : H → List SemCall} {sem c : Word32}

def SemHarts.spins (sem : Word32) (s : SemHarts H) (a : H × SemTurn) : Bool :=
  (s.harts a.1).spins sem s.mem a.2

def SemHarts.spurious (sem : Word32) (s : SemHarts H) (a : H × SemTurn) : Bool :=
  (s.harts a.1).spurious sem a.2

theorem semMachine_inside {s : SemHarts H} (hs : (semMachine calls sem c).Reach s) :
    ∀ h, (s.harts h).Inside := by
  refine hs.invariant (motive := fun s => ∀ h, (s.harts h).Inside) ?_ ?_
  · rintro s ⟨-, hinit⟩ h call hcall
    rw [(hinit h).2.1] at hcall
    cases hcall
  · intro s a s' hi _ hn u
    obtain ⟨th, acc, hnext, rfl⟩ := SemHarts.next_eq_some hn
    dsimp only
    by_cases hu : u = a.1
    · subst hu
      rw [Function.update_self]
      exact SemHart.inside_next hnext
    · rw [Function.update_of_ne hu]
      intro call hcall
      rw [SemHart.observe, Core.observe_pc]
      exact hi u call hcall

variable [Fintype H]

/-- Every call that is due may cost a lap of every other hart. -/
def SemHarts.potential (sem : Word32) (s : SemHarts H) : Nat :=
  5 * (Fintype.card H - 1) * ∑ h, (s.harts h).due.length + ∑ h, (s.harts h).rank sem

/-- **One step of the harts** lowers the potential, unless it spins or fails spuriously. -/
theorem SemHarts.potential_next (hd : ∀ h, ∀ call ∈ calls h, call.regs.Distinct) {s s' : SemHarts H}
    {a : H × SemTurn} (hs : (semMachine calls sem c).Reach s) (hn : s.next sem a = some s') :
    s'.potential sem + 1 ≤
      s.potential sem + 2 * (s.spins sem a).toNat + 5 * (s.spurious sem a).toNat := by
  obtain ⟨th, acc, hnext, rfl⟩ := SemHarts.next_eq_some hn
  have hdue := sum_update_add (fun th : SemHart => th.due.length)
    (fun u => (s.harts u).observe acc) a.1 th
  have hrank := sum_update_add (SemHart.rank sem) (fun u => (s.harts u).observe acc) a.1 th
  have hsame : ∀ u, ((s.harts u).observe acc).due.length = (s.harts u).due.length := fun _ => rfl
  simp only [hsame] at hdue
  unfold SemHarts.potential SemHarts.spins SemHarts.spurious
  dsimp only
  cases (semMachine_inv hd hs a.1).pays hnext with
  | store hone hlost hdown =>
    -- the other harts lose a lap each
    have hlaps : ∑ u, ((s.harts u).observe acc).rank sem ≤
        ∑ u, (s.harts u).rank sem + 5 * Fintype.card H := by
      calc ∑ u, ((s.harts u).observe acc).rank sem
          ≤ ∑ u, ((s.harts u).rank sem + 5) :=
            Finset.sum_le_sum fun u _ => SemHart.rank_observe acc
        _ = ∑ u, (s.harts u).rank sem + 5 * Fintype.card H := by
            rw [Finset.sum_add_distrib, Finset.sum_const, Finset.card_univ, Nat.nsmul_eq_mul,
              Nat.mul_comm]
    have hcard : 0 < Fintype.card H := Fintype.card_pos_iff.mpr ⟨a.1⟩
    have hless : (∑ u, (Function.update (fun u => (s.harts u).observe acc) a.1 th u).due.length) + 1
        = ∑ u, (s.harts u).due.length := by omega
    rw [← hless, Nat.mul_succ]
    omega
  | quiet hkept hobserve hdown =>
    simp only [hobserve] at hdue hrank ⊢
    rw [hkept] at hdue
    have hkept : (∑ u, (Function.update (fun u => s.harts u) a.1 th u).due.length) =
        ∑ u, (s.harts u).due.length := by omega
    rw [hkept]
    omega

/-- **The semaphores are lock-free**: a run takes seven steps for each call and five more for
every other hart's lap that its store takes, besides two for each time around a zero count and
five for each spurious failure of an `sc.w`; and the harts come to a stop only where the atomic
semaphore does. -/
theorem sem_lock_free (H : Type) [Fintype H] [DecidableEq H] (calls : H → List SemCall)
    (sem c : Word32) (hd : ∀ h, ∀ call ∈ calls h, call.regs.Distinct) (hsem : aligned sem = true) :
    (∀ tr s, (semMachine calls sem c).Path tr s →
      tr.length ≤ (7 + 5 * (Fintype.card H - 1)) * ∑ h, (calls h).length +
        2 * tr.countP (fun p => p.1.spins sem p.2) +
        5 * tr.countP (fun p => p.1.spurious sem p.2)) ∧
    ∀ s, (semMachine calls sem c).Reach s →
      (∀ a s', s.next sem a = some s' → s.spins sem a = true) →
      ∀ h, (s.atomic sem).next h = none := by
  constructor
  · intro tr s hp
    have hlen := hp.length_le (f := SemHarts.potential sem) (i := 2) (j := 5)
      (p := fun p => p.1.spins sem p.2) (q := fun p => p.1.spurious sem p.2)
      (b := (7 + 5 * (Fintype.card H - 1)) * ∑ h, (calls h).length) ?_ ?_
    · omega
    · rintro s ⟨-, hinit⟩
      have hdue : ∀ h, (s.harts h).due.length = (calls h).length := by
        intro h
        obtain ⟨htodo, hcall, -⟩ := hinit h
        simp [SemHart.due, htodo, hcall]
      have hrank : ∀ h, (s.harts h).rank sem = 7 * (calls h).length := by
        intro h
        obtain ⟨htodo, hcall, -⟩ := hinit h
        simp [SemHart.rank, htodo, hcall]
      simp only [SemHarts.potential, hdue, hrank]
      rw [← Finset.mul_sum, Nat.add_mul]
      omega
    · intro s a s' hs hn
      exact SemHarts.potential_next hd hs hn
  · intro s hs hstuck h
    have hhart : ∀ turn p, (s.harts h).next sem s.mem turn = some p →
        (s.harts h).spins sem s.mem turn = true := by
      intro turn p hp
      exact hstuck (h, turn) _ (congrArg (Option.map _) hp)
    have hdue := (semMachine_inv hd hs h).stuck hsem (semMachine_inside hs h) hhart
    unfold AtomicSem.next SemHarts.atomic
    rcases hdue with hnil | ⟨ks, hcons, hmem⟩
    · simp [hnil]
    · simp [hcons, hmem, SemOp.atomic, sem_wait]

theorem SemHart.next_finished {mem : Word32 → Word32} {th : SemHart} (htodo : th.todo = [])
    (hcall : th.call = none) (turn : SemTurn) : th.next sem mem turn = none := by
  cases turn <;> simp [SemHart.next, htodo, hcall]

/-- Two harts on a count of 0: hart `true` goes around twice, and its first `sc.w` fails. -/
theorem sem_lock_free_two : ∃ tr s, (semMachine threeCalls someWord 0).Path tr s ∧
    tr.length = 28 ∧
    tr.length ≤ (7 + 5 * (Fintype.card Bool - 1)) * ∑ h, (threeCalls h).length +
      2 * tr.countP (fun p => p.1.spins someWord p.2) +
      5 * tr.countP (fun p => p.1.spurious someWord p.2) ∧
    (s.atomic someWord).next false = none ∧ (s.atomic someWord).next true = none := by
  let start : SemHarts Bool :=
    ⟨fun h => ⟨threeCalls h, none, ⟨0, fun _ => 0, none⟩, [], []⟩, fun _ => 0⟩
  have hinit : (semMachine threeCalls someWord 0).init start := ⟨rfl, fun _ => ⟨rfl, rfl, rfl⟩⟩
  let enter : SemTurn := .enter fun _ => someWord
  let i : SemTurn := .instr false
  have hrun : ((semMachine threeCalls someWord 0).exec start
      [(false, enter), (true, enter), (true, i), (false, i), (true, i), (true, i), (false, i),
        (false, i), (true, i), (false, i), (false, .ret), (true, i), (true, i), (true, i),
        (true, .instr true), (true, i), (true, i), (true, i), (true, i), (true, i), (true, i),
        (true, .ret), (true, enter), (true, i), (true, i), (true, i), (true, i), (true, .ret)]).map
      (fun s => ((s.harts false).todo.length + (s.harts true).todo.length,
        (s.harts false).call.isNone && (s.harts true).call.isNone)) = some (0, true) := by
    decide +kernel
  obtain ⟨s, hs, hret⟩ := Option.map_eq_some_iff.mp hrun
  obtain ⟨tr, hp, htr⟩ := Machine.path_exec (.init hinit) hs
  have htodo := congrArg Prod.fst hret
  have hcall := congrArg Prod.snd hret
  simp only [Nat.add_eq_zero_iff, List.length_eq_zero_iff, Bool.and_eq_true,
    Option.isNone_iff_eq_none] at htodo hcall
  obtain ⟨hbound, hstop⟩ :=
    sem_lock_free Bool threeCalls someWord 0 threeCalls_distinct aligned_someWord
  have hnone := hstop s (hp.reachBy fun _ _ => trivial) (by
    rintro ⟨h, turn⟩ s' hn
    obtain ⟨th, acc, hnext, -⟩ := SemHarts.next_eq_some hn
    cases h with
    | false => cases (SemHart.next_finished htodo.1 hcall.1 turn).symm.trans hnext
    | true => cases (SemHart.next_finished htodo.2 hcall.2 turn).symm.trans hnext)
  exact ⟨tr, s, hp, by simpa using congrArg List.length htr, hbound tr s hp, hnone false, hnone true⟩

end Harts

end SortPlatform.Sw

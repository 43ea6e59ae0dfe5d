import SortPlatform.Lib.Rv32a

/-!
# The assembly of `sem_wait` and `sem_post`

The `asm` blocks of `src/sw/final/main.cpp`, with the operands `value`, `success` and `__sem` in
any registers their constraints permit: `"=r"` twice and `"r"`. An output without `&` may share
the register of the input.

* `Operands` — a permitted assignment of registers.
* `Operands.Distinct` — neither output shares the register of `__sem`.
* `InCall` — where a block stands, with distinct operands, among other harts' accesses.

Principal results:

* `InCall.own`, `InCall.other` — the invariant of one call.
* `sem_asm_correct_iff` — the blocks are correct for exactly the assignments that are `Distinct`.
-/

set_option autoImplicit false

namespace SortPlatform.Sw

open Rv32a

/-- `sem_wait` or `sem_post`. -/
inductive SemOp where
  | wait
  | post
  deriving DecidableEq, Repr

/-- What a call does to the count. -/
def SemOp.apply : SemOp → Word32 → Word32
  | .wait, v => v - 1
  | .post, v => v + 1

/-- The registers of `value`, `success` and `__sem`: two outputs and one input. -/
structure Operands where
  value : Reg
  success : Reg
  sem : Reg
  value_ne_zero : value ≠ 0
  success_ne_zero : success ≠ 0
  sem_ne_zero : sem ≠ 0
  outputs_ne : value ≠ success

/-- `__sem` keeps its register, as an `&` on both outputs would ask for. -/
structure Operands.Distinct (o : Operands) : Prop where
  value : o.sem ≠ o.value
  success : o.sem ≠ o.success

/-- `value`, `success` and `__sem` in `a5`, `a4` and `a3`. -/
def distinctOperands : Operands :=
  ⟨Reg.a5, Reg.a4, Reg.a3, Reg.a5_ne_zero, Reg.a4_ne_zero, Reg.a3_ne_zero, Reg.a5_ne_a4⟩

theorem distinctOperands_distinct : distinctOperands.Distinct := ⟨by decide, by decide⟩

/-- `a5` for `value` and `__sem`, `a4` for `success`. -/
def sharedOperands : Operands :=
  ⟨Reg.a5, Reg.a4, Reg.a5, Reg.a5_ne_zero, Reg.a4_ne_zero, Reg.a5_ne_zero, Reg.a5_ne_a4⟩

/-- `L%=: lr.w; beqz L%=; addi -1; sc.w; bnez L%=` -/
def Asm.sem_wait (o : Operands) : List Instr :=
  [.lr_w o.value o.sem, .beqz o.value 0, .addi o.value o.value (-1), .sc_w o.success o.value o.sem,
    .bnez o.success 0]

/-- `L%=: lr.w; addi 1; sc.w; bnez L%=` -/
def Asm.sem_post (o : Operands) : List Instr :=
  [.lr_w o.value o.sem, .addi o.value o.value 1, .sc_w o.success o.value o.sem, .bnez o.success 0]

def SemOp.asm : SemOp → Operands → List Instr
  | .wait => Asm.sem_wait
  | .post => Asm.sem_post

/-! ## One call -/

/-- What the next instruction of a block is for. -/
inductive AsmPhase where
  | load
  | test
  | add
  | store
  | retry
  | done
  deriving DecidableEq, Repr

def SemOp.phase : SemOp → Nat → AsmPhase
  | .wait, 0 => .load
  | .wait, 1 => .test
  | .wait, 2 => .add
  | .wait, 3 => .store
  | .wait, 4 => .retry
  | .wait, _ => .done
  | .post, 0 => .load
  | .post, 1 => .add
  | .post, 2 => .store
  | .post, 3 => .retry
  | .post, _ => .done

/-- `v` is the latest value loaded, nothing is stored yet, and while the reservation is intact the
word still is `v`. -/
structure Loaded (sem : Word32) (c : Core) (mem : Word32 → Word32) (trace : List MemAccess) (v : Word32) :
    Prop where
  stores : storesOf trace = []
  latest : latest trace = some v
  current : c.reservation = some sem → mem sem = v

/-- The one store of a call: the latest value loaded, counted down or up. -/
def Stored (k : SemOp) (sem : Word32) (trace : List MemAccess) : Prop :=
  ∃ v, latest trace = some v ∧ (k = .wait → v ≠ 0) ∧ storesOf trace = [(sem, k.apply v)]

/-- What a hart inside a block knows. -/
def Knows (k : SemOp) (o : Operands) (sem : Word32) (c : Core) (mem : Word32 → Word32)
    (trace : List MemAccess) : AsmPhase → Prop
  | .load => storesOf trace = []
  | .test => Loaded sem c mem trace (c.reg o.value)
  | .add => Loaded sem c mem trace (c.reg o.value) ∧ (k = .wait → c.reg o.value ≠ 0)
  | .store => ∃ v, Loaded sem c mem trace v ∧ (k = .wait → v ≠ 0) ∧ c.reg o.value = k.apply v
  | .retry => (c.reg o.success = 0 ∧ Stored k sem trace) ∨
      (c.reg o.success ≠ 0 ∧ storesOf trace = [])
  | .done => Stored k sem trace

/-- The invariant of one call. -/
structure InCall (k : SemOp) (o : Operands) (sem : Word32) (c : Core) (mem : Word32 → Word32)
    (trace : List MemAccess) : Prop where
  addr : c.reg o.sem = sem
  knows : Knows k o sem c mem trace (k.phase c.pc)

/-- What a step may do to the word: nothing, or the call's one store. -/
def Effect (k : SemOp) (sem : Word32) (mem : Word32 → Word32) (trace : List MemAccess) :
    Option MemAccess → Prop
  | some (.store addr value) => addr = sem ∧ value = k.apply (mem sem) ∧
      (k = .wait → mem sem ≠ 0) ∧ storesOf trace = []
  | _ => True

section Call

variable {k : SemOp} {o : Operands} {sem : Word32} {c c' : Core} {mem : Word32 → Word32}
  {trace : List MemAccess} {acc : Option MemAccess} {fails : Bool}

theorem addi_neg_one (v : Word32) : v + (-1 : BitVec 12).signExtend 32 = v - 1 := by
  have h : (-1 : BitVec 12).signExtend 32 = -1 := by decide
  rw [h, BitVec.sub_eq_add_neg]

theorem addi_one (v : Word32) : v + (1 : BitVec 12).signExtend 32 = v + 1 := rfl

/-- **`lr.w`** reserves the word and loads its value. -/
theorem InCall.lr_w (hd : o.Distinct) (haddr : c.reg o.sem = sem) (hs : storesOf trace = [])
    (hpc : k.phase (c.pc + 1) = .test ∨ (k = .post ∧ k.phase (c.pc + 1) = .add))
    (h : (Instr.lr_w o.value o.sem).exec fails mem c = some (c', acc)) :
    InCall k o sem c' (write acc mem) (trace ++ acc.toList) ∧ Effect k sem mem trace acc := by
  obtain ⟨rfl, rfl⟩ := exec_lr_w h
  rw [haddr]
  have hval : (((c.setReg o.value (mem sem)).reserve (some sem)).goto (c.pc + 1)).reg o.value =
      mem sem := by
    simp [Core.reg_setReg_self _ o.value_ne_zero]
  have hloaded : Loaded sem (((c.setReg o.value (mem sem)).reserve (some sem)).goto (c.pc + 1)) mem
      (trace ++ [.load sem (mem sem)]) (mem sem) :=
    ⟨by simpa using hs, by simp, fun _ => rfl⟩
  refine ⟨⟨by simpa [Core.reg_setReg_of_ne _ hd.value] using haddr, ?_⟩, trivial⟩
  rw [Core.goto_pc]
  rcases hpc with hpc | ⟨rfl, hpc⟩
  · rw [hpc]
    dsimp only [Knows]
    rw [hval]
    exact hloaded
  · rw [hpc]
    dsimp only [Knows]
    rw [hval]
    exact ⟨hloaded, fun hk => by cases hk⟩

/-- **`addi`** counts down or up in the register. -/
theorem InCall.addi {imm : BitVec 12} (hd : o.Distinct) (haddr : c.reg o.sem = sem)
    (hl : Loaded sem c mem trace (c.reg o.value)) (h0 : k = .wait → c.reg o.value ≠ 0)
    (himm : c.reg o.value + imm.signExtend 32 = k.apply (c.reg o.value))
    (hpc : k.phase (c.pc + 1) = .store)
    (h : (Instr.addi o.value o.value imm).exec fails mem c = some (c', acc)) :
    InCall k o sem c' (write acc mem) (trace ++ acc.toList) ∧ Effect k sem mem trace acc := by
  obtain ⟨rfl, rfl⟩ := exec_addi h
  rw [himm]
  refine ⟨⟨by simpa [Core.reg_setReg_of_ne _ hd.value] using haddr, ?_⟩, trivial⟩
  rw [Core.goto_pc, hpc]
  refine ⟨c.reg o.value, ⟨by simpa using hl.stores, by simpa using hl.latest, hl.current⟩, h0, ?_⟩
  simp [Core.reg_setReg_self _ o.value_ne_zero]

/-- **`sc.w`** stores only while the word is the value loaded. -/
theorem InCall.sc_w {v : Word32} (hd : o.Distinct) (haddr : c.reg o.sem = sem)
    (hl : Loaded sem c mem trace v) (h0 : k = .wait → v ≠ 0) (hval : c.reg o.value = k.apply v)
    (hpc : k.phase (c.pc + 1) = .retry)
    (h : (Instr.sc_w o.success o.value o.sem).exec fails mem c = some (c', acc)) :
    InCall k o sem c' (write acc mem) (trace ++ acc.toList) ∧ Effect k sem mem trace acc := by
  rcases exec_sc_w h with ⟨hres, rfl, rfl⟩ | ⟨rfl, rfl⟩
  · rw [haddr] at hres ⊢
    have hcur := hl.current hres
    refine ⟨⟨by simpa [Core.reg_setReg_of_ne _ hd.success] using haddr, ?_⟩,
      rfl, by rw [hcur, hval], fun hk => by rw [hcur]; exact h0 hk, hl.stores⟩
    rw [Core.goto_pc, hpc]
    refine Or.inl ⟨by simp [Core.reg_setReg_self _ o.success_ne_zero], v, ?_, h0, ?_⟩
    · simpa using hl.latest
    · simp [hl.stores, hval]
  · refine ⟨⟨by simpa [Core.reg_setReg_of_ne _ hd.success] using haddr, ?_⟩, trivial⟩
    rw [Core.goto_pc, hpc]
    refine Or.inr ⟨?_, by simpa using hl.stores⟩
    simp [Core.reg_setReg_self _ o.success_ne_zero]

/-- **`bnez`** leaves the block exactly after the store. -/
theorem InCall.bnez (haddr : c.reg o.sem = sem)
    (hk : (c.reg o.success = 0 ∧ Stored k sem trace) ∨ (c.reg o.success ≠ 0 ∧ storesOf trace = []))
    (hpc : k.phase (c.pc + 1) = .done)
    (h : (Instr.bnez o.success 0).exec fails mem c = some (c', acc)) :
    InCall k o sem c' (write acc mem) (trace ++ acc.toList) ∧ Effect k sem mem trace acc := by
  obtain ⟨hc, rfl⟩ := exec_bnez h
  refine ⟨?_, trivial⟩
  rcases hc with ⟨hne, rfl⟩ | ⟨h0, rfl⟩
  · refine ⟨haddr, ?_⟩
    have hs : storesOf trace = [] := (hk.resolve_left fun hz => hne hz.1).2
    cases k <;> simpa [SemOp.phase, Knows] using hs
  · refine ⟨haddr, ?_⟩
    rw [Core.goto_pc, hpc]
    have hs : Stored k sem trace := (hk.resolve_right fun hz => hz.1 h0).2
    simpa [Knows] using hs

/-- **`beqz`** tries again on a zero count. -/
theorem InCall.beqz (haddr : c.reg o.sem = sem) (hl : Loaded sem c mem trace (c.reg o.value))
    (hpc : k.phase (c.pc + 1) = .add)
    (h : (Instr.beqz o.value 0).exec fails mem c = some (c', acc)) :
    InCall k o sem c' (write acc mem) (trace ++ acc.toList) ∧ Effect k sem mem trace acc := by
  obtain ⟨hc, rfl⟩ := exec_beqz h
  refine ⟨?_, trivial⟩
  rcases hc with ⟨-, rfl⟩ | ⟨hne, rfl⟩
  · refine ⟨haddr, ?_⟩
    have hs := hl.stores
    cases k <;> simpa [SemOp.phase, Knows] using hs
  · refine ⟨haddr, ?_⟩
    rw [Core.goto_pc, hpc]
    exact ⟨⟨by simpa using hl.stores, by simpa using hl.latest, hl.current⟩, fun _ => hne⟩

/-- **A hart's own step** keeps what it knows and stores at most once. -/
theorem InCall.own (hd : o.Distinct) (hi : InCall k o sem c mem trace)
    (h : step (k.asm o) fails mem c = some (c', acc)) :
    InCall k o sem c' (write acc mem) (trace ++ acc.toList) ∧ Effect k sem mem trace acc := by
  obtain ⟨haddr, hknows⟩ := hi
  obtain ⟨i, hi, hexec⟩ := step_eq_some.mp h
  obtain ⟨pc, regs, reservation⟩ := c
  cases k with
  | wait =>
    match pc with
    | 0 => cases hi; exact InCall.lr_w hd haddr hknows (Or.inl rfl) hexec
    | 1 => cases hi; exact InCall.beqz haddr hknows rfl hexec
    | 2 => cases hi; exact InCall.addi hd haddr hknows.1 hknows.2 (addi_neg_one _) rfl hexec
    | 3 =>
      cases hi
      obtain ⟨v, hl, h0, hval⟩ := hknows
      exact InCall.sc_w hd haddr hl h0 hval rfl hexec
    | 4 => cases hi; exact InCall.bnez haddr hknows rfl hexec
    | _ + 5 => cases hi
  | post =>
    match pc with
    | 0 => cases hi; exact InCall.lr_w hd haddr hknows (Or.inr ⟨rfl, rfl⟩) hexec
    | 1 => cases hi; exact InCall.addi hd haddr hknows.1 hknows.2 (addi_one _) rfl hexec
    | 2 =>
      cases hi
      obtain ⟨v, hl, h0, hval⟩ := hknows
      exact InCall.sc_w hd haddr hl h0 hval rfl hexec
    | 3 => cases hi; exact InCall.bnez haddr hknows rfl hexec
    | _ + 4 => cases hi

theorem Loaded.other {v : Word32} (hl : Loaded sem c mem trace v) (acc : Option MemAccess) :
    Loaded sem (c.observe acc) (write acc mem) trace v := by
  refine ⟨hl.stores, hl.latest, fun hres => ?_⟩
  match acc with
  | none => exact hl.current hres
  | some (.load _ _) => exact hl.current hres
  | some (.store addr value) =>
    simp only [Core.observe] at hres
    split at hres
    · cases hres
    · rename_i hne
      rw [hres] at hne
      have hsem : sem ≠ addr := fun heq => hne (by rw [heq])
      simp only [write, Function.update_of_ne hsem]
      exact hl.current hres

/-- **Another hart's access** leaves what a hart knows: it takes the reservation with it. -/
theorem InCall.other (hi : InCall k o sem c mem trace) (acc : Option MemAccess) :
    InCall k o sem (c.observe acc) (write acc mem) trace := by
  obtain ⟨haddr, hknows⟩ := hi
  refine ⟨by rw [Core.observe_reg]; exact haddr, ?_⟩
  rw [Core.observe_pc]
  cases hphase : k.phase c.pc <;> rw [hphase] at hknows <;> simp only [Knows, Core.observe_reg] at *
  case load => exact hknows
  case test => exact hknows.other acc
  case add => exact ⟨hknows.1.other acc, hknows.2⟩
  case store =>
    obtain ⟨v, hl, hrest⟩ := hknows
    exact ⟨v, hl.other acc, hrest⟩
  case retry => exact hknows
  case done => exact hknows

/-- A call begins with its address in a register and nothing stored. -/
theorem InCall.start (hpc : c.pc = 0) (haddr : c.reg o.sem = sem) : InCall k o sem c mem [] := by
  refine ⟨haddr, ?_⟩
  rw [hpc]
  cases k <;> exact storesOf_nil

end Call

/-! ## Which assignments are correct -/

/-- A block with the operands `o` on the word at `sem`. -/
def Asm.machine (k : SemOp) (o : Operands) (sem : Word32) : Machine Run Turn :=
  blockMachine (k.asm o) fun regs => regs o.sem = sem

/-- The next `lr.w` or `sc.w` is of `sem` and no other word has been stored; at the end of the
block its latest loaded value has been counted down or up by exactly one store. -/
structure Correct (k : SemOp) (o : Operands) (sem : Word32) (s : Run) : Prop where
  address : ∀ i addr, (k.asm o)[s.core.pc]? = some i → i.address s.core = some addr → addr = sem
  only : ∀ p ∈ storesOf s.trace, p.1 = sem
  result : s.core.pc = (k.asm o).length →
    ∃ v, latest s.trace = some v ∧ storesOf s.trace = [(sem, k.apply v)]

section Correct

variable {k : SemOp} {o : Operands} {sem : Word32}

/-- The blocks address memory through `__sem` only. -/
theorem address_asm {c : Core} {i : Instr} {addr : Word32} (hi : i ∈ k.asm o)
    (h : i.address c = some addr) : addr = c.reg o.sem := by
  cases k <;> simp only [SemOp.asm, Asm.sem_wait, Asm.sem_post, List.mem_cons, List.not_mem_nil,
    or_false] at hi
  case wait =>
    rcases hi with rfl | rfl | rfl | rfl | rfl <;> simp only [Instr.address] at h <;> cases h <;> rfl
  case post =>
    rcases hi with rfl | rfl | rfl | rfl <;> simp only [Instr.address] at h <;> cases h <;> rfl

theorem Asm.reach_inCall (hd : o.Distinct) {s : Run} (h : (Asm.machine k o sem).Reach s) :
    InCall k o sem s.core s.mem s.trace := by
  refine h.invariant (motive := fun s => InCall k o sem s.core s.mem s.trace) ?_ ?_
  · rintro s ⟨hpc, haddr, htrace⟩
    rw [htrace]
    refine InCall.start hpc ?_
    rw [Core.reg, if_neg o.sem_ne_zero]
    exact haddr
  · intro s turn s' hi _ hn
    cases turn with
    | own fails =>
      obtain ⟨⟨c', acc⟩, hstep, rfl⟩ := Option.map_eq_some_iff.mp hn
      exact (hi.own hd hstep).1
    | other addr value =>
      cases hn
      exact hi.other (some (.store addr value))

theorem InCall.stores_eq {c : Core} {mem : Word32 → Word32} {trace : List MemAccess}
    (hi : InCall k o sem c mem trace) : storesOf trace = [] ∨ Stored k sem trace := by
  have hknows := hi.knows
  generalize k.phase c.pc = phase at hknows
  cases phase with
  | load => exact Or.inl hknows
  | test => exact Or.inl hknows.stores
  | add => exact Or.inl hknows.1.stores
  | store =>
    obtain ⟨v, hl, -⟩ := hknows
    exact Or.inl hl.stores
  | retry => exact hknows.elim (fun h => Or.inr h.2) (fun h => Or.inl h.2)
  | done => exact Or.inr hknows

theorem InCall.correct {s : Run} (hi : InCall k o sem s.core s.mem s.trace) :
    Correct k o sem s := by
  refine ⟨?_, ?_, ?_⟩
  · intro i addr hat h
    rw [address_asm (List.mem_of_getElem? hat) h, hi.addr]
  · intro p hp
    rcases hi.stores_eq with hs | ⟨v, -, -, hs⟩
    · rw [hs] at hp
      cases hp
    · rw [hs, List.mem_singleton] at hp
      rw [hp]
  · intro hend
    have hknows := hi.knows
    have hdone : k.phase s.core.pc = .done := by rw [hend]; cases k <;> rfl
    rw [hdone] at hknows
    obtain ⟨v, hv, -, hs⟩ := hknows
    exact ⟨v, hv, hs⟩

/-- The address of the word in the runs below. -/
def someWord : Word32 := 0x1000

/-- A hart before the block, with every word of the memory 1. -/
def onesRun : Run := ⟨⟨0, fun _ => someWord, none⟩, fun _ => 1, []⟩

theorem onesRun_init (k : SemOp) (o : Operands) : (Asm.machine k o someWord).init onesRun :=
  ⟨rfl, rfl, rfl⟩

/-- The address of the next access. -/
def nextAddress (k : SemOp) (o : Operands) (s : Run) : Option Word32 :=
  (k.asm o)[s.core.pc]?.bind (Instr.address s.core)

theorem Correct.nextAddress {s : Run} (h : Correct k o sem s) {addr : Word32}
    (ha : nextAddress k o s = some addr) : addr = sem := by
  obtain ⟨i, hi, ha⟩ := Option.bind_eq_some_iff.mp ha
  exact h.address i addr hi ha

theorem aligned_someWord : aligned someWord = true := by decide

theorem reg_update_self {r : Reg} (h : r ≠ 0) (pc : Nat) (f : Reg → Word32) (v : Word32)
    (x : Option Word32) : Core.reg ⟨pc, Function.update f r v, x⟩ r = v := by
  simp [Core.reg, h]

theorem reg_update_of_ne {r r' : Reg} (h : r' ≠ r) (pc : Nat) (f : Reg → Word32) (v : Word32)
    (x : Option Word32) : Core.reg ⟨pc, Function.update f r v, x⟩ r' = Core.reg ⟨pc, f, x⟩ r' := by
  simp [Core.reg, h]

/-- **`value` in the register of `__sem`**: the `sc.w` addresses the new count. -/
theorem shared_value (k : SemOp) (h : o.sem = o.value) :
    ((Asm.machine k o someWord).exec onesRun (List.replicate ((k.asm o).length - 2)
      (.own false))).bind (nextAddress k o) = some (k.apply 1) := by
  have hv := o.value_ne_zero
  have h0 : Core.reg ⟨0, fun _ => someWord, none⟩ o.value = someWord := if_neg hv
  cases k <;>
    simp [SemOp.asm, Asm.sem_wait, Asm.sem_post, List.replicate, Machine.exec, Asm.machine,
      blockMachine, Run.next, step, Instr.exec, onesRun, h, h0, aligned_someWord, Core.setReg,
      Core.goto, Core.reserve, reg_update_self hv, write, nextAddress, Instr.address, SemOp.apply]

/-- **`success` in the register of `__sem`**: after a failed `sc.w` the `lr.w` addresses 1. -/
theorem shared_success (k : SemOp) (h : o.sem = o.success) :
    ((Asm.machine k o someWord).exec onesRun (List.replicate (k.asm o).length
      (.own true))).bind (nextAddress k o) = some 1 := by
  have hs := o.success_ne_zero
  have hv := o.value_ne_zero
  have hne := o.outputs_ne.symm
  have h1 : ∀ pc x, Core.reg ⟨pc, fun _ => someWord, x⟩ o.success = someWord :=
    fun _ _ => if_neg hs
  cases k <;>
    simp [SemOp.asm, Asm.sem_wait, Asm.sem_post, List.replicate, Machine.exec, Asm.machine,
      blockMachine, Run.next, step, Instr.exec, onesRun, h, h1, aligned_someWord, Core.setReg,
      Core.goto, Core.reserve, reg_update_self hs, reg_update_self hv, reg_update_of_ne hne,
      write, nextAddress, Instr.address]

/-- **The blocks are correct exactly when `__sem` keeps its register**: at every word, from every
memory, whatever the other harts store and whichever `sc.w` fail. -/
theorem sem_asm_correct_iff (k : SemOp) (o : Operands) :
    (∀ sem s, (Asm.machine k o sem).Reach s → Correct k o sem s) ↔ o.Distinct := by
  constructor
  · intro h
    refine ⟨fun hv => ?_, fun hs => ?_⟩
    · obtain ⟨s, hs, ha⟩ := Option.bind_eq_some_iff.mp (shared_value k hv)
      have heq := (h someWord s (Machine.reach_exec (.init (onesRun_init k o)) hs)).nextAddress ha
      revert heq
      cases k <;> decide
    · obtain ⟨s, hs, ha⟩ := Option.bind_eq_some_iff.mp (shared_success k hs)
      have heq := (h someWord s (Machine.reach_exec (.init (onesRun_init k o)) hs)).nextAddress ha
      revert heq
      decide
  · intro hd sem s hs
    exact (Asm.reach_inCall hd hs).correct

/-- `sem_wait` with `value` in the register of `__sem`, on a word holding 1 at address 0x1000: the
`sc.w` addresses word 0. -/
theorem sharedOperands_wrong_word : ∃ s, (Asm.machine .wait sharedOperands someWord).Reach s ∧
    nextAddress .wait sharedOperands s = some 0 ∧
    ¬ Correct .wait sharedOperands someWord s := by
  have hrun : (((Asm.machine .wait sharedOperands someWord).exec onesRun
      [.own false, .own false, .own false]).map (nextAddress .wait sharedOperands)) =
      some (some 0) := by decide
  obtain ⟨s, hs, ha⟩ := Option.map_eq_some_iff.mp hrun
  refine ⟨s, Machine.reach_exec (.init (onesRun_init _ _)) hs, ha, fun hc => ?_⟩
  exact absurd (hc.nextAddress ha) (by decide)

end Correct

end SortPlatform.Sw

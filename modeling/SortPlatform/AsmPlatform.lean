import SortPlatform.Completion
import SortPlatform.Sw.SemSites

/-!
# The platform with the semaphores instruction by instruction

The platform again, with the `asm` blocks of `sem_wait` and `sem_post` of `src/sw/final/main.cpp`
in the place of atomic semaphores: a hart at a call enters its block, takes its instructions one at
a time among the steps of everything else, and returns.

* `Image` — what compiler and linker choose: registers and addresses.
* `asmPlatform` — the machine; an `sc.w` may fail spuriously.
* `AsmPlatform.atomic` — the platform with atomic semaphores that it implements.

Principal results:

* `asm_simulates` — every state is one of the platform with atomic semaphores.
* `asm_sort_completes` — total correctness of the sort, but for runs in which harts go around zero
  counts, or fail spuriously, again and again.
-/

set_option autoImplicit false

namespace SortPlatform

open Sw RunMerge Rv32a

/-! ## The machine -/

/-- The registers of the two `asm` blocks, and the addresses of the words of `main`. -/
structure Image where
  operands : SemOp → Operands
  addr : Word → Word32
  distinct : ∀ k, (operands k).Distinct
  injective : addr.Injective
  aligned : ∀ w, aligned (addr w) = true

/-- The call with the operands the compiler chose. -/
def Image.call (m : Image) (k : SemOp) : SemCall := ⟨k, m.operands k⟩

/-- The block of `sem_wait` or `sem_post`. -/
def Image.asm (m : Image) (k : SemOp) : List Instr := k.asm (m.operands k)

/-- A hart's registers and reservation, and the accesses of the call it is in. -/
structure AsmHart where
  core : Core
  call : Option (List MemAccess)

def AsmHart.observe (th : AsmHart) (acc : Option MemAccess) : AsmHart :=
  { th with core := th.core.observe acc }

structure AsmPlatform where
  base : Platform
  asm : Hart → AsmHart

inductive AsmAct where
  /-- A step of the platform other than a call of `sem_wait` or `sem_post`. -/
  | base (a : PlatformAct)
  /-- Hart `h` enters a call, with the registers it finds. -/
  | enter (h : Hart) (regs : Reg → Word32)
  /-- The next instruction of the block; `fails` lets an `sc.w` fail. -/
  | instr (h : Hart) (fails : Bool)
  | ret (h : Hart)

namespace AsmPlatform

/-- The call of `sem_wait` or `sem_post` that hart `h` is at. -/
def site (s : AsmPlatform) (h : Hart) : Option SemSite := (s.base.harts.pc h).site h

/-- Hart `h` makes an access and goes on as `th`. -/
def others (s : AsmPlatform) (h : Hart) (th : AsmHart) (acc : Option MemAccess) : Hart → AsmHart :=
  Function.update (fun u => (s.asm u).observe acc) h th

/-- Hart `h` after an instruction. -/
def take (m : Image) (s : AsmPlatform) (h : Hart) (site : SemSite) (trace : List MemAccess)
    (r : Core × Option MemAccess) : AsmPlatform where
  base :=
    { s.base with
      harts :=
        { s.base.harts with
          mem := s.base.harts.mem.writeAt m.addr r.2
          trace := s.base.harts.trace ++ site.noticed r.2 } }
  asm := s.others h ⟨r.1, some (trace ++ r.2.toList)⟩ r.2

def next (m : Image) (p : Program) (s : AsmPlatform) : AsmAct → Option AsmPlatform
  | .base (.hart h stray) =>
    if s.site h = none then
      (s.base.next p (.hart h stray)).map fun b =>
        ⟨b, s.others h (s.asm h) ((s.base.harts.pc h).access m.addr b.harts.mem)⟩
    else none
  | .base a => (s.base.next p a).map fun b => ⟨b, s.asm⟩
  | .enter h regs =>
    if s.base.harts.Exited ∨ (s.asm h).call ≠ none then none
    else (s.site h).map fun site =>
      { s with
        asm := s.others h ⟨⟨0, Function.update regs (m.operands site.op).sem (m.addr site.word),
          (s.asm h).core.reservation⟩, some []⟩ none }
  | .instr h fails =>
    if s.base.harts.Exited then none
    else (s.site h).bind fun site => (s.asm h).call.bind fun trace =>
      (step (m.asm site.op) fails (s.base.harts.mem.ram m.addr) (s.asm h).core).map
        (s.take m h site trace)
  | .ret h =>
    if s.base.harts.Exited ∨ (s.asm h).call = none then none
    else (s.site h).bind fun site =>
      if (s.asm h).core.pc = (m.asm site.op).length then
        some
          { s with
            base :=
              { s.base with
                harts :=
                  { s.base.harts with pc := Function.update s.base.harts.pc h site.resume } }
            asm := s.others h ⟨(s.asm h).core, none⟩ none }
      else none

end AsmPlatform

/-- Reset with `input` in `in`; no hart is in a call. -/
def asmPlatform (m : Image) (p : Program) (caps : List Nat) (input : List UInt8) :
    Machine AsmPlatform AsmAct where
  init s := (platform p caps input).init s.base ∧ ∀ h, (s.asm h).call = none
  next := AsmPlatform.next m p

/-! ## The harts in their calls -/

variable {m : Image} {p : Program} {caps : List Nat} {input : List UInt8} {s s' : AsmPlatform}
  {a : AsmAct}

/-- A hart in a call is at that call, and knows what its block makes it know. -/
structure InBlock (m : Image) (site : SemSite) (mem : Memory) (core : Core)
    (trace : List MemAccess) : Prop where
  inCall : InCall site.op (m.operands site.op) (m.addr site.word) core (mem.ram m.addr) trace
  inside : core.pc ≤ (m.asm site.op).length

def AsmPlatform.Inv (m : Image) (s : AsmPlatform) : Prop :=
  ∀ h trace, (s.asm h).call = some trace →
    ∃ site, s.site h = some site ∧ InBlock m site s.base.harts.mem (s.asm h).core trace

/-- What a step of the machine is. -/
inductive AsmEffect (m : Image) (p : Program) (s : AsmPlatform) : AsmAct → AsmPlatform → Prop
  | hart {h : Hart} {stray : UInt8} {b : Platform} (hsite : s.site h = none)
      (hb : s.base.next p (.hart h stray) = some b) :
      AsmEffect m p s (.base (.hart h stray))
        ⟨b, s.others h (s.asm h) ((s.base.harts.pc h).access m.addr b.harts.mem)⟩
  | device {a : PlatformAct} {b : Platform} (ha : ∀ h stray, a ≠ .hart h stray)
      (hb : s.base.next p a = some b) : AsmEffect m p s (.base a) ⟨b, s.asm⟩
  | enter {h : Hart} {regs : Reg → Word32} {site : SemSite} (hsite : s.site h = some site)
      (hcall : (s.asm h).call = none) :
      AsmEffect m p s (.enter h regs)
        { s with
          asm := s.others h ⟨⟨0, Function.update regs (m.operands site.op).sem (m.addr site.word),
            (s.asm h).core.reservation⟩, some []⟩ none }
  | instr {h : Hart} {fails : Bool} {site : SemSite} {trace : List MemAccess}
      {r : Core × Option MemAccess} (hsite : s.site h = some site)
      (hcall : (s.asm h).call = some trace)
      (hstep : step (m.asm site.op) fails (s.base.harts.mem.ram m.addr) (s.asm h).core = some r) :
      AsmEffect m p s (.instr h fails) (s.take m h site trace r)
  | ret {h : Hart} {site : SemSite} {trace : List MemAccess} (hsite : s.site h = some site)
      (hcall : (s.asm h).call = some trace)
      (hend : (s.asm h).core.pc = (m.asm site.op).length) :
      AsmEffect m p s (.ret h)
        { s with
          base :=
            { s.base with
              harts :=
                { s.base.harts with pc := Function.update s.base.harts.pc h site.resume } }
          asm := s.others h ⟨(s.asm h).core, none⟩ none }

theorem asm_effect (h : (asmPlatform m p caps input).next s a = some s') :
    ¬ s.base.harts.Exited ∧ AsmEffect m p s a s' := by
  cases a with
  | base a =>
    have hexited : ∀ b, s.base.next p a = some b → ¬ s.base.harts.Exited := by
      intro b hb hex
      unfold Platform.next at hb
      rw [if_pos hex] at hb
      cases hb
    cases a with
    | hart h stray =>
      simp only [asmPlatform, AsmPlatform.next] at h
      split at h
      · rename_i hsite
        obtain ⟨b, hb, rfl⟩ := Option.map_eq_some_iff.mp h
        exact ⟨hexited b hb, .hart hsite hb⟩
      · cases h
    | _ =>
      obtain ⟨b, hb, rfl⟩ := Option.map_eq_some_iff.mp h
      exact ⟨hexited b hb, .device nofun hb⟩
  | enter h regs =>
    simp only [asmPlatform, AsmPlatform.next] at h
    split at h
    · cases h
    · rename_i hnot
      obtain ⟨hex, hcall⟩ := not_or.mp hnot
      obtain ⟨site, hsite, rfl⟩ := Option.map_eq_some_iff.mp h
      exact ⟨hex, .enter hsite (not_not.mp hcall)⟩
  | instr h fails =>
    simp only [asmPlatform, AsmPlatform.next] at h
    split at h
    · cases h
    · rename_i hex
      obtain ⟨site, hsite, h⟩ := Option.bind_eq_some_iff.mp h
      obtain ⟨trace, hcall, h⟩ := Option.bind_eq_some_iff.mp h
      obtain ⟨r, hstep, rfl⟩ := Option.map_eq_some_iff.mp h
      exact ⟨hex, .instr hsite hcall hstep⟩
  | ret h =>
    simp only [asmPlatform, AsmPlatform.next] at h
    split at h
    · cases h
    · rename_i hnot
      obtain ⟨hex, hcall⟩ := not_or.mp hnot
      obtain ⟨trace, hcall⟩ := Option.ne_none_iff_exists'.mp hcall
      obtain ⟨site, hsite, h⟩ := Option.bind_eq_some_iff.mp h
      split at h
      · rename_i hend
        cases h
        exact ⟨hex, .ret hsite hcall hend⟩
      · cases h

/-- A device leaves the harts and their words alone. -/
theorem Effect.device {t t' : Platform} {a : PlatformAct} (he : Effect p t a t')
    (ha : ∀ h stray, a ≠ .hart h stray) :
    t'.harts.pc = t.harts.pc ∧ t'.harts.mem.word = t.harts.mem.word := by
  cases he with
  | hart => exact absurd rfl (ha _ _)
  | _ => exact ⟨rfl, rfl⟩

theorem Platform.next_effect {t t' : Platform} {a : PlatformAct} (hn : t.next p a = some t') :
    Effect p t a t' := by
  have hmachine : (platform p [] []).next t a = some t' := hn
  exact (platform_effect hmachine).2

theorem platform_hart {t t' : Platform} {h : Hart} {stray : UInt8}
    (hn : t.next p (.hart h stray) = some t') :
    ∃ pc' ev, hartStep p h stray (t.harts.pc h) t.harts.mem = some (pc', t'.harts.mem, ev) ∧
      t'.harts.pc = Function.update t.harts.pc h pc' := by
  cases Platform.next_effect hn with
  | hart hs => exact ⟨_, _, hs, rfl⟩

/-- Another hart's access leaves a hart in its block. -/
theorem InBlock.other {site : SemSite} {mem mem' : Memory} {core : Core} {trace : List MemAccess}
    {acc : Option MemAccess} (hi : InBlock m site mem core trace)
    (hmem : mem'.ram m.addr = write acc (mem.ram m.addr)) :
    InBlock m site mem' (core.observe acc) trace := by
  refine ⟨?_, by rw [Core.observe_pc]; exact hi.inside⟩
  rw [hmem]
  exact hi.inCall.other acc

/-- An instruction of a block stores to the word of its call, if at all. -/
theorem InBlock.own {site : SemSite} {mem : Memory} {core : Core} {trace : List MemAccess}
    {fails : Bool} {r : Core × Option MemAccess} (hi : InBlock m site mem core trace)
    (h : step (m.asm site.op) fails (mem.ram m.addr) core = some r) :
    InBlock m site (mem.writeAt m.addr r.2) r.1 (trace ++ r.2.toList) ∧
      (mem.writeAt m.addr r.2).ram m.addr = write r.2 (mem.ram m.addr) := by
  obtain ⟨hin, heffect⟩ := hi.inCall.own (m.distinct site.op) h
  have hram : (mem.writeAt m.addr r.2).ram m.addr = write r.2 (mem.ram m.addr) := by
    refine ram_writeAt m.injective mem r.2 fun a v hacc => ?_
    rw [hacc] at heffect
    exact ⟨site.word, heffect.1⟩
  exact ⟨⟨by rw [hram]; exact hin, pc_asm_le h⟩, hram⟩

/-- **What holds of the other harts after a step of one.** -/
theorem AsmPlatform.Inv.others {h : Hart} {th : AsmHart} {acc : Option MemAccess} {b : Platform}
    (hi : s.Inv m) (hpc : ∀ u, u ≠ h → b.harts.pc u = s.base.harts.pc u)
    (hmem : b.harts.mem.ram m.addr = write acc (s.base.harts.mem.ram m.addr))
    (hown : ∀ trace, th.call = some trace →
      ∃ site, (b.harts.pc h).site h = some site ∧ InBlock m site b.harts.mem th.core trace) :
    AsmPlatform.Inv m ⟨b, s.others h th acc⟩ := by
  intro u trace hcall
  unfold AsmPlatform.others at hcall ⊢
  dsimp only [AsmPlatform.site] at hcall ⊢
  by_cases hu : u = h
  · subst hu
    rw [Function.update_self] at hcall ⊢
    exact hown trace hcall
  · rw [Function.update_of_ne hu] at hcall ⊢
    obtain ⟨site, hsite, hin⟩ := hi u trace hcall
    refine ⟨site, ?_, hin.other hmem⟩
    rw [hpc u hu]
    exact hsite

theorem asm_inv {ok : AsmPlatform → AsmAct → Prop} (hs : (asmPlatform m p caps input).ReachBy ok s) :
    s.Inv m := by
  refine hs.invariant (motive := fun s => s.Inv m) ?_ ?_
  · rintro s ⟨-, hcall⟩ h trace htrace
    rw [hcall] at htrace
    cases htrace
  · intro s a s' hi _ hn
    cases (asm_effect hn).2 with
    | @hart h stray b hsite hb =>
      obtain ⟨pc', ev, hstep, hpc⟩ := platform_hart hb
      refine hi.others (fun u hu => ?_) (hartStep_ram m.injective hsite hstep) fun trace hcall => ?_
      · rw [hpc, Function.update_of_ne hu]
      · -- a hart that is not at a call is not in one
        obtain ⟨site, hsite', -⟩ := hi h trace hcall
        cases hsite.symm.trans hsite'
    | @device a b ha hb =>
      obtain ⟨hpc, hword⟩ := (Platform.next_effect hb).device ha
      intro h trace hcall
      obtain ⟨site, hsite, hin, hinside⟩ := hi h trace hcall
      refine ⟨site, ?_, ?_, hinside⟩
      · dsimp only [AsmPlatform.site]
        rw [hpc]
        exact hsite
      · rw [ram_congr hword]
        exact hin
    | @enter h regs site hsite hcall =>
      refine hi.others (b := s.base) (fun _ _ => rfl) rfl fun trace htrace => ?_
      cases htrace
      refine ⟨site, hsite, InCall.start rfl ?_, Nat.zero_le _⟩
      rw [Core.reg, if_neg (m.operands site.op).sem_ne_zero]
      exact Function.update_self ..
    | @instr h fails site trace r hsite hcall hstep =>
      obtain ⟨site', hsite', hin⟩ := hi h trace hcall
      cases hsite.symm.trans hsite'
      obtain ⟨hin', hram⟩ := hin.own hstep
      refine hi.others (fun _ _ => rfl) hram fun trace' htrace => ?_
      cases htrace
      exact ⟨site, hsite, hin'⟩
    | ret =>
      refine hi.others (fun u hu => ?_) rfl fun trace htrace => ?_
      · exact Function.update_of_ne hu ..
      · cases htrace

/-! ## The platform with atomic semaphores -/

/-- The platform with its harts elsewhere. -/
def Platform.withPc (t : Platform) (pc : Hart → HartPc) : Platform :=
  { t with harts := { t.harts with pc := pc } }

namespace AsmPlatform

/-- Where a hart is when a call takes effect with its store. -/
def pc (s : AsmPlatform) (h : Hart) : HartPc :=
  match (s.asm h).call with
  | some trace =>
    if storesOf trace = [] then s.base.harts.pc h
    else ((s.site h).map SemSite.resume).getD (s.base.harts.pc h)
  | none => s.base.harts.pc h

/-- The platform as if every call took effect with its store, at once. -/
def atomic (s : AsmPlatform) : Platform := s.base.withPc s.pc

theorem pc_of_none {h : Hart} (hcall : (s.asm h).call = none) : s.pc h = s.base.harts.pc h := by
  rw [pc, hcall]

theorem pc_of_due {h : Hart} {trace : List MemAccess} (hcall : (s.asm h).call = some trace)
    (hs : storesOf trace = []) : s.pc h = s.base.harts.pc h := by
  rw [pc, hcall]
  exact if_pos hs

theorem pc_of_stored {h : Hart} {trace : List MemAccess} {site : SemSite}
    (hcall : (s.asm h).call = some trace) (hs : storesOf trace ≠ [])
    (hsite : s.site h = some site) : s.pc h = site.resume := by
  rw [pc, hcall, hsite]
  exact if_neg hs

/-- A step of hart `h` moves no other hart. -/
theorem pc_others {h : Hart} {th : AsmHart} {acc : Option MemAccess} {b : Platform}
    (hpc : ∀ u, u ≠ h → b.harts.pc u = s.base.harts.pc u) :
    pc ⟨b, s.others h th acc⟩ = Function.update s.pc h (pc ⟨b, s.others h th acc⟩ h) := by
  funext u
  by_cases hu : u = h
  · subst hu
    rw [Function.update_self]
  · rw [Function.update_of_ne hu]
    simp only [pc, site, others, Function.update_of_ne hu, hpc u hu]
    rfl

/-- Hart `h` goes on outside of its calls. -/
theorem pc_outside {h : Hart} {pc' : HartPc} {th : AsmHart} {acc : Option MemAccess} {b : Platform}
    (hpc : b.harts.pc = Function.update s.base.harts.pc h pc') (hcall : th.call = none) :
    pc ⟨b, s.others h th acc⟩ = Function.update s.pc h pc' := by
  rw [pc_others fun u hu => by rw [hpc, Function.update_of_ne hu], pc_of_none]
  · dsimp only
    rw [hpc, Function.update_self]
  · show (s.others h th acc h).call = none
    rw [others, Function.update_self]
    exact hcall

theorem take_call (m : Image) (s : AsmPlatform) (h : Hart) (site : SemSite)
    (trace : List MemAccess) (r : Core × Option MemAccess) :
    ((s.take m h site trace r).asm h).call = some (trace ++ r.2.toList) := by
  show (s.others h _ _ h).call = _
  rw [others, Function.update_self]

/-- Before its store a hart stays at its call. -/
theorem pc_take_due {h : Hart} {site : SemSite} {trace : List MemAccess}
    {r : Core × Option MemAccess} (hs : storesOf (trace ++ r.2.toList) = []) :
    (s.take m h site trace r).pc = Function.update s.pc h (s.base.harts.pc h) := by
  have hcall := take_call m s h site trace r
  refine (pc_others fun _ _ => rfl).trans (congrArg (Function.update s.pc h) ?_)
  exact pc_of_due hcall hs

/-- With its store a hart is past its call. -/
theorem pc_take_stored {h : Hart} {site : SemSite} {trace : List MemAccess}
    {r : Core × Option MemAccess} (hsite : s.site h = some site)
    (hs : storesOf (trace ++ r.2.toList) ≠ []) :
    (s.take m h site trace r).pc = Function.update s.pc h site.resume := by
  have hcall := take_call m s h site trace r
  refine (pc_others fun _ _ => rfl).trans (congrArg (Function.update s.pc h) ?_)
  exact pc_of_stored hcall hs hsite

/-- An instruction that stores nothing moves no hart. -/
theorem pc_take_quiet {h : Hart} {site : SemSite} {trace : List MemAccess}
    {r : Core × Option MemAccess} (hsite : s.site h = some site)
    (hcall : (s.asm h).call = some trace)
    (hs : storesOf (trace ++ r.2.toList) = storesOf trace) :
    (s.take m h site trace r).pc = s.pc := by
  by_cases hnil : storesOf trace = []
  · rw [pc_take_due (hs.trans hnil), ← pc_of_due hcall hnil, Function.update_eq_self]
  · rw [pc_take_stored hsite (hs.trans_ne hnil), ← pc_of_stored hcall hnil hsite,
      Function.update_eq_self]

theorem exited_atomic : s.atomic.harts.Exited ↔ s.base.harts.Exited := by
  have hpc : ∀ h, s.pc h = .exited ↔ s.base.harts.pc h = .exited := by
    intro h
    unfold pc
    split
    · split
      · rfl
      · unfold site
        cases hsite : (s.base.harts.pc h).site h with
        | none => rfl
        | some site =>
          refine iff_of_false (HartPc.site_resume hsite) fun hex => ?_
          rw [hex] at hsite
          cases hsite
    · rfl
  exact exists_congr hpc

end AsmPlatform

section Devices

variable {t : Platform} {pc : Hart → HartPc} {junk stray : Nat → UInt8}

theorem readStep_withPc (n : Nat) (loc : Loc) :
    (t.withPc pc).readStep junk stray n loc =
      (t.readStep junk stray n loc).map fun t' => t'.withPc pc := by
  obtain ⟨⟨pc', mem, trace⟩, dma, pes, log⟩ := t
  cases loc with
  | arr a off =>
    dsimp only [Platform.readStep, Platform.withPc]
    by_cases hlen : off + n ≤ (mem.arr a).length
    · rw [if_pos hlen, if_pos hlen, Option.map_map]
      rfl
    · rw [if_neg hlen, if_neg hlen]
      rfl
  | peRead i off =>
    dsimp only [Platform.readStep, Platform.withPc]
    by_cases hoff : off = 0 ∧ n = 16
    · rw [if_pos hoff, if_pos hoff]
      by_cases hr : (pes i).receiving = none
      · rw [if_pos hr, if_pos hr, Option.map_map]
        rfl
      · rw [if_neg hr, if_neg hr, Option.map_bind]
        refine congrArg (Option.bind _) (funext fun u => ?_)
        dsimp only [Function.comp_apply]
        by_cases hu : u.receiving = none
        · rw [if_pos hu, if_pos hu, Option.map_map]
          rfl
        · rw [if_neg hu, if_neg hu]
          rfl
    · rw [if_neg hoff, if_neg hoff]
      rfl
  | _ => rfl

theorem writeStep_withPc (n : Nat) (loc : Loc) :
    (t.withPc pc).writeStep stray n loc =
      (t.writeStep stray n loc).map fun t' => t'.withPc pc := by
  obtain ⟨⟨pc', mem, trace⟩, dma, pes, log⟩ := t
  cases loc with
  | arr a off =>
    dsimp only [Platform.writeStep, Platform.withPc]
    by_cases hlen : off + n ≤ (mem.arr a).length
    · rw [if_pos hlen, if_pos hlen, Option.map_map]
      rfl
    · rw [if_neg hlen, if_neg hlen]
      rfl
  | peStart i off =>
    dsimp only [Platform.writeStep, Platform.withPc]
    by_cases hoff : off = 0 ∧ n = 16
    · rw [if_pos hoff, if_pos hoff]
      by_cases hs : (pes i).sending = []
      · rw [if_pos hs, if_pos hs, Option.map_map]
        rfl
      · rw [if_neg hs, if_neg hs, Option.map_bind]
        refine congrArg (Option.bind _) (funext fun u => ?_)
        dsimp only [Function.comp_apply]
        by_cases hu : u.sending = []
        · rw [if_pos hu, if_pos hu, Option.map_map]
          rfl
        · rw [if_neg hu, if_neg hu]
          rfl
    · rw [if_neg hoff, if_neg hoff]
      rfl
  | _ => rfl

theorem dmaStep_withPc :
    (t.withPc pc).dmaStep junk stray = (t.dmaStep junk stray).map fun t' => t'.withPc pc := by
  unfold Platform.dmaStep
  dsimp only [Platform.withPc]
  split
  · rfl
  · rw [Option.map_map]
    rfl
  · exact readStep_withPc _ _
  · exact writeStep_withPc _ _

/-- **A device does not notice where the harts are**, but for `SYS_EXIT`. -/
theorem next_withPc {a : PlatformAct} (ha : ∀ h stray, a ≠ .hart h stray)
    (hex : (t.withPc pc).harts.Exited ↔ t.harts.Exited) :
    (t.withPc pc).next p a = (t.next p a).map fun t' => t'.withPc pc := by
  unfold Platform.next
  by_cases h : t.harts.Exited
  · rw [if_pos h, if_pos (hex.mpr h)]
    rfl
  · rw [if_neg h, if_neg fun h' => h (hex.mp h')]
    cases a with
    | hart h stray => exact absurd rfl (ha h stray)
    | fire =>
      dsimp only
      rw [Option.map_map]
      rfl
    | dma junk stray => exact dmaStep_withPc
    | pe i w =>
      dsimp only
      rw [Option.map_map]
      rfl

end Devices

/-! ## The simulation -/

/-- The steps of a call that nobody else sees: more before the store than after the call. -/
def AsmHart.rank (m : Image) (site : Option SemSite) (th : AsmHart) : Nat :=
  match site, th.call with
  | some site, some trace =>
    (m.call site.op).rank (m.addr site.word) th.core + 7 * (storesOf trace).length
  | some _, none => 7
  | none, _ => 0

theorem AsmHart.rank_of_call {site : SemSite} {trace : List MemAccess} {th : AsmHart}
    (hcall : th.call = some trace) : th.rank m (some site) =
      (m.call site.op).rank (m.addr site.word) th.core + 7 * (storesOf trace).length := by
  unfold rank
  rw [hcall]

theorem AsmHart.rank_outside {site : Option SemSite} {th : AsmHart} (hcall : th.call = none) :
    th.rank m site = if site = none then 0 else 7 := by
  unfold rank
  rw [hcall]
  cases site <;> rfl

/-- A hart waits for its last request. -/
def AsmPrompt (s : AsmPlatform) : AsmAct → Prop
  | .base a => Prompt s.base a
  | .enter h _ | .instr h _ | .ret h => Prompt s.base (.hart h 0)

namespace AsmPlatform

def rank (m : Image) (s : AsmPlatform) : Nat := ∑ h, (s.asm h).rank m (s.site h)

/-- A hart in `sem_wait` goes back to its `lr.w`, and the count is zero. -/
def spins (m : Image) (s : AsmPlatform) : AsmAct → Bool
  | .instr h _ => (s.site h).any fun site =>
    (m.call site.op).spins (m.addr site.word) (s.base.harts.mem.ram m.addr) (s.asm h).core
  | _ => false

/-- An `sc.w` fails with its reservation intact. -/
def spurious (m : Image) (s : AsmPlatform) : AsmAct → Bool
  | .instr h fails => (s.site h).any fun site =>
    (m.call site.op).spurious (m.addr site.word) fails (s.asm h).core
  | _ => false

/-- A step of hart `h` that the other harts do not see. -/
theorem rank_others {h : Hart} {th : AsmHart} {acc : Option MemAccess} {x y : Nat}
    (hasm : s'.asm = s.others h th acc) (hsite : ∀ u, u ≠ h → s'.site u = s.site u)
    (hquiet : ∀ u : AsmHart, u.observe acc = u)
    (hdown : th.rank m (s'.site h) + 1 ≤ (s.asm h).rank m (s.site h) + x + y) :
    s'.rank m + 1 ≤ s.rank m + x + y := by
  have hsum : (∑ u, Function.update (fun u => (s.asm u).rank m (s.site u)) h
      (th.rank m (s'.site h)) u) + (s.asm h).rank m (s.site h) =
      s.rank m + th.rank m (s'.site h) := sum_update_add id _ h _
  have hrank : (fun u => (s'.asm u).rank m (s'.site u)) =
      Function.update (fun u => (s.asm u).rank m (s.site u)) h (th.rank m (s'.site h)) := by
    funext u
    rw [hasm]
    unfold others
    by_cases hu : u = h
    · subst hu
      rw [Function.update_self, Function.update_self]
    · rw [Function.update_of_ne hu, Function.update_of_ne hu, hquiet, hsite u hu]
  rw [← hrank] at hsum
  have hsum : s'.rank m + (s.asm h).rank m (s.site h) = s.rank m + th.rank m (s'.site h) := hsum
  omega

/-- **A step other than of a call** is that step of the platform with atomic semaphores. -/
theorem atomic_hart {h : Hart} {stray : UInt8} {b : Platform} {acc : Option MemAccess}
    (hex : ¬ s.base.harts.Exited) (hcall : (s.asm h).call = none)
    (hb : s.base.next p (.hart h stray) = some b) :
    s.atomic.next p (.hart h stray) = some (atomic ⟨b, s.others h (s.asm h) acc⟩) := by
  unfold Platform.next at hb ⊢
  rw [if_neg hex] at hb
  rw [if_neg fun h => hex (exited_atomic.mp h)]
  obtain ⟨r, hstep, rfl⟩ := Option.map_eq_some_iff.mp hb
  have hstep' : hartStep p h stray (s.atomic.harts.pc h) s.atomic.harts.mem = some r := by
    show hartStep p h stray (s.pc h) s.base.harts.mem = some r
    rw [pc_of_none hcall]
    exact hstep
  dsimp only
  rw [hstep', Option.map_some]
  unfold atomic
  rw [pc_outside rfl hcall]
  rfl

/-- **The store of a call** is the atomic call. -/
theorem atomic_store {h : Hart} {site : SemSite} {trace : List MemAccess} {core : Core}
    {a v : Word32} (hex : ¬ s.base.harts.Exited) (hlt : ∀ w, s.base.harts.mem.word w < 2 ^ 32)
    (hsite : s.site h = some site) (hcall : (s.asm h).call = some trace)
    (heffect : Sw.Effect site.op (m.addr site.word) (s.base.harts.mem.ram m.addr) trace
      (some (.store a v))) :
    s.atomic.next p (.hart h 0) =
      some (s.take m h site trace (core, some (.store a v))).atomic := by
  obtain ⟨rfl, rfl, h0, hs⟩ := heffect
  have hword : (s.base.harts.mem.ram m.addr (m.addr site.word)).toNat =
      s.base.harts.mem.word site.word := by
    rw [ram_addr m.injective, BitVec.toNat_ofNat, Nat.mod_eq_of_lt (hlt site.word)]
  have hatomic := atomic_apply site.op h0
  rw [hword] at hatomic
  have hstep : hartStep p h 0 (s.atomic.harts.pc h) s.atomic.harts.mem =
      some (site.resume, s.base.harts.mem.setWord site.word
        (site.op.apply (s.base.harts.mem.ram m.addr (m.addr site.word))).toNat, site.events) := by
    show hartStep p h 0 (s.pc h) s.base.harts.mem = _
    rw [pc_of_due hcall hs, hartStep_site hsite, hatomic]
    rfl
  have hpc := pc_take_stored (m := m) (r := (core, some (.store (m.addr site.word)
      (site.op.apply (s.base.harts.mem.ram m.addr (m.addr site.word)))))) hsite (by
    show storesOf (trace ++ [.store _ _]) ≠ []
    rw [storesOf_store]
    exact List.append_ne_nil_of_right_ne_nil _ (List.cons_ne_nil _ _))
  unfold Platform.next
  rw [if_neg fun h => hex (exited_atomic.mp h)]
  dsimp only
  rw [hstep, Option.map_some, dmaLog_events]
  unfold atomic
  rw [hpc]
  dsimp only [take, Platform.withPc]
  rw [writeAt_addr m.injective]
  rfl

/-- A device's step is that step of the platform with atomic semaphores. -/
theorem atomic_device {a : PlatformAct} {b : Platform} (ha : ∀ h stray, a ≠ .hart h stray)
    (hb : s.base.next p a = some b) : s.atomic.next p a = some (atomic ⟨b, s.asm⟩) := by
  obtain ⟨hpcs, -⟩ := (Platform.next_effect hb).device ha
  have hpc : pc ⟨b, s.asm⟩ = s.pc := by
    funext h
    simp only [pc, site, hpcs]
  rw [atomic, next_withPc ha exited_atomic, hb, Option.map_some, atomic, hpc]

/-- An instruction that stores nothing is not seen. -/
theorem atomic_take {h : Hart} {site : SemSite} {trace : List MemAccess}
    {r : Core × Option MemAccess} (hsite : s.site h = some site)
    (hcall : (s.asm h).call = some trace) (hs : storesOf r.2.toList = []) :
    (s.take m h site trace r).atomic = s.atomic := by
  have hkept : storesOf (trace ++ r.2.toList) = storesOf trace := by
    rw [storesOf_append, hs, List.append_nil]
  rw [atomic, pc_take_quiet hsite hcall hkept]
  obtain ⟨core, acc⟩ := r
  match acc with
  | none | some (.load _ _) =>
    simp [take, atomic, Platform.withPc, Memory.writeAt, SemSite.noticed]
  | some (.store _ _) => cases hs

end AsmPlatform

/-- A call that has come to its end has stored. -/
theorem InBlock.stored {site : SemSite} {mem : Memory} {core : Core} {trace : List MemAccess}
    (hi : InBlock m site mem core trace) (hend : core.pc = (m.asm site.op).length) :
    site.op.phase core.pc = .done ∧ (storesOf trace).length = 1 := by
  have hdone : site.op.phase core.pc = .done := by
    rw [hend]
    unfold Image.asm
    cases site.op <;> rfl
  have hknows := hi.inCall.knows
  rw [hdone] at hknows
  obtain ⟨v, -, -, hs⟩ := hknows
  exact ⟨hdone, by rw [hs]; rfl⟩

/-- **One step**: a step of a call that nobody sees, or a step of the platform with atomic
semaphores. -/
theorem AsmEffect.step (hi : s.Inv m) (hlt : ∀ w, s.base.harts.mem.word w < 2 ^ 32)
    (hex : ¬ s.base.harts.Exited) (he : AsmEffect m p s a s') :
    (s'.atomic = s.atomic ∧
      s'.rank m + 1 ≤ s.rank m + 2 * (s.spins m a).toNat + 5 * (s.spurious m a).toNat) ∨
    ∃ b, (AsmPrompt s a → Prompt s.atomic b) ∧ s.atomic.next p b = some s'.atomic := by
  cases he with
  | @hart h stray b hsite hb =>
    have hcall : (s.asm h).call = none := by
      refine Option.eq_none_iff_forall_ne_some.mpr fun trace htrace => ?_
      obtain ⟨site, hsite', -⟩ := hi h trace htrace
      cases hsite.symm.trans hsite'
    exact Or.inr ⟨.hart h stray, id, AsmPlatform.atomic_hart hex hcall hb⟩
  | @device a b ha hb =>
    refine Or.inr ⟨a, ?_, AsmPlatform.atomic_device ha hb⟩
    cases a with
    | hart h stray => exact absurd rfl (ha h stray)
    | _ => exact id
  | @enter h regs site hsite hcall =>
    refine Or.inl ⟨?_, ?_⟩
    · unfold AsmPlatform.atomic
      rw [AsmPlatform.pc_others fun _ _ => rfl]
      have hpc : ∀ core : Core, AsmPlatform.pc ⟨s.base, s.others h ⟨core, some []⟩ none⟩ h =
          s.pc h := by
        intro core
        have hin : (s.others h ⟨core, some []⟩ none h).call = some [] := by
          rw [AsmPlatform.others, Function.update_self]
        rw [AsmPlatform.pc_of_due hin storesOf_nil, AsmPlatform.pc_of_none hcall]
      rw [hpc, Function.update_eq_self]
    · refine AsmPlatform.rank_others rfl (fun _ _ => rfl) (fun _ => rfl) ?_
      show AsmHart.rank m (s.site h) _ + 1 ≤ _
      rw [AsmHart.rank_outside hcall, hsite, if_neg (by simp), AsmHart.rank_of_call rfl]
      simp only [SemCall.rank, phase_zero, storesOf_nil, List.length_nil]
      omega
  | @instr h fails site trace r hsite hcall hstep =>
    obtain ⟨site', hsite', hin⟩ := hi h trace hcall
    cases hsite.symm.trans hsite'
    obtain ⟨core', acc⟩ := r
    have hpays : (m.call site.op).Pays (m.addr site.word) (s.base.harts.mem.ram m.addr) fails
        (s.asm h).core core' acc := SemCall.pays hin.inCall hstep
    cases hpays with
    | store hlost hdown =>
      refine Or.inr ⟨.hart h 0, id, AsmPlatform.atomic_store hex hlt hsite hcall ?_⟩
      exact (hin.inCall.own (m.distinct site.op) hstep).2
    | quiet hobserve hstores hdown =>
      refine Or.inl ⟨AsmPlatform.atomic_take hsite hcall hstores, ?_⟩
      refine AsmPlatform.rank_others rfl (fun _ _ => rfl)
        (fun u => by rw [AsmHart.observe, hobserve]) ?_
      show AsmHart.rank m (s.site h) _ + 1 ≤ _
      rw [hsite, AsmHart.rank_of_call hcall, AsmHart.rank_of_call rfl, storesOf_append, hstores,
        List.append_nil]
      simp only [AsmPlatform.spins, AsmPlatform.spurious, hsite, Option.any_some]
      omega
  | @ret h site trace hsite hcall hend =>
    obtain ⟨site', hsite', hin⟩ := hi h trace hcall
    cases hsite.symm.trans hsite'
    obtain ⟨hdone, hone⟩ := hin.stored hend
    have hne : storesOf trace ≠ [] := by
      rw [← List.length_pos_iff, hone]
      exact Nat.one_pos
    refine Or.inl ⟨?_, ?_⟩
    · unfold AsmPlatform.atomic
      rw [AsmPlatform.pc_outside rfl rfl, ← AsmPlatform.pc_of_stored hcall hne hsite,
        Function.update_eq_self]
      rfl
    · refine AsmPlatform.rank_others rfl (fun u hu => ?_) (fun _ => rfl) ?_
      · unfold AsmPlatform.site
        dsimp only
        rw [Function.update_of_ne hu]
      · rw [AsmHart.rank_outside rfl, hsite, AsmHart.rank_of_call hcall, hone]
        have hrank : (m.call site.op).rank (m.addr site.word) (s.asm h).core = 1 := by
          unfold SemCall.rank Image.call
          rw [hdone]
        rw [hrank]
        split <;> omega

theorem asm_word_lt {ok : Platform → PlatformAct → Prop}
    (h : (platform p caps input).ReachBy ok s.atomic) :
    ∀ w, s.base.harts.mem.word w < 2 ^ 32 := by
  have hlt := harts_word_lt (platform_harts h)
  exact hlt

/-- **The `asm` blocks implement atomic semaphores**: a state of the harts that wait for the DMA is
one of the platform with atomic semaphores, whatever the order of instructions, whichever `sc.w`
fail. -/
theorem asm_simulates {ok : AsmPlatform → AsmAct → Prop} (hok : ∀ s a, ok s a → AsmPrompt s a)
    (hs : (asmPlatform m p caps input).ReachBy ok s) :
    (platform p caps input).ReachBy Prompt s.atomic := by
  refine hs.simulate AsmPlatform.atomic ?_ ?_
  · rintro s ⟨hinit, hcall⟩
    have hpc : s.pc = s.base.harts.pc := funext fun h => AsmPlatform.pc_of_none (hcall h)
    rw [AsmPlatform.atomic, hpc]
    exact hinit
  · intro s a s' hs ih hprompt hn
    obtain ⟨hex, he⟩ := asm_effect hn
    rcases he.step (asm_inv hs) (asm_word_lt ih) hex with ⟨hsame, -⟩ | ⟨b, hb, hnext⟩
    · exact Or.inl hsame
    · exact Or.inr ⟨b, hb (hok s a hprompt), hnext⟩

/-! ## The platform comes to an end -/

/-- Harts that wait for the DMA, no going around a zero count and no spurious failure. -/
def Steady (m : Image) (s : AsmPlatform) (a : AsmAct) : Prop :=
  AsmPrompt s a ∧ s.spins m a = false ∧ s.spurious m a = false

/-- What takes a step. -/
inductive AsmComponent where
  | base (c : Component)
  | enter (h : Hart)
  | instr (h : Hart)
  | ret (h : Hart)

def AsmAct.component : AsmAct → AsmComponent
  | .base a => .base a.component
  | .enter h _ => .enter h
  | .instr h _ => .instr h
  | .ret h => .ret h

/-- A component can go on, whatever it finds, whether its `sc.w` fails or not, and it does not go
around a zero count. -/
def AsmPlatform.CanStep (m : Image) (p : Program) (s : AsmPlatform) : Prop :=
  ∃ c, ∀ a, AsmAct.component a = c →
    AsmPrompt s a ∧ s.spins m a = false ∧ (s.next m p a).isSome

/-- What goes down: the platform with atomic semaphores, then the calls. -/
def AsmPlatform.Down (m : Image) (p : Program) (s' s : AsmPlatform) : Prop :=
  Prod.Lex (Platform.Down p) (· < ·) (s'.atomic, s'.rank m) (s.atomic, s.rank m)

theorem AsmPlatform.down_wf (m : Image) (p : Program) : WellFounded (AsmPlatform.Down m p) :=
  InvImage.wf (fun s : AsmPlatform => (s.atomic, s.rank m))
    (WellFounded.prod_lex (Platform.down_wf p) Nat.lt_wfRel.wf)

/-- **Every steady step goes down**, whatever the steps before it. -/
theorem asm_down (hs : (asmPlatform m p caps input).ReachBy AsmPrompt s) (hok : Steady m s a)
    (hn : (asmPlatform m p caps input).next s a = some s') : AsmPlatform.Down m p s' s := by
  have hatomic := asm_simulates (fun _ _ h => h) hs
  obtain ⟨hex, he⟩ := asm_effect hn
  rcases he.step (asm_inv hs) (asm_word_lt hatomic) hex with ⟨hsame, hrank⟩ | ⟨b, -, hnext⟩
  · rw [hok.2.1, hok.2.2, Bool.toNat_false] at hrank
    unfold AsmPlatform.Down
    rw [hsame]
    exact Prod.Lex.right _ (by omega)
  · exact Prod.Lex.left _ _ (platform_down hatomic hnext)

/-- Before `SYS_EXIT` a step of the atomic platform is one of the platform. -/
theorem AsmPlatform.next_base {h : Hart} {stray : UInt8} (hex : ¬ s.base.harts.Exited)
    (hpc : s.pc h = s.base.harts.pc h) :
    (s.base.next p (.hart h stray)).isSome = (s.atomic.next p (.hart h stray)).isSome := by
  unfold Platform.next
  rw [if_neg hex, if_neg fun h => hex (exited_atomic.mp h), Option.isSome_map, Option.isSome_map]
  show _ = (hartStep p h stray (s.pc h) s.base.harts.mem).isSome
  rw [hpc]

/-- A hart that can go on with atomic semaphores does not go around. -/
theorem AsmPlatform.not_spinning {h : Hart} {site : SemSite} {trace : List MemAccess}
    (hlt : ∀ w, s.base.harts.mem.word w < 2 ^ 32) (hex : ¬ s.base.harts.Exited)
    (hsite : s.site h = some site) (hcall : (s.asm h).call = some trace)
    (hin : InBlock m site s.base.harts.mem (s.asm h).core trace)
    (hstep : (s.atomic.next p (.hart h 0)).isSome) (fails : Bool) :
    s.spins m (.instr h fails) = false := by
  by_contra hspins
  rw [Bool.not_eq_false, spins, hsite, Option.any_some] at hspins
  obtain ⟨hop, hdue, hzero⟩ := SemCall.spinning hin.inCall hspins
  rw [← next_base hex (pc_of_due hcall hdue)] at hstep
  unfold Platform.next at hstep
  rw [if_neg hex, Option.isSome_map, hartStep_site hsite] at hstep
  have hword : s.base.harts.mem.word site.word = 0 := by
    rw [ram_addr m.injective] at hzero
    have htoNat := congrArg BitVec.toNat hzero
    rw [BitVec.toNat_ofNat, Nat.mod_eq_of_lt (hlt site.word)] at htoNat
    exact htoNat
  have hop : site.op = .wait := hop
  rw [hword, hop] at hstep
  cases hstep

/-- A hart that can go on with atomic semaphores can go on. -/
theorem AsmPlatform.canStep_hart {h : Hart} (hi : s.Inv m)
    (hlt : ∀ w, s.base.harts.mem.word w < 2 ^ 32) (hex : ¬ s.base.harts.Exited)
    (hprompt : Prompt s.base (.hart h 0))
    (hc : ∀ stray, (s.atomic.next p (.hart h stray)).isSome) : s.CanStep m p := by
  cases hcall : (s.asm h).call with
  | none =>
    cases hsite : s.site h with
    | none =>
      refine ⟨.base (.hart h), fun a ha => ?_⟩
      cases a with
      | base a =>
        cases a with
        | hart g stray =>
          cases ha
          refine ⟨hprompt, rfl, ?_⟩
          rw [next, if_pos hsite, Option.isSome_map, next_base hex (pc_of_none hcall)]
          exact hc stray
        | _ => cases ha
      | _ => cases ha
    | some site =>
      refine ⟨.enter h, fun a ha => ?_⟩
      cases a with
      | enter g regs =>
        cases ha
        refine ⟨hprompt, rfl, ?_⟩
        rw [next, if_neg (by simp [hex, hcall]), hsite]
        rfl
      | _ => cases ha
  | some trace =>
    obtain ⟨site, hsite, hin⟩ := hi h trace hcall
    by_cases hend : (s.asm h).core.pc = (m.asm site.op).length
    · refine ⟨.ret h, fun a ha => ?_⟩
      cases a with
      | ret g =>
        cases ha
        refine ⟨hprompt, rfl, ?_⟩
        rw [next, if_neg (by simp [hex, hcall]), hsite, Option.bind_some, if_pos hend]
        rfl
      | _ => cases ha
    · refine ⟨.instr h, fun a ha => ?_⟩
      cases a with
      | instr g fails =>
        cases ha
        refine ⟨hprompt, not_spinning hlt hex hsite hcall hin (hc 0) fails, ?_⟩
        obtain ⟨r, hr⟩ := (m.call site.op).step_isSome fails (s.base.harts.mem.ram m.addr)
          (m.aligned site.word) hin.inCall.addr (lt_of_le_of_ne hin.inside hend)
        rw [next, if_neg hex, hsite, Option.bind_some, hcall, Option.bind_some, Option.isSome_map]
        exact Option.isSome_iff_exists.mpr ⟨r, hr⟩
      | _ => cases ha

/-- **No deadlock**: until `SYS_EXIT` some component can go on without going around. -/
theorem asm_progress (hpos : ∀ c ∈ caps, 0 < c)
    (hs : (asmPlatform m p caps input).ReachBy AsmPrompt s) (hex : ¬ s.base.harts.Exited) :
    s.CanStep m p := by
  have hatomic := asm_simulates (fun _ _ h => h) hs
  have hex' : ¬ s.atomic.harts.Exited := fun h => hex (AsmPlatform.exited_atomic.mp h)
  obtain ⟨c, hc⟩ := platform_progress hpos hatomic hex'
  by_cases hhart : ∃ h, c = .hart h
  · obtain ⟨h, rfl⟩ := hhart
    exact AsmPlatform.canStep_hart (asm_inv hs) (asm_word_lt hatomic) hex (hc (.hart h 0) rfl).1
      fun stray => (hc (.hart h stray) rfl).2
  · refine ⟨.base c, fun a ha => ?_⟩
    cases a with
    | base a =>
      cases ha
      have hdevice : ∀ h stray, a ≠ .hart h stray := by
        rintro h stray rfl
        exact hhart ⟨h, rfl⟩
      obtain ⟨hprompt, hstep⟩ := hc a rfl
      rw [AsmPlatform.atomic, next_withPc hdevice AsmPlatform.exited_atomic, Option.isSome_map]
        at hstep
      cases a with
      | hart h stray => exact absurd rfl (hdevice h stray)
      | _ =>
        refine ⟨hprompt, rfl, ?_⟩
        show Option.isSome (Option.map _ _) = true
        rw [Option.isSome_map]
        exact hstep
    | _ => cases ha

/-- **A run without end** goes around a zero count, or fails spuriously, beyond every point. -/
theorem asm_recurs {run : Nat → AsmPlatform}
    (h : (asmPlatform m p caps input).Endless AsmPrompt run) (n : Nat) :
    ∃ k, n ≤ k ∧ ∀ a, AsmPrompt (run k) a → (run k).next m p a = some (run (k + 1)) →
      (run k).spins m a = true ∨ (run k).spurious m a = true := by
  have hdown : ∀ s a s', (asmPlatform m p caps input).ReachBy AsmPrompt s → AsmPrompt s a →
      (asmPlatform m p caps input).next s a = some s' →
        (s.spins m a = true ∨ s.spurious m a = true) ∨ AsmPlatform.Down m p s' s := by
    intro s a s' hs hprompt hn
    by_cases hbad : s.spins m a = true ∨ s.spurious m a = true
    · exact Or.inl hbad
    · simp only [not_or, Bool.not_eq_true] at hbad
      exact Or.inr (asm_down hs ⟨hprompt, hbad⟩ hn)
  exact h.recurs (AsmPlatform.down_wf m p) hdown n

/-- **Total correctness of the sort with the semaphores instruction by instruction**, for every
choice of compiler and linker that keeps `__sem` in its register: a run that goes on for ever goes
around zero counts or fails spuriously again and again, and no run can come to a stop, or be left
with going around, before `SYS_EXIT`, with the ascending rearrangement of `in` in `result`. -/
theorem asm_sort_completes (m : Image) (p : Program) (caps : List Nat) (hpos : ∀ c ∈ caps, 0 < c)
    (input : List UInt8) :
    (∀ run, (asmPlatform m p caps input).Endless AsmPrompt run → ∀ n, ∃ k, n ≤ k ∧
      ∀ a, AsmPrompt (run k) a → (run k).next m p a = some (run (k + 1)) →
        (run k).spins m a = true ∨ (run k).spurious m a = true) ∧
    ∀ s, (asmPlatform m p caps input).ReachBy AsmPrompt s → s.CanStep m p ∨
      (s.base.harts.Exited ∧ (s.base.harts.mem.arr .result).Pairwise (· ≤ ·) ∧
        (s.base.harts.mem.arr .result).Perm input) := by
  refine ⟨fun run h => asm_recurs h, fun s hs => ?_⟩
  by_cases hex : s.base.harts.Exited
  · have hatomic := asm_simulates (fun _ _ h => h) hs
    have hsorted := exited_sorted hatomic (AsmPlatform.exited_atomic.mpr hex)
    exact Or.inr ⟨hex, hsorted⟩
  · exact Or.inl (asm_progress hpos hs hex)

/-! ### A run -/

/-- The words of `main` from 0x1000 on. -/
def someAddr : Word → Word32
  | .barrier_counter => 0x1000
  | .barrier_lock => 0x1004
  | .barrier_sem => 0x1008
  | .DMA_flag .hart0 => 0x100c
  | .DMA_flag .hart1 => 0x1010
  | .lock => 0x1014
  | .print_flag .hart0 => 0x1018
  | .print_flag .hart1 => 0x101c
  | .exit_counter => 0x1020

theorem someAddr_injective : someAddr.Injective := by
  have hfind : ∀ w, (words.find? fun w' => someAddr w' = someAddr w) = some w := by
    intro w
    cases w with
    | DMA_flag h | print_flag h => cases h <;> decide
    | _ => decide
  intro w w' heq
  have hw := hfind w
  rw [heq, hfind w'] at hw
  exact (Option.some.inj hw).symm

/-- `value`, `success` and `__sem` in `a5`, `a4` and `a3`. -/
def someImage : Image where
  operands _ := distinctOperands
  addr := someAddr
  distinct _ := distinctOperands_distinct
  injective := someAddr_injective
  aligned w := by
    cases w with
    | DMA_flag h | print_flag h => cases h <;> decide
    | _ => decide

/-- A step of a component, with zeros for what it finds outside, whose `sc.w` does not fail. -/
def AsmComponent.act : AsmComponent → AsmAct
  | .base c => .base c.act
  | .enter h => .enter h fun _ => 0
  | .instr h => .instr h false
  | .ret h => .ret h

/-- With FIFOs of a single byte some run of `main.cpp` gets to its end. -/
theorem asm_sort_completes_single : ∃ s,
    (asmPlatform someImage .main [1, 1, 1, 1, 1] (Platform.resetInput .main)).ReachBy
        (Steady someImage) s ∧
      s.base.harts.Exited ∧ (s.base.harts.mem.arr .result).Pairwise (· ≤ ·) := by
  have hinit : (asmPlatform someImage .main [1, 1, 1, 1, 1] (Platform.resetInput .main)).init
      ⟨{ Platform.reset .main with pes := fun _ => Vp.Traffic.boot 1 },
        fun _ => ⟨⟨0, fun _ => 0, none⟩, none⟩⟩ :=
    ⟨⟨(Platform.reset_init .main).1, rfl, rfl,
      fun _ => ⟨Vp.Pe.boot_fresh 1, rfl, rfl, rfl, rfl, rfl⟩, rfl⟩, fun _ => rfl⟩
  have hall := (asm_sort_completes someImage .main [1, 1, 1, 1, 1] (by decide)
    (Platform.resetInput .main)).2
  refine (Machine.ReachBy.init hinit).complete (AsmPlatform.down_wf someImage .main)
    fun s hs hend => ?_
  have hprompts := hs.mono fun _ _ _ h => h.1
  rcases hall s hprompts with ⟨c, hc⟩ | ⟨hex, hsorted, -⟩
  · obtain ⟨hprompt, hspins, hsome⟩ := hc c.act (by
      cases c with
      | base c => cases c <;> rfl
      | _ => rfl)
    obtain ⟨s', hn⟩ := Option.isSome_iff_exists.mp hsome
    have hspurious : s.spurious someImage c.act = false := by
      cases c with
      | instr h =>
        cases hsite : s.site h <;>
          simp [AsmComponent.act, AsmPlatform.spurious, hsite, SemCall.spurious]
      | _ => rfl
    have hok : Steady someImage s c.act := ⟨hprompt, hspins, hspurious⟩
    exact ⟨c.act, s', hok, hn, asm_down hprompts hok hn⟩
  · exact absurd ⟨hex, hsorted⟩ hend

end SortPlatform

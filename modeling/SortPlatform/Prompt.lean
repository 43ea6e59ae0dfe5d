import SortPlatform.Platform

/-!
# Harts that wait for the DMA

`Prompt` is the assumption that a request completes before the next instruction of the hart that
made it. The hand-over then keeps the other hart off the DMA as well.

Principal results:

* `prompt_noClobber` — such a run clobbers no request.
* `prompt_running` — while the DMA works, it works on the last call, and the hart of that call is
  still in its phase.
-/

set_option autoImplicit false

namespace SortPlatform

open Sw Vp

/-- **A hart waits for its last request.** -/
def Prompt (s : Platform) : PlatformAct → Prop
  | .hart h _ => ∀ c, s.calls.getLast? = some c → c.hart = h → s.dma.Idle
  | _ => True

instance (s : Platform) : ∀ a, Decidable (Prompt s a)
  | .hart h _ => inferInstanceAs (Decidable (∀ c, s.calls.getLast? = some c → c.hart = h → _))
  | .fire | .dma _ _ | .pe _ _ => inferInstanceAs (Decidable True)

namespace Platform

/-- The calls that are not outstanding. -/
def served (s : Platform) : List Call := if s.dma.Idle then s.calls else s.calls.dropLast

/-- A request is outstanding only while its hart is in its phase. -/
structure Prompted (s : Platform) : Prop where
  busy : ¬ s.dma.Idle →
    ∃ c ph k, s.calls.getLast? = some c ∧ s.harts.pc c.hart = .transfer ph k
  notified : s.dma.notified = true → s.dma.pc = .waiting

end Platform

variable {p : Program} {caps : List Nat} {input : List UInt8} {s s' : Platform} {h : Hart}

theorem Platform.served_of_idle (h : s.dma.Idle) : s.served = s.calls := if_pos h

theorem Platform.served_of_not_idle (h : ¬ s.dma.Idle) : s.served = s.calls.dropLast := if_neg h

/-- While a request is outstanding, no call is added to those served. -/
theorem Platform.served_congr (h : ¬ s.dma.Idle) (h' : ¬ s'.dma.Idle) (hcalls : s'.calls = s.calls) :
    s'.served = s.served := by
  rw [served_of_not_idle h, served_of_not_idle h', hcalls]

theorem not_idle_of_pc {d : SimpleDMA} (hpc : d.pc ≠ .waiting) : ¬ d.Idle := fun h => hpc h.1

theorem not_idle_of_notified {d : SimpleDMA} (hnot : d.notified = true) : ¬ d.Idle :=
  fun h => Bool.noConfusion (h.2.symm.trans hnot)

/-- At most one hart is in a phase. -/
theorem transfer_exclusive {s : Harts} (hi : s.Inv p) {ph ph' : Phase} {k k' : Nat}
    (hh : s.pc h = .transfer ph k) : s.pc h.other ≠ .transfer ph' k' := by
  intro ho
  obtain ⟨h1, h2, h3⟩ := hi.stages
  have hs : ∀ (ph : Phase) (k : Nat), (HartPc.transfer ph k).stage = ph.stage := by
    intro ph k
    cases ph <;> rfl
  have hstage := congrArg HartPc.stage hh
  have hstage' := congrArg HartPc.stage ho
  rw [hs] at hstage hstage'
  cases h <;> cases ph <;> cases ph' <;>
    simp only [Hart.other, Phase.stage] at hstage hstage' <;> omega

/-- A hart stores the parameters of its own calls. -/
theorem hart_of_stores (p : Program) (ph : Phase) (h : Hart) :
    ∀ x ∈ stores (p.transfers ph h), x.1.hart = h := by
  cases p <;> cases ph <;> cases h <;> decide

/-- **The DMA is idle when a hart stores to it.** -/
theorem Platform.Prompted.idle (hp : s.Prompted) (hi : s.harts.Inv p) {stray : UInt8}
    (hok : Prompt s (.hart h stray)) {ph : Phase} {k : Nat}
    (hpc : s.harts.pc h = .transfer ph k) : s.dma.Idle := by
  by_contra hne
  obtain ⟨c, ph', k', hlast, hc⟩ := hp.busy hne
  by_cases hch : c.hart = h
  · exact hne (hok c hlast hch)
  · rw [Hart.eq_other_of_ne hch] at hc
    exact transfer_exclusive hi hpc hc


theorem Platform.Prompted.hart (hp : s.Prompted) (hi : s.harts.Inv p) {stray : UInt8}
    (hok : Prompt s (.hart h stray)) {pc' : HartPc} {mem' : Memory} {ev : List Event}
    (hs : hartStep p h stray (s.harts.pc h) s.harts.mem = some (pc', mem', ev)) :
    Platform.Prompted
      { s with
        harts := ⟨Function.update s.harts.pc h pc', mem', s.harts.trace ++ ev⟩
        dma := storeAll s.dma (dmaLog ev) } := by
  rcases (hartStep_move hs).made with ⟨hnil, -⟩ | ⟨ph, k, ⟨c, r⟩, hpc, hk, hx, -, -⟩
  · rw [hnil]
    refine ⟨fun hne => ?_, hp.notified⟩
    obtain ⟨c, ph, k, hlast, hc⟩ := hp.busy hne
    have hch : c.hart ≠ h := fun hch => hne (hok c hlast hch)
    refine ⟨c, ph, k, ?_, ?_⟩
    · show (completed (dmaLog (s.harts.trace ++ ev))).getLast? = some c
      rw [calls_append, hnil, completed, completed, List.filterMap_nil, List.append_nil]
      exact hlast
    · show Function.update s.harts.pc h pc' c.hart = _
      rw [Function.update_of_ne hch]
      exact hc
  · obtain ⟨hwait, hnot⟩ := hp.idle hi hok hpc
    have hhart : c.hart = h := hart_of_stores p ph h (c, r) (List.mem_of_getElem? hk)
    rw [hpc] at hs
    obtain ⟨rfl, -, -⟩ := hartStep_transfer hk hs
    rw [hx]
    by_cases hr : r = .op
    · subst hr
      refine ⟨fun _ => ⟨c, ph, k + 1, ?_, ?_⟩, fun _ => hwait⟩
      · show (completed (dmaLog (s.harts.trace ++ ev))).getLast? = some c
        rw [calls_append, hx]
        exact List.getLast?_concat
      · show Function.update s.harts.pc h _ c.hart = _
        rw [hhart, Function.update_self]
    · have hnot' : (s.dma.transport c r).notified = false := by
        rw [SimpleDMA.transport_notified _ _ hr, hnot]
      have hwait' : (s.dma.transport c r).pc = .waiting := by
        rw [SimpleDMA.transport_pc, hwait]
      exact ⟨fun hne => absurd ⟨hwait', hnot'⟩ hne, fun _ => hwait'⟩

/-- **What a step of a hart does to the requests**: nothing, or it stores to an idle DMA. -/
theorem Platform.Prompted.store (hp : s.Prompted) (hi : s.harts.Inv p) {stray : UInt8}
    (hok : Prompt s (.hart h stray)) {pc' : HartPc} {mem' : Memory} {ev : List Event}
    (hs : hartStep p h stray (s.harts.pc h) s.harts.mem = some (pc', mem', ev))
    (hs' : s' = { s with
      harts := ⟨Function.update s.harts.pc h pc', mem', s.harts.trace ++ ev⟩
      dma := storeAll s.dma (dmaLog ev) }) :
    (s'.dma = s.dma ∧ s'.calls = s.calls) ∨
      (s.dma.pc = .waiting ∧ s'.dma.pc = .waiting ∧ s'.served = s.served) := by
  have hcalls : s'.calls = s.calls ++ completed (dmaLog ev) := by
    rw [hs']
    exact calls_append s.harts.trace ev
  have hdma : s'.dma = storeAll s.dma (dmaLog ev) := by rw [hs']
  rcases (hartStep_move hs).made with ⟨hnil, -⟩ | ⟨ph, k, ⟨c, r⟩, hpc, hk, hx, -, -⟩
  · rw [hnil] at hcalls hdma
    exact Or.inl ⟨hdma, hcalls.trans (List.append_nil _)⟩
  · have hidle := hp.idle hi hok hpc
    rw [hx] at hcalls hdma
    have hwait : s'.dma.pc = .waiting := by
      rw [hdma]
      exact (SimpleDMA.transport_pc _ _ _).trans hidle.1
    refine Or.inr ⟨hidle.1, hwait, ?_⟩
    rw [served_of_idle hidle]
    by_cases hr : r = .op
    · subst hr
      have hne : ¬ s'.dma.Idle := by
        rw [hdma]
        exact fun h => Bool.noConfusion h.2
      rw [served_of_not_idle hne, hcalls]
      exact List.dropLast_concat
    · have hidle' : s'.dma.Idle := by
        refine ⟨hwait, ?_⟩
        rw [hdma]
        exact (SimpleDMA.transport_notified _ _ hr).trans hidle.2
      rw [served_of_idle hidle', hcalls]
      simp [completed, hr]

/-- Steps of the DMA that is at work leave the last call outstanding. -/
theorem Platform.Prompted.dma (hp : s.Prompted) (hpc : s.dma.pc ≠ .waiting)
    (hcalls : s'.calls = s.calls) (hharts : s'.harts.pc = s.harts.pc)
    (hnot : s'.dma.notified = s.dma.notified) : s'.Prompted := by
  have hnot0 : s.dma.notified ≠ true := fun h => hpc (hp.notified h)
  refine ⟨fun _ => ?_, fun h => absurd (hnot ▸ h) hnot0⟩
  rw [hcalls, hharts]
  exact hp.busy fun h => hpc h.1

/-- **Only the last call is ever outstanding.** -/
theorem prompted (h : (platform p caps input).ReachBy Prompt s) : s.Prompted := by
  induction h with
  | init h0 =>
    obtain ⟨-, -, hd, -, -⟩ := h0
    refine ⟨fun hne => absurd ?_ hne, fun _ => ?_⟩
    · rw [hd]
      exact ⟨rfl, rfl⟩
    · rw [hd]
      rfl
  | @step s s' a hs hok hn ih =>
    have hi := harts_inv (platform_harts hs)
    cases (platform_effect hn).2 with
    | hart hstep => exact ih.hart hi hok hstep
    | fire hf =>
      obtain ⟨hnot, hnot', -, -⟩ := SimpleDMA.fire_eq_some hf
      refine ⟨fun _ => ih.busy fun hidle => ?_, fun h => ?_⟩
      · rw [hidle.2] at hnot
        cases hnot
      · cases hnot'.symm.trans h
    | run hpc hr =>
      exact ih.dma (by simp [hpc]) rfl rfl (SimpleDMA.notified_run hr)
    | readRam hpc _ hr => exact ih.dma (by simp [hpc]) rfl rfl (SimpleDMA.notified_readDone hr)
    | readPe hpc _ _ _ hd => exact ih.dma (by simp [hpc]) rfl rfl (SimpleDMA.notified_readDone hd)
    | writeRam hpc _ hd => exact ih.dma (by simp [hpc]) rfl rfl (SimpleDMA.notified_writeDone hd)
    | writePe hpc _ _ hd => exact ih.dma (by simp [hpc]) rfl rfl (SimpleDMA.notified_writeDone hd)
    | beginRead | readByte | beginWrite | writeByte | thread => exact ⟨ih.busy, ih.notified⟩

/-- **Harts that wait clobber no request.** -/
theorem prompt_noClobber (h : (platform p caps input).ReachBy Prompt s) :
    (platform p caps input).ReachBy (NoClobber p) s := by
  refine h.mono fun s a hs hok => ?_
  have hp := prompted hs
  cases a with
  | hart h stray =>
    intro x hx
    unfold nextStore at hx
    split at hx
    · rename_i hpc
      exact (hp.idle (harts_inv (platform_harts hs)) hok hpc).admits x.1 x.2
    · cases hx
  | fire => exact hp.notified
  | dma junk stray => trivial
  | pe i w => trivial

/-- **While the DMA works**, it works on the last call, with its parameters. -/
theorem prompt_running (h : (platform p caps input).ReachBy Prompt s)
    (hpc : s.dma.pc ≠ .waiting) : ∃ c, s.calls = s.served ++ [c] ∧ s.dma.Running c ∧
      s.dma.notified = false ∧ ∃ ph k, s.harts.pc c.hart = .transfer ph k := by
  have hp := prompted h
  have hidle : ¬ s.dma.Idle := fun hidle => hpc hidle.1
  have hnot : s.dma.notified = false := by
    cases hnot : s.dma.notified with
    | false => rfl
    | true => exact absurd (hp.notified hnot) hpc
  obtain ⟨served, running, pending, hv⟩ := platform_serving (prompt_noClobber h)
  obtain ⟨c, rfl, hrun⟩ := hv.running_of_pc hpc
  have hnone : pending = none := by
    cases pending with
    | none => rfl
    | some c' => rw [(hv.pend_some c' rfl).1] at hnot; cases hnot
  have hcalls : s.calls = served ++ [c] := by
    rw [hv.calls_eq, hnone]
    rfl
  obtain ⟨c', ph, k, hlast, hc⟩ := hp.busy hidle
  rw [hcalls, List.getLast?_concat] at hlast
  cases hlast
  refine ⟨c, ?_, hrun, hnot, ph, k, hc⟩
  rw [Platform.served, if_neg hidle, hcalls, List.dropLast_concat]

/-! ## The calls served -/

theorem Platform.Prompted.served_hart (hp : s.Prompted) (hi : s.harts.Inv p) {stray : UInt8}
    (hok : Prompt s (.hart h stray)) {pc' : HartPc} {mem' : Memory} {ev : List Event}
    (hs : hartStep p h stray (s.harts.pc h) s.harts.mem = some (pc', mem', ev))
    (hs' : s' = { s with
      harts := ⟨Function.update s.harts.pc h pc', mem', s.harts.trace ++ ev⟩
      dma := storeAll s.dma (dmaLog ev) }) : s'.served = s.served := by
  rcases hp.store hi hok hs hs' with ⟨hdma, hcalls⟩ | ⟨-, -, hserved⟩
  · unfold served
    rw [hdma, hcalls]
  · exact hserved

theorem Platform.Prompted.served_fire (hp : s.Prompted) {d : SimpleDMA} (hf : s.dma.fire = some d) :
    d.pc = .dispatch ∧ Platform.served { s with dma := d } = s.served := by
  obtain ⟨hnot, -, hpc, -⟩ := SimpleDMA.fire_eq_some hf
  rw [if_pos (hp.notified hnot)] at hpc
  exact ⟨hpc, served_congr (not_idle_of_notified hnot) (not_idle_of_pc (by simp [hpc])) rfl⟩

theorem prompt_served_run (h : (platform p caps input).ReachBy Prompt s) {d : SimpleDMA}
    (hpc : s.dma.pc = .dispatch) (hr : s.dma.run = some d) :
    (∃ off n addr, d.pc = .read off n addr) ∧ (s.enter d).served = s.served := by
  obtain ⟨c, -, hrun, -⟩ := prompt_running h (by simp [hpc])
  unfold SimpleDMA.Running at hrun
  rw [hpc] at hrun
  rw [SimpleDMA.run_eq_some hrun.op hr]
  exact ⟨⟨_, _, _, rfl⟩, Platform.served_congr (not_idle_of_pc (by simp [hpc]))
    (not_idle_of_pc (by simp [Platform.enter, SimpleDMA._copy_block])) rfl⟩

theorem Platform.served_readDone {d : SimpleDMA} {off n : Nat} {addr : Loc}
    (hpc : s.dma.pc = .read off n addr) {bytes : List UInt8} (hr : s.dma.readDone bytes = some d) :
    (s.enter d).served = s.served := by
  obtain ⟨hpc', -⟩ := SimpleDMA.readDone_eq_some hpc hr
  exact served_congr (not_idle_of_pc (by simp [hpc])) (not_idle_of_pc (by simp [enter, hpc'])) rfl

end SortPlatform

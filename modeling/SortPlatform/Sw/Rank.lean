import SortPlatform.Sw.Alone

/-!
# A hart comes to the end

`HartPc.rank` goes down in the loops. Here it is extended to the whole of `main` and
`bootstrap.S`: the stages to come, then the steps left of a stage that is no loop, then `rank`.
A step that has to wait is not a step, so there is nothing a hart can do for ever.

Principal result: `hartStep_down` — every step of a hart goes down.
-/

set_option autoImplicit false

namespace SortPlatform.Sw

/-- The steps left of a call of `barrier`, with `last` posts to make by the last thread. -/
def BarrierPc.rank (last : Nat) : BarrierPc → Nat
  | .waitLock => last + 6
  | .test => last + 5
  | .reset => last + 3
  | .unlockLast => last + 2
  | .release j => 1 + (last - j)
  | .incr => 4
  | .incrStore _ => 3
  | .unlockFirst => 2
  | .waitSem => 1
  | .returned => 0

theorem barrier_down {n : Nat} {pc : BarrierPc} {w : BarrierWords} {r : BarrierPc × BarrierWords}
    (h : barrier n pc w = some r) : r.1.rank (lastArrival n) < pc.rank (lastArrival n) := by
  unfold barrier at h
  cases pc with
  | waitLock | waitSem =>
    obtain ⟨v, -, rfl⟩ := Option.map_eq_some_iff.mp h
    simp [BarrierPc.rank]
  | test =>
    cases h
    dsimp only
    split <;> simp [BarrierPc.rank]
  | release j =>
    dsimp only at h
    split at h <;> cases h <;> simp only [BarrierPc.rank] <;> omega
  | returned => cases h
  | _ =>
    cases h
    simp only [BarrierPc.rank]
    omega

/-! ## The loop over `W` -/

/-- The limits of the merge width. -/
def Width (p : Program) : HartPc → Prop
  | .passes W => 0 < W
  | .pairs W _ | .merge W _ _ | .copy W _ | .copyStore W _ _ => 0 < W ∧ W ≤ p.half
  | _ => True

section Step

variable {p : Program} {h : Hart} {stray : UInt8} {pc pc' : HartPc} {mem mem' : Memory}
  {ev : List Event}

theorem hartStep_width (hw : Width p pc) (hs : hartStep p h stray pc mem = some (pc', mem', ev)) :
    Width p pc' := by
  unfold hartStep at hs
  cases pc with
  | passes W =>
    cases hs
    split
    · exact ⟨hw, by assumption⟩
    · trivial
  | pairs W i =>
    cases hs
    split <;> exact hw
  | merge W i m =>
    dsimp only at hs
    split at hs
    · cases hs
      exact hw
    · obtain ⟨⟨m', r⟩, -, hs⟩ := Option.map_eq_some_iff.mp hs
      cases hs
      exact hw
  | copy W k =>
    dsimp only at hs
    split at hs <;> cases hs
    · exact hw
    · exact Nat.mul_pos hw.1 (by decide)
  | copyStore W k v =>
    obtain ⟨mem₁, -, hs⟩ := Option.map_eq_some_iff.mp hs
    cases hs
    exact hw
  | init k | transfer ph k | spin a0 =>
    dsimp only at hs
    split at hs <;> cases hs <;> trivial
  | wait ph =>
    obtain ⟨v, -, hs⟩ := Option.map_eq_some_iff.mp hs
    cases hs
    trivial
  | post ph =>
    cases hs
    cases ph
    · trivial
    · exact Nat.succ_pos 31
  | barrier b =>
    dsimp only at hs
    split at hs
    · cases hs
      cases h <;> trivial
    · obtain ⟨r, -, hs⟩ := Option.map_eq_some_iff.mp hs
      cases hs
      trivial
  | finals i =>
    cases hs
    split <;> trivial
  | final i m =>
    dsimp only at hs
    split at hs
    · cases hs
      trivial
    · obtain ⟨⟨m', r⟩, -, hs⟩ := Option.map_eq_some_iff.mp hs
      cases hs
      trivial
  | ret | amoadd | sysExit =>
    cases hs
    trivial
  | exited => cases hs

/-- The width is in its limits throughout. -/
theorem harts_width {s : Harts} {ok : Harts → HartsAct → Prop} (hs : (harts p).ReachBy ok s) :
    ∀ h, Width p (s.pc h) := by
  refine hs.invariant (motive := fun s => ∀ h, Width p (s.pc h)) ?_ ?_
  · rintro s ⟨hpc, -⟩ h
    rw [hpc]
    cases h <;> trivial
  · intro s a s' hw _ hn g
    cases a with
    | hart h stray =>
      simp only [harts, Harts.next] at hn
      split at hn
      · cases hn
      obtain ⟨⟨pc', mem', ev⟩, hstep, rfl⟩ := Option.map_eq_some_iff.mp hn
      dsimp only
      by_cases hg : g = h
      · subst hg
        rw [Function.update_self]
        exact hartStep_width (hw g) hstep
      · rw [Function.update_of_ne hg]
        exact hw g
    | dma b bytes =>
      simp only [harts, Harts.next] at hn
      split at hn <;> cases hn
      exact hw g

/-! ## All stages -/

/-- The steps left of a stage that is no loop. -/
def HartPc.inner (p : Program) (h : Hart) : HartPc → Nat
  | .init k => sem_inits.length - k
  | .transfer ph k => (stores (p.transfers ph h)).length - k
  | .barrier b => b.rank (lastArrival PROCESSORS)
  | _ => 0

/-- What goes down in every step of a hart, most significant first. -/
def HartPc.measure (p : Program) (h : Hart) (pc : HartPc) :
    Nat × Nat × (Nat × Nat × Nat × Nat) :=
  (12 - pc.stage, pc.inner p h, pc.rank p)

/-- The order of `measure`. -/
def Below : Nat × Nat × (Nat × Nat × Nat × Nat) → Nat × Nat × (Nat × Nat × Nat × Nat) → Prop :=
  Prod.Lex (· < ·) (Prod.Lex (· < ·) Lower)

theorem below_wf : WellFounded Below :=
  WellFounded.prod_lex Nat.lt_wfRel.wf (WellFounded.prod_lex Nat.lt_wfRel.wf lower_wf)

theorem HartPc.stage_le (pc : HartPc) : pc.stage ≤ 12 := by
  cases pc with
  | wait ph | transfer ph k | post ph => cases ph <;> simp
  | _ => simp

theorem HartPc.inner_of_loop {pc : HartPc} (hstage : pc.stage = 6 ∨ pc.stage = 8) :
    pc.inner p h = 0 := by
  cases pc with
  | transfer ph k => cases ph <;> simp at hstage
  | init k | barrier b => simp at hstage
  | _ => rfl

/-- **Every step of a hart goes down.** -/
theorem hartStep_down (hp : Place p h pc) (hw : Width p pc)
    (hs : hartStep p h stray pc mem = some (pc', mem', ev)) :
    Below (pc'.measure p h) (pc.measure p h) := by
  have hle := (hartStep_move hs).stage_le
  have hmax := pc'.stage_le
  by_cases hlt : pc.stage < pc'.stage
  · exact Prod.Lex.left _ _ (by omega)
  have heq : pc'.stage = pc.stage := by omega
  have hinner : pc'.inner p h < pc.inner p h → Below (pc'.measure p h) (pc.measure p h) := by
    intro hlt
    unfold Below HartPc.measure
    rw [heq]
    exact Prod.Lex.right _ (Prod.Lex.left _ _ hlt)
  have hloop : pc.stage = 6 ∨ pc.stage = 8 → Below (pc'.measure p h) (pc.measure p h) := by
    intro hstage
    have hcopy : ∀ W k, pc = .copy W k → 0 < W ∧ W ≤ p.half := by
      rintro W k rfl
      exact hw
    unfold Below HartPc.measure
    rw [heq, HartPc.inner_of_loop hstage, HartPc.inner_of_loop (by rw [heq]; exact hstage)]
    exact Prod.Lex.right _ (Prod.Lex.right _ (hartStep_rank hp hcopy hstage hs))
  cases hartStep_move hs with
  | init hk =>
    refine hinner ?_
    obtain ⟨hk, -⟩ := List.getElem?_eq_some_iff.mp hk
    simp only [HartPc.inner]
    omega
  | dmaStore hk =>
    refine hinner ?_
    obtain ⟨hk, -⟩ := List.getElem?_eq_some_iff.mp hk
    simp only [HartPc.inner]
    omega
  | barrier hb hr => exact hinner (barrier_down hr)
  | pass hpc => exact hloop (Or.inl hpc)
  | final hpc => exact hloop (Or.inr hpc)
  | start => simp at heq
  | @wait ph | @sent ph => cases ph <;> simp at heq
  | @post ph => cases ph <;> simp [Phase.next] at heq
  | enter => simp at heq
  | leave hpc' =>
    rw [hpc'] at heq
    simp at heq
  | ret | amoadd | unspin | exit => simp at heq

end Step

end SortPlatform.Sw

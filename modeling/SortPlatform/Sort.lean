import SortPlatform.Routing

/-!
# The sorted array

Principal result: `result_sorted` — when `SYS_EXIT` has been executed, `result` is the ascending
rearrangement of `in`.

* `filled` — until the passes begin, the `tmp` arrays hold the sorted blocks fetched so far.
* `merged` — from there on, the passes and the final merge are on their way to the result.
-/

set_option autoImplicit false

namespace SortPlatform

open Sw RunMerge
open Vp hiding write_data_to_ACC read_data_from_ACC

variable {p : Program} {caps : List Nat} {input : List UInt8} {s s' : Platform} {h : Hart}

/-! ## The blocks in `tmp` -/

/-- **A fetched block is in its place**, until the passes begin. -/
def Platform.Filled (p : Program) (input : List UInt8) (s : Platform) : Prop :=
  ∀ c ∈ s.served, ∀ off, c.dst = .arr (tmp c.hart) off → (s.harts.pc c.hart).stage < 6 →
    block (s.harts.mem.arr (tmp c.hart)) off = datum p input c

theorem routed_of_mem {cs : List Call} (hcs : cs <+: p.calls) {c : Call} (hc : c ∈ cs) :
    ∃ ds, Routed p ds c := by
  obtain ⟨ds, es, rfl⟩ := List.mem_iff_append.mp hc
  exact ⟨ds, routed (((List.prefix_append (ds ++ [c]) es).trans (by simp)).trans hcs)⟩

/-- A routed call into a `tmp` fetches a sorted block. -/
theorem Routed.fetches {cs : List Call} {c : Call} {off : Nat} (h : Routed p cs c)
    (hdst : c.dst = .arr (tmp c.hart) off) : 16 ∣ off ∧
      ∀ input, datum p input c = (block input (base p c.hart + off)).mergeSort := by
  rcases h.inv with ⟨i, o, hshape, -⟩ | ⟨i, o, hshape, hdvd, -⟩
  · rw [hshape] at hdst
    cases hdst
  · have heq : Loc.arr (tmp c.hart) o = .arr (tmp c.hart) off := by
      rw [← hdst, hshape]
      rfl
    cases heq
    refine ⟨hdvd, fun input => ?_⟩
    rw [hshape]
    rfl

theorem base_le (p : Program) (h : Hart) : base p h + p.half ≤ p.total := by
  cases p <;> cases h <;> decide

theorem tmp_injective {g h : Hart} (hgh : tmp g = tmp h) : g = h := by
  cases g <;> cases h <;> first | rfl | cases hgh

theorem getElem?_patch (xs bs : List UInt8) {o : Nat} (hle : o + bs.length ≤ xs.length) (k : Nat) :
    (patch xs o bs)[k]? =
      if k < o then xs[k]? else if k < o + bs.length then bs[k - o]? else xs[k]? := by
  unfold patch
  grind

theorem out_injective {g h : Hart} (hgh : out g = out h) : g = h := by
  cases g <;> cases h <;> first | rfl | cases hgh

/-- Blocks at multiples of sixteen do not overlap. -/
theorem block_patch {xs bs : List UInt8} {o off : Nat} (hbs : bs.length = 16) (ho : 16 ∣ o)
    (hle : o + 16 ≤ xs.length) (hoff : 16 ∣ off) :
    block (patch xs o bs) off = if off = o then bs else block xs off := by
  have hget := getElem?_patch xs bs (show o + bs.length ≤ xs.length by omega)
  apply List.ext_getElem?
  intro i
  unfold block
  rw [slice_eq_take_drop, slice_eq_take_drop]
  by_cases hi : i < 16
  · rw [List.getElem?_take_of_lt hi, List.getElem?_drop, hget]
    split <;> grind
  · grind

/-- A step of a hart leaves `tmp` of a hart alone that has not begun its passes. -/
theorem Sw.Move.tmp_eq {g : Hart} {pc pc' : HartPc} {mem mem' : Memory} {ev : List Event}
    (hm : Move p h mem pc pc' mem' ev) (hg : g = h → pc'.stage < 6) :
    mem'.arr (tmp g) = mem.arr (tmp g) := by
  rcases hm.arr (tmp g) with heq | ⟨h6, htmp | hout⟩ | ⟨-, hres⟩
  · exact heq
  · have := hg (tmp_injective htmp)
    have := hm.stage_le
    omega
  · exact absurd hout.symm (out_ne_tmp h g)
  · cases g <;> cases hres

/-- No step of a hart writes to `out` of the other. -/
theorem Sw.Move.out_eq {g : Hart} {pc pc' : HartPc} {mem mem' : Memory} {ev : List Event}
    (hm : Move p h mem pc pc' mem' ev) (hg : g ≠ h) :
    mem'.arr (out g) = mem.arr (out g) := by
  rcases hm.arr (out g) with heq | ⟨-, htmp | hout⟩ | ⟨-, hres⟩
  · exact heq
  · exact absurd htmp (out_ne_tmp g h)
  · exact absurd (out_injective hout) hg
  · cases g <;> cases hres

namespace Platform.Filled

theorem congr (hf : s.Filled p input) (hserved : s'.served = s.served) (hharts : s'.harts = s.harts) :
    s'.Filled p input := by
  unfold Filled
  rw [hserved, hharts]
  exact hf

/-- A block is put in its place. -/
theorem writeRam (hf : s.Filled p input) (hs : (platform p caps input).ReachBy Prompt s)
    {off n o : Nat} {a : Arr} {d : SimpleDMA} (hpc : s.dma.pc = .write off n (.arr a o))
    (hlen : o + SimpleDMA.chunk n ≤ (s.harts.mem.arr a).length) (hd : s.dma.writeDone = some d) :
    (Platform.enter { s with harts := { s.harts with
      mem := s.harts.mem.setArr a (patch (s.harts.mem.arr a) o
        (s.dma.buffer.take (SimpleDMA.chunk n))) } } d).Filled p input := by
  obtain ⟨rfl, rfl, hnot, g, i, rfl, hdvd, hle, hlast, -⟩ := prompt_writeRam hs hpc
  have hbuffer : s.dma.buffer.take 16 = (block input (base p g + o)).mergeSort :=
    (carried hs).buffer _ _ _ hpc _ hlast
  have hidle : d.Idle := ⟨SimpleDMA.writeDone_eq_some hpc (by decide) hd,
    (SimpleDMA.notified_writeDone hd).trans hnot⟩
  intro c hc off hdst hstage
  rw [served_of_idle hidle] at hc
  have hmem : c ∈ s.calls := hc
  have hmem' := hmem
  rw [hlast, List.mem_append, List.mem_singleton] at hmem'
  show block (Function.update s.harts.mem.arr (tmp g) _ (tmp c.hart)) off = _
  by_cases hhart : c.hart = g
  · -- both blocks are in the same array
    subst hhart
    obtain ⟨ds, hroute⟩ := routed_of_mem
      (completed_of_stores (harts_inv (platform_harts hs)).log_ordered) hmem
    obtain ⟨hdvd', hdatum⟩ := hroute.fetches hdst
    have hlen16 : (block input (base p c.hart + o)).mergeSort.length = 16 := by
      rw [List.length_mergeSort]
      refine block_length ?_
      have := base_le p c.hart
      rw [input_length hs]
      omega
    rw [Function.update_self]
    show block (patch _ _ (s.dma.buffer.take 16)) off = _
    rw [hbuffer, block_patch hlen16 hdvd hlen hdvd', hdatum input]
    split
    · rename_i heq
      rw [heq]
    · rename_i hne
      rw [← hdatum input]
      refine hf c (hmem'.resolve_right ?_) off hdst hstage
      intro hcall
      cases hdst.symm.trans (congrArg Call.dst hcall)
      exact hne rfl
  · rw [Function.update_of_ne fun h => hhart (tmp_injective h)]
    refine hf c (hmem'.resolve_right ?_) off hdst hstage
    rintro rfl
    exact hhart rfl

/-- A block has gone into a PE. -/
theorem writePe (hf : s.Filled p input) (hs : (platform p caps input).ReachBy Prompt s)
    {off n : Nat} {i : Fin 4} {t : Traffic} {d : SimpleDMA}
    (hpc : s.dma.pc = .write off n (.peStart i 0)) (hd : s.dma.writeDone = some d) :
    ((s.setPe i t).enter d).Filled p input := by
  obtain ⟨rfl, rfl, hnot, g, o, -, hlast⟩ := prompt_writePe hs hpc
  have hidle : d.Idle := ⟨SimpleDMA.writeDone_eq_some hpc (by decide) hd,
    (SimpleDMA.notified_writeDone hd).trans hnot⟩
  intro c hc off hdst hstage
  rw [served_of_idle hidle] at hc
  have hmem : c ∈ s.calls := hc
  rw [hlast, List.mem_append, List.mem_singleton] at hmem
  refine hf c (hmem.resolve_right ?_) off hdst hstage
  rintro rfl
  cases hdst

end Platform.Filled

theorem filled (h : (platform p caps input).ReachBy Prompt s) : s.Filled p input := by
  induction h with
  | @init s h0 =>
    obtain ⟨⟨-, -, -, htr⟩, -, hd, -, -⟩ := h0
    have hidle : s.dma.Idle := by
      rw [hd]
      exact ⟨rfl, rfl⟩
    intro c hc
    rw [Platform.served_of_idle hidle, Platform.calls, htr] at hc
    cases hc
  | @step s s' a hs hok hn ih =>
    have hp := prompted hs
    cases (platform_effect hn).2 with
    | @hart h stray pc' mem' ev hstep =>
      have hserved := hp.served_hart (harts_inv (platform_harts hs)) hok hstep rfl
      have hm := hartStep_move hstep
      intro c hc off hdst hstage
      rw [hserved] at hc
      dsimp only at hstage ⊢
      by_cases hh : c.hart = h
      · rw [hh, Function.update_self] at hstage
        rw [hm.tmp_eq fun _ => hstage]
        refine ih c hc off hdst ?_
        rw [hh]
        exact Nat.lt_of_le_of_lt hm.stage_le hstage
      · rw [Function.update_of_ne hh] at hstage
        rw [hm.tmp_eq fun h => absurd h hh]
        exact ih c hc off hdst hstage
    | fire hf => exact ih.congr (hp.served_fire hf).2 rfl
    | run hpc hr => exact ih.congr (prompt_served_run hs hpc hr).2 rfl
    | readRam hpc _ hr => exact ih.congr (Platform.served_readDone hpc hr) rfl
    | @readPe _ _ _ _ i t d hpc _ _ _ hd =>
      exact ih.congr (Platform.served_readDone (s := s.setPe i t) hpc hd) rfl
    | writeRam hpc hlen hd => exact ih.writeRam hs hpc hlen hd
    | writePe hpc _ _ hd => exact ih.writePe hs hpc hd
    | beginRead | readByte | beginWrite | writeByte | thread => exact ih.congr rfl rfl

/-! ## The halves -/

/-- What a hart makes of its half of `in`. -/
def sortedHalf (p : Program) (input : List UInt8) (h : Hart) : List UInt8 :=
  (slice input (base p h) (base p h + p.half)).mergeSort

/-- The passes start on sorted blocks. -/
theorem sorting_start {xs os : List UInt8} (hin : input.length = p.total) (hlen : xs.length = p.half)
    (h : Hart) (hblocks : ∀ k < p.half / 16,
      block xs (16 * k) = (block input (base p h + 16 * k)).mergeSort) :
    Sorting p (sortedHalf p input h) (.passes 32) xs os := by
  have hbase := base_le p h
  have hsorted : p.passed xs = sortedHalf p input h := by
    refine passed_eq_mergeSort hlen (by rw [slice_length (by omega)]; omega) fun k hk => ?_
    rw [slice_slice _ (by omega), ← Nat.add_assoc]
    exact hblocks k hk
  rw [← hsorted]
  exact sorting_passed p xs os

/-- Every block of `tmp` is fetched by a call. -/
theorem read_mem_reads (p : Program) (h : Hart) : ∀ k < p.half / 16,
    ∃ i, read_data_from_ACC h (.peRead i 0) (.arr (tmp h) (16 * k)) 16 ∈ p.reads h := by
  cases p <;> cases h <;> decide

/-- After the reads, all calls of a hart that goes on have been served. -/
theorem served_of_reads (h : (platform p caps input).ReachBy Prompt s) {g : Hart} {stray : UInt8}
    (hok : Prompt s (.hart g stray)) (hstage : 4 < (s.harts.pc g).stage) {c : Call}
    (hc : c ∈ p.reads g) (hg : c.hart = g) : c ∈ s.served := by
  have hcalls : c ∈ s.calls := by
    have hlog := (harts_inv (platform_harts h)).log
    have hmade : c ∈ completed (made p .read g (s.harts.pc g)) := by
      rw [made_of_gt g .read hstage, completed_stores]
      exact hc
    show c ∈ completed (dmaLog s.harts.trace)
    rw [hlog, completed_append, completed_append]
    cases g with
    | hart0 => exact List.mem_append_left _ (List.mem_append_right _ hmade)
    | hart1 => exact List.mem_append_right _ hmade
  by_cases hidle : s.dma.Idle
  · rwa [Platform.served_of_idle hidle]
  · rw [Platform.served_of_not_idle hidle]
    have hne : s.calls ≠ [] := List.ne_nil_of_mem hcalls
    rw [← List.dropLast_append_getLast hne] at hcalls
    refine (List.mem_append.mp hcalls).resolve_right fun hlast => ?_
    rw [List.mem_singleton] at hlast
    exact hidle (hok c (by rw [hlast, List.getLast?_eq_some_getLast hne]) hg)

/-! ## The passes and the final merge -/

/-- Every hart is on its way to its sorted half, and hart 0 to the result. -/
structure Platform.Merged (p : Program) (input : List UInt8) (s : Platform) : Prop where
  sorting : ∀ h, 6 ≤ (s.harts.pc h).stage → Sorting p (sortedHalf p input h) (s.harts.pc h)
    (s.harts.mem.arr (tmp h)) (s.harts.mem.arr (out h))
  finishing : 7 ≤ (s.harts.pc .hart0).stage →
    Finishing p (sortedHalf p input .hart0) (sortedHalf p input .hart1) (s.harts.pc .hart0)
      (s.harts.mem.arr .result)

theorem finishing_of_seven {T0 T1 res : List UInt8} {pc : HartPc} (h7 : pc.stage = 7) :
    Finishing p T0 T1 pc res := by
  cases pc with
  | barrier b => exact fun h8 => absurd h8 (by simp)
  | wait ph | transfer ph k | post ph => cases ph <;> simp at h7
  | _ => simp at h7

namespace Platform.Merged

/-- **A step of a hart.** -/
theorem hart (hm : s.Merged p input) (hs : (platform p caps input).ReachBy Prompt s) {g : Hart}
    {stray : UInt8} (hok : Prompt s (.hart g stray)) {pc' : HartPc} {mem' : Memory}
    {ev : List Event} (hstep : hartStep p g stray (s.harts.pc g) s.harts.mem = some (pc', mem', ev)) :
    Platform.Merged p input
      { s with
        harts := ⟨Function.update s.harts.pc g pc', mem', s.harts.trace ++ ev⟩
        dma := storeAll s.dma (dmaLog ev) } := by
  have hi := harts_inv (platform_harts hs)
  have hmove := hartStep_move hstep
  refine ⟨(Hart.forall_iff g).mpr ⟨fun hstage => ?_, fun hstage => ?_⟩, fun hstage => ?_⟩
  · dsimp only at hstage ⊢
    rw [Function.update_self] at hstage ⊢
    by_cases h6 : 6 ≤ (s.harts.pc g).stage
    · exact hartStep_sorting hi.length (hm.sorting g h6) h6 hstep
    · obtain ⟨hpc, rfl, harr⟩ := hmove.begin_passes (by omega) hstage
      rw [harr]
      refine sorting_start (input_length hs) ((hi.length _).trans (length_tmp p g)) g fun k hk => ?_
      obtain ⟨i, hmem⟩ := read_mem_reads p g k hk
      have h5 : (s.harts.pc g).stage = 5 := by rw [hpc]; rfl
      exact filled hs _ (served_of_reads hs hok (by omega) hmem rfl) _ rfl (show _ < 6 by
        rw [show (read_data_from_ACC g (.peRead i 0) (.arr (tmp g) (16 * k)) 16).hart = g from rfl]
        omega)
  · have hne : g.other ≠ g := g.ne_other.symm
    dsimp only at hstage ⊢
    rw [Function.update_of_ne hne] at hstage ⊢
    have htmp : mem'.arr (tmp g.other) = s.harts.mem.arr (tmp g.other) :=
      hmove.tmp_eq fun h => absurd h hne
    rw [htmp, hmove.out_eq hne]
    exact hm.sorting g.other hstage
  · dsimp only at hstage ⊢
    cases g with
    | hart0 =>
      rw [Function.update_self] at hstage ⊢
      by_cases h7 : 7 ≤ (s.harts.pc .hart0).stage
      · refine hartStep_finishing hi.length (fun h8 => ?_) (hm.finishing h7) h7 hstep
        have h7' : 7 ≤ (s.harts.pc .hart1).stage := harts_separated (platform_harts hs) .hart0 h8
        exact ⟨(sorting_of_le h7).mp (hm.sorting .hart0 (by omega)),
          (sorting_of_le h7').mp (hm.sorting .hart1 (by omega))⟩
      · exact finishing_of_seven (hmove.enter_barrier (by omega) hstage)
    | hart1 =>
      rw [Function.update_of_ne (by simp)] at hstage ⊢
      rw [hartStep_result (hi.place .hart1) hstep]
      exact hm.finishing hstage

/-- The DMA writes to the `tmp` of a hart in its phase. -/
theorem writeRam (hm : s.Merged p input) (hs : (platform p caps input).ReachBy Prompt s)
    {off n o : Nat} {a : Arr} {d : SimpleDMA} (hpc : s.dma.pc = .write off n (.arr a o))
    {bytes : List UInt8} :
    (Platform.enter { s with harts := { s.harts with
      mem := s.harts.mem.setArr a bytes } } d).Merged p input := by
  obtain ⟨-, -, -, g, i, rfl, -, -, -, ph, k, hph⟩ := prompt_writeRam hs hpc
  refine ⟨fun h hstage => ?_, fun hstage => ?_⟩
  · have hne : h ≠ g := by
      rintro rfl
      have h6 : 6 ≤ (s.harts.pc h).stage := hstage
      rw [hph] at h6
      cases ph <;> simp at h6
    show Sorting p _ (s.harts.pc h) (Function.update s.harts.mem.arr (tmp g) bytes (tmp h))
      (Function.update s.harts.mem.arr (tmp g) bytes (out h))
    rw [Function.update_of_ne fun heq => hne (tmp_injective heq),
      Function.update_of_ne (out_ne_tmp h g)]
    exact hm.sorting h hstage
  · show Finishing p _ _ (s.harts.pc .hart0)
      (Function.update s.harts.mem.arr (tmp g) bytes .result)
    rw [Function.update_of_ne (by cases g <;> simp [tmp])]
    exact hm.finishing hstage

end Platform.Merged

theorem merged (h : (platform p caps input).ReachBy Prompt s) : s.Merged p input := by
  induction h with
  | @init s h0 =>
    obtain ⟨⟨hpc, -⟩, -⟩ := h0
    refine ⟨fun h h6 => ?_, fun h7 => ?_⟩
    · rw [hpc] at h6
      cases h <;> simp [entry] at h6
    · rw [hpc] at h7
      simp [entry] at h7
  | @step s s' a hs hok hn ih =>
    cases (platform_effect hn).2 with
    | hart hstep => exact ih.hart hs hok hstep
    | writeRam hpc _ _ => exact ih.writeRam hs hpc
    | _ => exact ⟨ih.sorting, ih.finishing⟩

/-! ## The result -/

/-- The halves of `in`, merged. -/
theorem merge_halves (hin : input.length = p.total) :
    ((sortedHalf p input .hart0).merge (sortedHalf p input .hart1) swLe).Pairwise (· ≤ ·) ∧
      ((sortedHalf p input .hart0).merge (sortedHalf p input .hart1) swLe).Perm input := by
  refine ⟨pairwise_merge picksLeast_lt _ _ (mergeSort_sorted _) (mergeSort_sorted _), ?_⟩
  have hsplit : slice input 0 (0 + p.half) ++ slice input p.half (p.half + p.half) = input := by
    rw [← p.total_eq, ← hin]
    simp [slice]
  have hperm : (sortedHalf p input .hart0 ++ sortedHalf p input .hart1).Perm
      (slice input 0 (0 + p.half) ++ slice input p.half (p.half + p.half)) :=
    (List.mergeSort_perm _ _).append (List.mergeSort_perm _ _)
  rw [hsplit] at hperm
  exact (List.merge_perm_append swLe).trans hperm

theorem finishing_of_gt {T0 T1 res : List UInt8} {pc : HartPc} (h8 : 8 < pc.stage)
    (hd : Finishing p T0 T1 pc res) : res = T0.merge T1 swLe := by
  cases pc with
  | finals i | final i m => simp at h8
  | _ => exact hd (by omega)

/-- **End-to-end sort**: for every contents of `in`, every interleaving of the harts, the DMA and
the threads of the PEs and FIFOs of any capacities, once `SYS_EXIT` has been executed `result` is
in ascending order and a permutation of `in`. A hart waits until its request has completed. -/
theorem result_sorted (p : Program) (caps : List Nat) (input : List UInt8) (s : Platform)
    (h : (platform p caps input).ReachBy Prompt s) (hexit : s.harts.Exited) :
    (s.harts.mem.arr .result).Pairwise (· ≤ ·) ∧ (s.harts.mem.arr .result).Perm input := by
  obtain ⟨g, hg⟩ := hexit
  have hcounted := (harts_inv (platform_harts h)).counted_of_won (h := g) (by rw [hg]; rfl) .hart0
  have hresult := finishing_of_gt (by omega) ((merged h).finishing (by omega))
  rw [hresult]
  exact merge_halves (input_length h)

/-! ### A whole run -/

/-- The harts only step while the DMA is idle. -/
def InTurn (s : Platform) : PlatformAct → Prop
  | .hart _ _ => s.dma.Idle
  | _ => True

instance (s : Platform) : ∀ a, Decidable (InTurn s a)
  | .hart _ _ => inferInstanceAs (Decidable s.dma.Idle)
  | .fire | .dma _ _ | .pe _ _ => inferInstanceAs (Decidable True)

theorem InTurn.prompt {a : PlatformAct} (h : InTurn s a) : Prompt s a := by
  cases a with
  | hart g stray => exact fun _ _ _ => h
  | _ => trivial

/-- `main.cpp` from reset to `SYS_EXIT`. -/
def wholeRun : List PlatformAct :=
  exchange ++ hartSteps .hart0 236 ++ hartSteps .hart1 240 ++ hartSteps .hart0 330

set_option maxRecDepth 20000 in
/-- 64, …, 1 sorted by the whole platform. -/
theorem result_sorted_wholeRun :
    ∃ s, (platform .main [16, 16, 16, 16, 16] (Platform.resetInput .main)).ReachBy Prompt s ∧
      s.harts.Exited ∧ (s.harts.mem.arr .result).Pairwise (· ≤ ·) ∧
      (s.harts.mem.arr .result).Perm (Platform.resetInput .main) := by
  have hrun : (((platform .main [16, 16, 16, 16, 16] (Platform.resetInput .main)).execBy
      InTurn (Platform.reset .main) wholeRun).map fun s => decide s.harts.Exited) = some true := by
    decide +kernel
  obtain ⟨s, hs, hret⟩ := Option.map_eq_some_iff.mp hrun
  have hreach := (Machine.reachBy_execBy (.init (Platform.reset_init .main)) hs).mono
    fun _ _ _ hok => InTurn.prompt hok
  have hexit : s.harts.Exited := of_decide_eq_true hret
  exact ⟨s, hreach, hexit, result_sorted .main _ _ s hreach hexit⟩

end SortPlatform

import SortPlatform.Lib.PipelineDepth
import SortPlatform.Stratus.Chain

/-!
# The system and its test bench

`System` and `Testbench` of `src/stratus`: `read_array` fills five rows from a file, `feed_array`
puts ten words into the chain, the rows and five words of zeros, and `fetch_result` prints ten
words and stops the simulation. The three kinds of threads run in any order, and the channels have
any positive capacities.

Principal results:

* `scan_render`, `read_array_listing` — numbers written in decimal are read back.
* `system_endless` — every simulation ends.
* `system_sorts_file` — it ends after ten words, the rows of the file sorted and five times zeros.
-/

set_option autoImplicit false

namespace SortPlatform.Stratus

open Dataflow

/-! ## The file -/

/-- `isspace` -/
def isSpace (c : Char) : Bool := c = ' ' || ('\t' ≤ c && c ≤ '\r')

/-- The digits at the front of a text, appended to those of `n`. -/
def scanDigits (n : Nat) : List Char → Nat × List Char
  | [] => (n, [])
  | c :: cs => if c.isDigit then scanDigits (10 * n + (c.toNat - '0'.toNat)) cs else (n, c :: cs)

/-- An optional sign. -/
def scanSign : List Char → Int × List Char
  | '-' :: cs => (-1, cs)
  | '+' :: cs => (1, cs)
  | cs => (1, cs)

/-- `fscanf(fp_s, "%d", …)`: the number, if there is one, and the text that is left. -/
def scan (text : List Char) : Option Int × List Char :=
  match scanSign (text.dropWhile isSpace) with
  | (sign, c :: cs) =>
    if c.isDigit then
      let (n, rest) := scanDigits 0 (c :: cs)
      (some (sign * n), rest)
    else (none, c :: cs)
  | (_, []) => (none, [])

/-- `A[5][16]` -/
abbrev Rows := Vector (Vector UInt32 16) 5

/-- `A[i][j] = v` -/
def setEntry {m n : Nat} (A : Vector (Vector UInt32 n) m) (i : Fin m) (j : Fin n) (v : UInt32) :
    Vector (Vector UInt32 n) m :=
  A.set i.val (A[i].set j.val v j.isLt) i.isLt

/-- The values of an `int`. -/
def IsInt (v : Int) : Prop := -2147483648 ≤ v ∧ v ≤ 2147483647

instance (v : Int) : Decidable (IsInt v) := inferInstanceAs (Decidable (_ ∧ _))

/-- What a conversion to `int` stores; the C library decides what a value that is none becomes. -/
def stored (outside : Int → UInt32) (v : Int) : UInt32 :=
  if IsInt v then UInt32.ofInt v else outside v

/-- `fscanf(fp_s, "%d", &A[i][j])`. -/
def scanInto (outside : Int → UInt32) (i : Fin 5) (j : Fin 16) (s : Rows × List Char) :
    Rows × List Char :=
  match scan s.2 with
  | (some v, rest) => (setEntry s.1 i j (stored outside v), rest)
  | (none, rest) => (s.1, rest)

/-- `read_array` of a file that can be opened, with `A` as it was before. -/
def read_array (outside : Int → UInt32) (A : Rows) (text : List Char) : Rows :=
  ((List.finRange 5).foldl (fun s i =>
    (List.finRange 16).foldl (fun s j => scanInto outside i j s) s) (A, text)).1

/-! ## The test bench -/

/-- The `i`-th word of `feed_array`. -/
def fed (A : Rows) (i : Nat) : Word :=
  pack (Vector.ofFn fun j => if h : i < 5 then A[i][j].toUInt8 else 0)

/-- The chain between the two threads of `Testbench`. -/
structure System where
  chain : Chain
  /-- The iterations of `feed_array` done. -/
  i : Nat
  /-- The words that `fetch_result` has printed. -/
  fetched : List Word

/-- The line that `fetch_result` prints for a word. -/
def line (word : Word) : List UInt8 := (List.range 16).map fun i => getRange word (8 * i)

def System.printed (s : System) : List (List UInt8) := s.fetched.map line

/-- The next step; none after `sc_stop()`. -/
def System.next (A : Rows) (s : System) (a : StreamAct) : Option System :=
  if s.fetched.length = 10 then none
  else
    match a with
    | .put =>
      if s.i < 10 then (s.chain.put (fed A s.i)).map fun c => { s with chain := c, i := s.i + 1 }
      else none
    | .get => s.chain.get.map fun p => { s with chain := p.2, fetched := s.fetched ++ [p.1] }
    | .module m => (s.chain.next m).map fun c => { s with chain := c }

/-- The system after `read_array`, with channels of capacities `caps`. -/
def system (caps : List Nat) (A : Rows) : Machine System StreamAct where
  init s := s.chain.Fresh ∧ s.chain.caps = caps ∧ s.i = 0 ∧ s.fetched = []
  next := System.next A

/-- The ten words of `feed_array`. -/
def feed_array (A : Rows) : List Word := (List.range 10).map (fed A)

variable {caps : List Nat} {A : Rows} {s s' : System}

/-! ## The stream -/

/-- The system as a stream of ten words. -/
def System.stream (A : Rows) (s : System) : Stream := ⟨s.chain, (feed_array A).drop s.i, s.fetched⟩

theorem drop_feed_array {i : Nat} (h : i < 10) :
    (feed_array A).drop i = fed A i :: (feed_array A).drop (i + 1) := by
  rw [List.drop_eq_getElem_cons (by simpa [feed_array] using h)]
  simp [feed_array]

theorem System.next_stream {a : StreamAct} (h : s.next A a = some s') :
    (s.stream A).next a = some (s'.stream A) := by
  unfold next at h
  split at h
  · cases h
  · cases a with
    | put =>
      dsimp only at h
      split at h
      · rename_i hi
        obtain ⟨c, hc, rfl⟩ := Option.map_eq_some_iff.mp h
        simp only [stream, Stream.next, drop_feed_array hi, hc, Option.map_some]
      · cases h
    | get =>
      obtain ⟨q, hq, rfl⟩ := Option.map_eq_some_iff.mp h
      simp only [stream, Stream.next, hq, Option.map_some]
    | module m =>
      obtain ⟨c, hc, rfl⟩ := Option.map_eq_some_iff.mp h
      simp only [stream, Stream.next, hc, Option.map_some]

/-- **The system is a stream of ten words.** -/
theorem system_stream (h : (system caps A).Reach s) :
    (stream caps (feed_array A)).Reach (s.stream A) := by
  refine h.simulate (System.stream A) ?_ ?_
  · rintro s ⟨hf, hcap, hi, hout⟩
    exact ⟨hf, hcap, by rw [System.stream, hi, List.drop_zero], hout⟩
  · intro s a s' _ _ _ hn
    exact Or.inr ⟨a, trivial, System.next_stream hn⟩

/-! ## The end of the simulation -/

/-- 1 before the first step of a module. -/
def ModuleThread.starting (t : ModuleThread) : Nat := if t.pc = .reset then 1 else 0

/-- The steps that the modules can still take when nothing is put. -/
def Chain.work (c : Chain) : Nat :=
  c.merge_w1.starting + c.merge_w2.starting + c.merge_w4.starting + c.merge_w8.starting +
    Dataflow.work c.rgb.buf.length c.cells

theorem Module.next_starting {m : Module} {t t' : ModuleThread} {i o i' o' : Fifo Word}
    (h : m.next t i o = some (t', i', o')) :
    (t'.starting < t.starting ∧ t'.stage = t.stage ∧ i' = i ∧ o' = o) ∨
      (t'.starting ≤ t.starting ∧ t.stage.next 1 m.f i o = some (t'.stage, i', o')) := by
  obtain ⟨pc, C⟩ := t
  cases pc with
  | reset =>
    cases h
    exact Or.inl ⟨Nat.zero_lt_one, rfl, rfl, rfl⟩
  | input =>
    rcases next_refines h with ⟨hs, -, -⟩ | hn <;>
      obtain ⟨q, -, h⟩ := Option.bind_eq_some_iff.mp h <;>
      obtain ⟨r, -, h⟩ := Option.map_eq_some_iff.mp h <;> cases h
    · cases hs
    · exact Or.inr ⟨Nat.le_refl 0, hn⟩
  | output result =>
    rcases next_refines h with ⟨hs, -, -⟩ | hn <;>
      obtain ⟨q, -, h⟩ := Option.map_eq_some_iff.mp h <;> cases h
    · cases hs
    · exact Or.inr ⟨Nat.le_refl 0, hn⟩

/-- **Every step of a module is work done.** -/
theorem Chain.next_work {c c' : Chain} {m : Module} (h : c.next m = some c') : c'.work < c.work := by
  have hstep : ∀ {n : Nat}, stepAt 1 n c.rgb c.cells = some (c'.rgb, c'.cells) →
      Dataflow.work c'.rgb.buf.length c'.cells + 1 = Dataflow.work c.rgb.buf.length c.cells :=
    fun hn => stepAt_work c.keepsLength hn
  cases m <;> obtain ⟨⟨t, i, o⟩, hd, rfl⟩ := Option.map_eq_some_iff.mp h <;>
    rcases Module.next_starting hd with ⟨hlt, hs, rfl, rfl⟩ | ⟨hle, hn⟩
  case mergeW1.inr =>
    have := hstep (n := 0) (by simp only [Chain.cells, stepAt, hn, Option.map_some])
    simp only [Chain.work] at this ⊢
    omega
  case mergeW2.inr =>
    have := hstep (n := 1) (by simp only [Chain.cells, stepAt, hn, Option.map_some])
    simp only [Chain.work] at this ⊢
    omega
  case mergeW4.inr =>
    have := hstep (n := 2) (by simp only [Chain.cells, stepAt, hn, Option.map_some])
    simp only [Chain.work] at this ⊢
    omega
  case mergeW8.inr =>
    have := hstep (n := 3) (by simp only [Chain.cells, stepAt, hn, Option.map_some])
    simp only [Chain.work] at this ⊢
    omega
  all_goals
    simp only [Chain.work, Chain.cells, hs] at hlt ⊢
    omega

/-- What goes down in every step, most significant first. -/
def System.measure (s : System) : Nat × Nat × Nat := (10 - s.i, s.chain.work, 10 - s.fetched.length)

/-- The order of `measure`. -/
def System.Down (s' s : System) : Prop :=
  Prod.Lex (· < ·) (Prod.Lex (· < ·) (· < ·)) s'.measure s.measure

theorem System.down_wf : WellFounded System.Down :=
  InvImage.wf System.measure (WellFounded.prod_lex Nat.lt_wfRel.wf
    (WellFounded.prod_lex Nat.lt_wfRel.wf Nat.lt_wfRel.wf))

/-- **Every step goes down.** -/
theorem System.next_down {a : StreamAct} (hlen : s.fetched.length ≤ 10)
    (h : s.next A a = some s') : System.Down s' s := by
  unfold next at h
  split at h
  · cases h
  · rename_i hne
    cases a with
    | put =>
      dsimp only at h
      split at h
      · obtain ⟨c, -, rfl⟩ := Option.map_eq_some_iff.mp h
        refine Prod.Lex.left _ _ ?_
        dsimp only
        omega
      · cases h
    | get =>
      obtain ⟨q, hq, rfl⟩ := Option.map_eq_some_iff.mp h
      obtain ⟨r, -, rfl⟩ := Option.map_eq_some_iff.mp hq
      refine Prod.Lex.right _ (Prod.Lex.right _ ?_)
      simp only [List.length_append, List.length_singleton]
      omega
    | module m =>
      obtain ⟨c, hc, rfl⟩ := Option.map_eq_some_iff.mp h
      exact Prod.Lex.right _ (Prod.Lex.left _ _ (Chain.next_work hc))

/-- No more than ten words are fetched. -/
theorem system_fetched_le {ok : System → StreamAct → Prop} (h : (system caps A).ReachBy ok s) :
    s.fetched.length ≤ 10 := by
  refine h.invariant (motive := fun s => s.fetched.length ≤ 10) ?_ ?_
  · rintro s ⟨-, -, -, hout⟩
    rw [hout]
    exact Nat.zero_le 10
  · intro s a s' hle _ hn
    simp only [system, System.next] at hn
    split at hn
    · cases hn
    · cases a with
      | put =>
        dsimp only at hn
        split at hn
        · obtain ⟨c, -, rfl⟩ := Option.map_eq_some_iff.mp hn
          exact hle
        · cases hn
      | get =>
        obtain ⟨q, -, rfl⟩ := Option.map_eq_some_iff.mp hn
        simp only [List.length_append, List.length_singleton]
        omega
      | module m =>
        obtain ⟨c, -, rfl⟩ := Option.map_eq_some_iff.mp hn
        exact hle

/-- **Every simulation ends.** -/
theorem system_endless (ok : System → StreamAct → Prop) (run : Nat → System) :
    ¬ (system caps A).Endless ok run :=
  Machine.not_endless System.down_wf
    (fun _ _ _ hs _ hn => System.next_down (system_fetched_le hs) hn) run

/-! ## What is printed -/

/-- A row of the file, in ascending order of its lowest bytes. -/
def sortedRow (row : Vector UInt32 16) : List UInt8 := (row.toList.map (·.toUInt8)).mergeSort

/-- **What the simulation prints**: the five rows sorted, and five lines of zeros. -/
def expected (A : Rows) : List (List UInt8) :=
  A.toList.map sortedRow ++ List.replicate 5 (List.replicate 16 0)

theorem bytes_fed_row {i : Nat} (h : i < 5) :
    bytes (fed A i) = A[i].toList.map (·.toUInt8) := by
  rw [fed, bytes_pack]
  apply List.ext_getElem (by simp)
  intro j h1 h2
  simp [h]

theorem bytes_fed_zero {i : Nat} (h : 5 ≤ i) : bytes (fed A i) = List.replicate 16 0 := by
  rw [fed, bytes_pack]
  apply List.ext_getElem (by simp)
  intro j h1 h2
  rw [List.getElem_replicate]
  simp [show ¬ i < 5 by omega]

/-- The words of `feed_array`, sorted. -/
theorem line_sorted (A : Rows) : ((feed_array A).map sortWord).map line = expected A := by
  have hrow : ∀ i (h : i < 5), line (sortWord (fed A i)) = sortedRow A[i] := by
    intro i h
    show bytes _ = _
    rw [bytes_sortWord, bytes_fed_row h]
    rfl
  have hzero : ∀ i, 5 ≤ i → line (sortWord (fed A i)) = List.replicate 16 0 := by
    intro i h
    show bytes _ = _
    rw [bytes_sortWord, bytes_fed_zero h]
    exact List.mergeSort_of_pairwise (by simp)
  apply List.ext_getElem (by simp [feed_array, expected])
  intro i h1 h2
  simp only [feed_array, List.getElem_map, List.getElem_range, expected]
  by_cases hi : i < 5
  · rw [hrow i hi, List.getElem_append_left (by simpa using hi), List.getElem_map]
    rfl
  · rw [hzero i (by omega), List.getElem_append_right (by simpa using hi), List.getElem_replicate]

/-- At an end ten words have been fetched. -/
theorem system_end (hpos : ∀ c ∈ caps, 0 < c) (h : (system caps A).Reach s)
    (hend : ∀ a, s.next A a = none) : s.fetched.length = 10 := by
  by_contra hne
  have hnext : ∀ a, s.next A a = match a with
      | .put =>
        if s.i < 10 then (s.chain.put (fed A s.i)).map fun c => { s with chain := c, i := s.i + 1 }
        else none
      | .get => s.chain.get.map fun p => { s with chain := p.2, fetched := s.fetched ++ [p.1] }
      | .module m => (s.chain.next m).map fun c => { s with chain := c } := fun a => if_neg hne
  have hfin : (s.stream A).Finished := by
    intro a
    have hnone := (hnext a).symm.trans (hend a)
    cases a with
    | put =>
      dsimp only at hnone
      by_cases hi : s.i < 10
      · rw [if_pos hi, Option.map_eq_none_iff] at hnone
        simp only [System.stream, Stream.next, drop_feed_array hi, hnone, Option.map_none]
      · have hnil : (feed_array A).drop s.i = [] :=
          List.drop_of_length_le (by simpa [feed_array] using hi)
        simp only [System.stream, Stream.next, hnil]
    | get =>
      rw [Option.map_eq_none_iff] at hnone
      simp only [System.stream, Stream.next, hnone, Option.map_none]
    | module m =>
      rw [Option.map_eq_none_iff] at hnone
      simp only [System.stream, Stream.next, hnone, Option.map_none]
  have hall := (chain_inv (system_stream h)).finished hpos hfin
  exact hne (by rw [show s.fetched = _ from hall]; simp [feed_array])

/-- **What has been printed** is the beginning of what is expected, and all of it at an end. -/
theorem system_printed (hpos : ∀ c ∈ caps, 0 < c) (h : (system caps A).Reach s) :
    s.printed <+: expected A ∧ ((∀ a, s.next A a = none) → s.printed = expected A) := by
  have hpre : s.fetched <+: (feed_array A).map sortWord := ⟨_, (chain_inv (system_stream h)).flow⟩
  have hprinted : s.printed <+: expected A := by
    rw [← line_sorted]
    exact hpre.map line
  refine ⟨hprinted, fun hend => hprinted.eq_of_length ?_⟩
  rw [System.printed, List.length_map, system_end hpos h hend]
  simp [expected]

/-! ## From the file to the lines -/

variable {outside : Int → UInt32}

/-- A number as it is written in the file. -/
def render (v : Int) : List Char := (if v < 0 then ['-'] else []) ++ Nat.toDigits 10 v.natAbs

/-- The file begins with the numbers `vs`, after white space each. -/
def Listing : List Int → List Char → Prop
  | [], _ => True
  | v :: vs, text => ∃ sep rest, (∀ c ∈ sep, isSpace c = true) ∧ text = sep ++ (render v ++ rest) ∧
      (∀ c ∈ rest.head?, c.isDigit = false) ∧ Listing vs rest

theorem scanDigits_append {ds rest : List Char} (hds : ∀ c ∈ ds, c.isDigit = true)
    (hrest : ∀ c ∈ rest.head?, c.isDigit = false) (n : Nat) :
    scanDigits n (ds ++ rest) = (Nat.ofDigitChars 10 ds n, rest) := by
  induction ds generalizing n with
  | nil =>
    cases rest with
    | nil => rfl
    | cons c cs => simp [scanDigits, hrest c (by simp)]
  | cons c cs ih =>
    rw [List.cons_append, scanDigits, if_pos (hds c List.mem_cons_self),
      ih fun d hd => hds d (List.mem_cons_of_mem c hd), Nat.ofDigitChars_cons]

theorem isDigit_of_mem {n : Nat} : ∀ c ∈ Nat.toDigits 10 n, c.isDigit = true :=
  fun _ hc => Nat.isDigit_of_mem_toDigits (by omega) (by omega) hc

theorem not_isSpace_of_isDigit {c : Char} (h : c.isDigit = true) : isSpace c = false := by
  have h48 : 48 ≤ c.toNat := by
    simp only [Char.isDigit, Bool.and_eq_true, decide_eq_true_eq] at h
    exact h.1
  have hspace : c ≠ ' ' := by
    rintro rfl
    exact absurd h48 (by decide)
  have hcr : ¬ c ≤ '\r' := by
    intro hle
    have : c.toNat ≤ 13 := hle
    omega
  simp [isSpace, hspace, hcr]

/-- White space before a text that does not begin with any is skipped. -/
theorem dropWhile_isSpace {sep text : List Char} (hsep : ∀ c ∈ sep, isSpace c = true)
    (htext : ∀ c ∈ text.head?, isSpace c = false) :
    (sep ++ text).dropWhile isSpace = text := by
  rw [List.dropWhile_append_of_pos hsep]
  cases text with
  | nil => rfl
  | cons c cs => rw [List.dropWhile_cons_of_neg (by simp [htext c (by simp)])]

/-- **What is written in decimal is read back.** -/
theorem scan_render {sep rest : List Char} (v : Int) (hsep : ∀ c ∈ sep, isSpace c = true)
    (hrest : ∀ c ∈ rest.head?, c.isDigit = false) :
    scan (sep ++ (render v ++ rest)) = (some v, rest) := by
  have hne : Nat.toDigits 10 v.natAbs ≠ [] := Nat.toDigits_ne_nil
  obtain ⟨c, cs, hdigits⟩ := List.exists_cons_of_ne_nil hne
  have hc : c.isDigit = true := isDigit_of_mem c (by rw [hdigits]; exact List.mem_cons_self)
  have hscan : scanDigits 0 (c :: (cs ++ rest)) = (v.natAbs, rest) := by
    have := @scanDigits_append (Nat.toDigits 10 v.natAbs) _ isDigit_of_mem hrest 0
    rwa [Nat.ofDigitChars_ten_toDigits, hdigits] at this
  unfold render
  rw [hdigits]
  by_cases hv : v < 0
  · rw [if_pos hv, scan, dropWhile_isSpace hsep (by simp; decide)]
    simp only [List.cons_append, List.nil_append, scanSign, hc, if_true, hscan]
    rw [show -1 * (v.natAbs : Int) = v by omega]
  · have hsign : scanSign (c :: (cs ++ rest)) = (1, c :: (cs ++ rest)) := by
      unfold scanSign
      split
      · rename_i heq
        rw [(List.cons.inj heq).1] at hc
        exact absurd hc (by decide)
      · rename_i heq
        rw [(List.cons.inj heq).1] at hc
        exact absurd hc (by decide)
      · rfl
    rw [if_neg hv, scan, dropWhile_isSpace hsep (by simpa using not_isSpace_of_isDigit hc)]
    simp only [List.cons_append, List.nil_append, hsign, hc, if_true, hscan]
    rw [show 1 * (v.natAbs : Int) = v by omega]

/-- The elements of `A` in the order of `read_array`. -/
def cells : List (Fin 5 × Fin 16) :=
  (List.finRange 5).flatMap fun i => (List.finRange 16).map fun j => (i, j)

theorem read_array_cells (outside : Int → UInt32) (A : Rows) (text : List Char) :
    read_array outside A text =
      (cells.foldl (fun s p => scanInto outside p.1 p.2 s) (A, text)).1 := by
  unfold read_array cells
  rw [List.foldl_flatMap]
  simp only [List.foldl_map]

def entry (A : Rows) (p : Fin 5 × Fin 16) : UInt32 := A[p.1][p.2]

theorem entry_set (A : Rows) (p q : Fin 5 × Fin 16) (v : UInt32) :
    entry (setEntry A p.1 p.2 v) q = if q = p then v else entry A q := by
  obtain ⟨i, j⟩ := p
  obtain ⟨k, l⟩ := q
  unfold entry setEntry
  by_cases hik : k = i
  · subst hik
    by_cases hjl : l = j
    · subst hjl
      simp
    · simp [hjl, Fin.val_inj, Ne.symm hjl]
  · simp [hik, Fin.val_inj, Ne.symm hik]

/-- **The numbers of a file go to the elements of `A` in order**, and nowhere else. -/
theorem foldl_scanInto : ∀ (ps : List (Fin 5 × Fin 16)) (vs : List Int) (A : Rows)
    (text : List Char), Listing vs text → ps.length = vs.length → ps.Nodup →
    let A' := (ps.foldl (fun s p => scanInto outside p.1 p.2 s) (A, text)).1
    (∀ x ∈ ps.zip vs, entry A' x.1 = stored outside x.2) ∧ ∀ p, p ∉ ps → entry A' p = entry A p
  | [], _, _, _, _, _, _ => ⟨by simp, fun _ _ => rfl⟩
  | _ :: _, [], _, _, _, hlen, _ => by simp at hlen
  | p :: ps, v :: vs, A, text, ⟨sep, rest, hsep, htext, hrest, hlist⟩, hlen, hnodup => by
    have hscan : scanInto outside p.1 p.2 (A, text) =
        (setEntry A p.1 p.2 (stored outside v), rest) := by
      simp only [scanInto, htext, scan_render v hsep hrest]
    obtain ⟨hmem, hnodup⟩ := List.nodup_cons.mp hnodup
    obtain ⟨hin, hout⟩ := foldl_scanInto ps vs (setEntry A p.1 p.2 (stored outside v)) rest
      hlist (by simpa using hlen) hnodup
    rw [List.foldl_cons, hscan]
    refine ⟨fun x hx => ?_, fun q hq => ?_⟩
    · rw [List.zip_cons_cons, List.mem_cons] at hx
      rcases hx with rfl | hx
      · rw [hout p hmem, entry_set, if_pos rfl]
      · exact hin x hx
    · rw [List.mem_cons, not_or] at hq
      rw [hout q hq.2, entry_set, if_neg hq.1]

/-- **Eighty numbers fill the rows.** -/
theorem read_array_listing {vs : List Int} {text : List Char} (h : Listing vs text)
    (hlen : vs.length = 80) (A : Rows) (i : Nat) (hi : i < 5) :
    (read_array outside A text)[i].toList =
      ((vs.drop (16 * i)).take 16).map (stored outside) := by
  obtain ⟨hin, -⟩ := foldl_scanInto cells vs A text h (by rw [hlen]; rfl) (by decide)
  rw [read_array_cells]
  apply List.ext_getElem
  · simp
    omega
  · intro j h1 h2
    have hj : j < 16 := by simpa using h1
    have hcell : cells[16 * i + j]? = some (⟨i, hi⟩, ⟨j, hj⟩) := by
      have hall : ∀ (i : Fin 5) (j : Fin 16), cells[16 * i.val + j.val]? = some (i, j) := by decide
      exact hall ⟨i, hi⟩ ⟨j, hj⟩
    have hlt : 16 * i + j < vs.length := by omega
    have hmem : ((⟨i, hi⟩, ⟨j, hj⟩), vs[16 * i + j]) ∈ cells.zip vs := by
      refine List.mem_of_getElem? (i := 16 * i + j) ?_
      rw [List.getElem?_zip_eq_some]
      exact ⟨hcell, List.getElem?_eq_getElem hlt⟩
    have hentry := hin _ hmem
    unfold entry at hentry
    simpa using hentry

/-- The lines for eighty numbers: five times sixteen of them, taken as bytes, sorted, and five
lines of zeros. -/
def sortedLines (vs : List Int) : List (List UInt8) :=
  (List.range 5).map (fun i => (((vs.drop (16 * i)).take 16).map UInt8.ofInt).mergeSort) ++
    List.replicate 5 (List.replicate 16 0)

theorem toUInt8_ofInt (v : Int) : (UInt32.ofInt v).toUInt8 = UInt8.ofInt v := by
  apply UInt8.toNat_inj.mp
  simp [UInt32.ofInt, UInt8.ofInt]
  omega

theorem expected_listing {vs : List Int} {text : List Char} (h : Listing vs text)
    (hlen : vs.length = 80) (hint : ∀ v ∈ vs, IsInt v) (A : Rows) :
    expected (read_array outside A text) = sortedLines vs := by
  refine congrArg (· ++ List.replicate 5 (List.replicate 16 0)) ?_
  apply List.ext_getElem (by simp)
  intro i h1 h2
  have hi : i < 5 := by simpa using h2
  simp only [List.getElem_map, List.getElem_range, sortedRow, Vector.getElem_toList]
  rw [read_array_listing h hlen A i hi, List.map_map]
  congr 1
  apply List.map_congr_left
  intro v hv
  have hmem : v ∈ vs := List.mem_of_mem_drop (List.mem_of_mem_take hv)
  rw [Function.comp_apply, stored, if_pos (hint v hmem)]
  exact toUInt8_ofInt v

/-- **The simulation sorts the rows of its file.** For every file that begins with eighty values of
an `int`, channels of any positive capacities and every order in which the threads of the test bench
and of the modules take their steps: no simulation goes on for ever; what has been printed is the
beginning of the sorted rows followed by five lines of zeros; and when nothing can happen any more,
all of it has been printed. -/
theorem system_sorts_file (outside : Int → UInt32) (caps : List Nat) (hpos : ∀ c ∈ caps, 0 < c)
    (A : Rows) (vs : List Int) (text : List Char) (hfile : Listing vs text)
    (hlen : vs.length = 80) (hint : ∀ v ∈ vs, IsInt v) :
    (∀ run, ¬ (system caps (read_array outside A text)).Endless (fun _ _ => True) run) ∧
    ∀ s, (system caps (read_array outside A text)).Reach s → s.printed <+: sortedLines vs ∧
      ((∀ a, s.next (read_array outside A text) a = none) → s.printed = sortedLines vs) := by
  refine ⟨system_endless _, fun s h => ?_⟩
  rw [← expected_listing hfile hlen hint A]
  exact system_printed hpos h

/-! ### A file -/

/-- Numbers with a blank before each. -/
def blankSeparated (vs : List Int) : List Char := vs.flatMap fun v => ' ' :: render v

theorem listing_blankSeparated : ∀ vs : List Int, Listing vs (blankSeparated vs)
  | [] => trivial
  | v :: vs => by
    refine ⟨[' '], blankSeparated vs, by simp [isSpace], rfl, ?_, listing_blankSeparated vs⟩
    cases vs with
    | nil => simp [blankSeparated]
    | cons w vs =>
      intro c hc
      cases hc
      rfl

/-- The numbers of `test_array.txt`. -/
def test_array : List Int :=
  [13, 15, 14, 16, 12, 11, 9, 5, 4, 3, 2, 1, 10, 8, 7, 6,
    1, 14, 12, 4, 5, 6, 16, 8, 10, 9, 11, 3, 15, 2, 13, 7,
    13, 1, 14, 16, 12, 11, 9, 5, 4, 3, 2, 15, 10, 8, 7, 6,
    9, 5, 15, 6, 13, 14, 7, 10, 8, 4, 2, 1, 12, 3, 11, 16,
    16, 5, 1, 6, 12, 14, 7, 8, 10, 4, 2, 15, 13, 3, 11, 9]

/-- Channels of a single word: some simulation of `test_array.txt` prints all of its lines. -/
theorem system_sorts_file_test_array : ∃ A s,
    (system [1, 1, 1, 1, 1] A).Reach s ∧ s.printed = sortedLines test_array := by
  have hall := system_sorts_file UInt32.ofInt [1, 1, 1, 1, 1] (by decide)
    (Vector.replicate 5 (Vector.replicate 16 0)) test_array (blankSeparated test_array)
    (listing_blankSeparated test_array) rfl (by decide)
  have hinit : (system [1, 1, 1, 1, 1] (read_array UInt32.ofInt
      (Vector.replicate 5 (Vector.replicate 16 0)) (blankSeparated test_array))).init
        ⟨Chain.boot 1, 0, []⟩ :=
    ⟨⟨⟨rfl, rfl, rfl, rfl⟩, rfl, rfl, rfl, rfl, rfl⟩, rfl, rfl, rfl⟩
  refine ⟨_, (Machine.ReachBy.init hinit).complete System.down_wf fun s hs hend => ?_⟩
  by_contra hno
  refine hend ((hall.2 s hs).2 fun a => ?_)
  by_contra hne
  obtain ⟨s', hn⟩ := Option.ne_none_iff_exists'.mp hne
  exact hno ⟨a, s', trivial, hn, System.next_down (system_fetched_le hs) hn⟩

end SortPlatform.Stratus

import Mathlib.Data.List.Basic

/-!
# Histories

A history is the list of the events so far, first event first.

* `Every` — each event of a history, judged by the events before it.
* `latest` — the value of the last event that has one.
-/

set_option autoImplicit false

namespace History

variable {ε β : Type*}

/-- Every event meets `P` with the events before it. -/
def Every (P : List ε → ε → Prop) (log : List ε) : Prop :=
  ∀ before e after, log = before ++ e :: after → P before e

variable {P : List ε → ε → Prop} {f : ε → Option β} {log : List ε} {e : ε}

@[simp] theorem every_nil : Every P [] := by
  intro before e after h
  simp at h

/-- **One event more.** -/
@[simp] theorem every_snoc : Every P (log ++ [e]) ↔ Every P log ∧ P log e := by
  refine ⟨fun h => ⟨fun before e' after heq => ?_, h log e [] rfl⟩, fun ⟨h, he⟩ => ?_⟩
  · exact h before e' (after ++ [e]) (by rw [heq]; simp)
  · intro before e' after heq
    rcases List.eq_nil_or_concat after with rfl | ⟨after', e'', rfl⟩
    · obtain ⟨rfl, hlast⟩ := List.append_inj' heq rfl
      rw [← List.head_eq_of_cons_eq hlast]
      exact he
    · have hcons : before ++ e' :: (after' ++ [e'']) = (before ++ e' :: after') ++ [e''] := by simp
      rw [List.concat_eq_append, hcons] at heq
      exact h before e' after' (List.append_inj' heq rfl).1

/-- The value of the last event that has one. -/
def latest (f : ε → Option β) (log : List ε) : Option β := (log.filterMap f).getLast?

@[simp] theorem latest_snoc : latest f (log ++ [e]) = (f e).or (latest f log) := by
  unfold latest
  rw [List.filterMap_append]
  cases hf : f e with
  | none => simp [hf]
  | some v => simp [hf]

end History

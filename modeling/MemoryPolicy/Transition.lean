import Mathlib.Data.Option.Basic

/-! Runs of a labelled transition system whose step function may refuse an action.  A run takes
only allowed actions, where what is allowed may depend on the state. -/

namespace Transition

variable {σ α : Type*}

/-- The states that runs of allowed actions reach from `s`. -/
inductive Reaches (step : σ → α → Option σ) (allowed : σ → α → Prop) (s : σ) : σ → Prop
  | refl : Reaches step allowed s s
  | next {t u : σ} {a : α} (run : Reaches step allowed s t) (ok : allowed t a)
      (taken : step t a = some u) : Reaches step allowed s u

namespace Reaches

variable {step : σ → α → Option σ} {allowed : σ → α → Prop} {s t : σ}

/-- What holds at the start and is preserved by each allowed step holds in every state reached. -/
theorem invariant {I : σ → Prop} (run : Reaches step allowed s t) (start : I s)
    (preserved : ∀ t a u, I t → allowed t a → step t a = some u → I u) : I t := by
  induction run with
  | refl => exact start
  | next _ ok taken ih => exact preserved _ _ _ ih ok taken

theorem mono {allowed' : σ → α → Prop} (run : Reaches step allowed s t)
    (weaker : ∀ t a, allowed t a → allowed' t a) : Reaches step allowed' s t := by
  induction run with
  | refl => exact .refl
  | next _ ok taken ih => exact ih.next (weaker _ _ ok) taken

end Reaches

abbrev Free (step : σ → α → Option σ) (s t : σ) : Prop := Reaches step (fun _ _ => True) s t

/-- The state after a list of actions, if each of them is allowed and taken. -/
def run (step : σ → α → Option σ) (allowed : σ → α → Prop) [∀ s a, Decidable (allowed s a)] (s : σ)
    (actions : List α) : Option σ :=
  actions.foldlM (fun s a => if allowed s a then step s a else none) s

theorem reaches_of_run {step : σ → α → Option σ} {allowed : σ → α → Prop}
    [∀ s a, Decidable (allowed s a)] {actions : List α} {r s t : σ}
    (before : Reaches step allowed r s) (taken : run step allowed s actions = some t) :
    Reaches step allowed r t := by
  induction actions generalizing s with
  | nil => exact Option.some.inj taken ▸ before
  | cons a actions ih =>
    rw [run, List.foldlM_cons] at taken
    obtain ⟨u, first, rest⟩ := Option.bind_eq_some_iff.mp taken
    obtain ⟨ok, first⟩ := Option.ite_none_right_eq_some.mp first
    exact ih (before.next ok first) rest

/-- What holds of each event of a history and the events before it. -/
def Throughout (P : List α → α → Prop) (history : List α) : Prop :=
  ∀ before event after, history = before ++ event :: after → P before event

theorem throughout_nil (P : List α → α → Prop) : Throughout P [] := by
  intro before event after h
  simp at h

theorem Throughout.concat {P : List α → α → Prop} {history : List α} {event : α}
    (h : Throughout P history) (last : P history event) : Throughout P (history ++ [event]) := by
  intro before event' after split
  rcases List.eq_nil_or_concat after with rfl | ⟨rest, a, rfl⟩
  · obtain ⟨rfl, same⟩ := List.append_inj' split rfl
    exact (List.cons.inj same).1 ▸ last
  · rw [List.concat_eq_append, ← List.cons_append, ← List.append_assoc] at split
    exact h _ _ _ (List.append_inj' split rfl).1

end Transition

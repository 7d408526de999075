import MemoryPolicy.Retention.Model

/-! Raised thresholds.  A rule whose threshold is raised may reject a candidate that it deferred, or
defer one that it kept, and otherwise decides as before.  So the first rule that fires keeps no
candidate that was not kept before. -/

namespace MemoryPolicy

/-- The second rule is the first one, with its threshold raised or left as it is. -/
inductive RetentionRule.Tightens : RetentionRule → RetentionRule → Prop
  | same (rule : RetentionRule) : Tightens rule rule
  | keepRecent {low high : UInt64} (raised : low ≤ high) :
    Tightens (.keepRecent low) (.keepRecent high)
  | dropWrittenBefore {low high : UInt64} (raised : low ≤ high) :
    Tightens (.dropWrittenBefore low) (.dropWrittenBefore high)
  | dropLastAccessedBefore {low high : UInt64} (raised : low ≤ high) :
    Tightens (.dropLastAccessedBefore low) (.dropLastAccessedBefore high)
  | invalidateExpired {low high : UInt64} (raised : low ≤ high) :
    Tightens (.invalidateExpired low) (.invalidateExpired high)

structure RetentionPolicy.Tightens (policy tighter : RetentionPolicy) : Prop where
  rules : List.Forall₂ RetentionRule.Tightens policy.rules tighter.rules
  default : policy.defaultDecision = tighter.defaultDecision

namespace RetentionDecision

/-- What raising a threshold can do to the decision of a rule. -/
inductive Tightens : RetentionDecision → RetentionDecision → Prop
  | same (d : RetentionDecision) : Tightens d d
  | releases : Tightens .keep .defer
  | rejects {d : RetentionDecision} (h : d ≠ .keep) : Tightens .defer d

theorem tightens_guard_keep {p q : Prop} [Decidable p] [Decidable q] (h : q → p) :
    Tightens (if p then .keep else .defer) (if q then .keep else .defer) := by
  by_cases hq : q
  · rw [if_pos (h hq), if_pos hq]
    exact .same _
  · rw [if_neg hq]
    split
    · exact .releases
    · exact .same _

theorem tightens_guard_reject {p q : Prop} [Decidable p] [Decidable q] (h : p → q)
    {d : RetentionDecision} (hd : d ≠ .keep) :
    Tightens (if p then d else .defer) (if q then d else .defer) := by
  by_cases hp : p
  · rw [if_pos hp, if_pos (h hp)]
    exact .same _
  · rw [if_neg hp]
    split
    · exact .rejects hd
    · exact .same _

theorem tightens_getD {α : Type} {f g : α → RetentionDecision} (h : ∀ a, (f a).Tightens (g a))
    (x : Option α) : Tightens ((x.map f).getD .defer) ((x.map g).getD .defer) := by
  cases x with
  | none => exact .same _
  | some a => exact h a

end RetentionDecision

variable {F32 : Type}

open RetentionDecision in
theorem RetentionRule.tightens_evaluate {rule tighter : RetentionRule} (h : rule.Tightens tighter)
    (candidate : RetentionCandidate F32) :
    (rule.evaluate candidate).Tightens (tighter.evaluate candidate) := by
  cases h with
  | same => exact .same _
  | keepRecent raised =>
    apply tightens_getD
    intro sequence
    exact tightens_guard_keep fun recent => UInt64.le_trans raised recent
  | dropWrittenBefore raised =>
    apply tightens_getD
    intro writtenAt
    exact tightens_guard_reject (fun old => UInt64.lt_of_lt_of_le old raised) (by decide)
  | dropLastAccessedBefore raised =>
    apply tightens_getD
    intro lastAccessed
    exact tightens_guard_reject (fun old => UInt64.lt_of_lt_of_le old raised) (by decide)
  | invalidateExpired raised =>
    apply tightens_getD
    intro validTo
    exact tightens_guard_reject (fun expired => UInt64.le_trans expired raised) (by decide)

namespace RetentionPolicy

theorem evaluate_cons (rule : RetentionRule) (rules : List RetentionRule)
    (default : RetentionDecision) (candidate : RetentionCandidate F32) :
    (RetentionPolicy.mk (rule :: rules) default).evaluate candidate =
      if rule.evaluate candidate = .defer then (RetentionPolicy.mk rules default).evaluate candidate
      else rule.evaluate candidate := by
  simp only [evaluate, List.map_cons, List.find?_cons]
  by_cases h : rule.evaluate candidate = .defer <;> simp [h]

theorem evaluate_keep_of_tightens {policy tighter : RetentionPolicy} (h : policy.Tightens tighter)
    (candidate : RetentionCandidate F32) (kept : tighter.evaluate candidate = .keep) :
    policy.evaluate candidate = .keep := by
  obtain ⟨rules, default⟩ := policy
  obtain ⟨rules', default'⟩ := tighter
  obtain ⟨hrules, hdefault⟩ := h
  simp only at hrules hdefault
  subst hdefault
  induction hrules with
  | nil => exact kept
  | @cons rule rule' rules rules' head tail ih =>
    rw [evaluate_cons] at kept ⊢
    have step := RetentionRule.tightens_evaluate head candidate
    generalize rule.evaluate candidate = d at step ⊢
    generalize rule'.evaluate candidate = d' at step kept
    cases step with
    | same =>
      split at kept
      · rename_i deferred
        rw [if_pos deferred, ih kept]
      · rename_i decided
        rw [if_neg decided, kept]
    | releases => rfl
    | rejects hd =>
      split at kept
      · rw [if_pos rfl, ih kept]
      · exact absurd kept hd

/-- Raising thresholds resurrects no candidate.  So when the thresholds of a policy follow a clock
that only advances, a candidate that is not kept at some time is not kept later. -/
theorem evaluate_tightens (candidate : RetentionCandidate F32) :
    (∀ policy tighter : RetentionPolicy, policy.Tightens tighter →
      tighter.evaluate candidate = .keep → policy.evaluate candidate = .keep) ∧
    (∀ policyAt : UInt64 → RetentionPolicy,
      (∀ now later, now ≤ later → (policyAt now).Tightens (policyAt later)) →
      ∀ now later, now ≤ later → (policyAt now).evaluate candidate ≠ .keep →
        (policyAt later).evaluate candidate ≠ .keep) := by
  refine ⟨fun _ _ h => evaluate_keep_of_tightens h candidate, ?_⟩
  intro policyAt advances now later hle rejected kept
  exact rejected (evaluate_keep_of_tightens (advances now later hle) candidate kept)

end RetentionPolicy

end MemoryPolicy

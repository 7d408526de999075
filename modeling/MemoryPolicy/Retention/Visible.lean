import MemoryPolicy.Retention.Binary
import MemoryPolicy.Retention.Refinement
import MemoryPolicy.Sieve.Rewrite

/-! What a policy sees of a candidate.  Its decisions, alone and in a batch, depend on the kind of
the frame, the segments of its scope and the facts of the backend; they depend neither on the
identity of the frame nor on which entry it supersedes. -/

namespace MemoryPolicy

open Sieve

variable {F32 F64 : Type} [F32Ops F32 F64] [F64Ops F64] {ι : Type}

/-- The candidates are the same but for what no rule looks at. -/
structure SameFacts (a b : RetentionCandidate F32) : Prop where
  kind : a.metadata.kind = b.metadata.kind
  scope : a.metadata.scope.map scopePath = b.metadata.scope.map scopePath
  sequence : a.sequence = b.sequence
  writtenAtUnixMs : a.writtenAtUnixMs = b.writtenAtUnixMs
  lastAccessedUnixMs : a.lastAccessedUnixMs = b.lastAccessedUnixMs
  retentionLabel : a.retentionLabel = b.retentionLabel
  validFromUnixMs : a.validFromUnixMs = b.validFromUnixMs
  validToUnixMs : a.validToUnixMs = b.validToUnixMs
  supersedes : a.supersedes.isSome = b.supersedes.isSome
  importance : a.importance = b.importance

theorem map_normalizeScope_of_path {s s' : Option String} (h : s.map scopePath = s'.map scopePath) :
    s.map normalizeScope = s'.map normalizeScope := by
  have joined : ∀ scope : Option String,
      scope.map normalizeScope = (scope.map scopePath).map ("/".intercalate ·) := by
    intro scope
    cases scope <;> rfl
  rw [joined, joined, h]

theorem scopeMatches_of_path (required : Option String) {s s' : Option String}
    (h : s.map scopePath = s'.map scopePath) :
    scopeMatches required s = scopeMatches required s' := by
  have same := map_normalizeScope_of_path h
  cases required with
  | some r =>
    have looks : ∀ s : Option String, scopeMatches (some r) s =
        ((s.map normalizeScope).map (· == normalizeScope r)).getD false := by
      intro s
      cases s <;> rfl
    rw [looks, looks, same]
  | none =>
    have looks : ∀ s : Option String, scopeMatches none s =
        ((s.map normalizeScope).map (· == "")).getD true := by
      intro s
      cases s <;> rfl
    rw [looks, looks, same]

theorem matches_eq_scopeMatches (scope : Scope) (candidate : Option String) :
    scope.matches candidate = scopeMatches (some scope.asStr) candidate := by
  obtain ⟨value, normalized⟩ := scope
  have same : Scope.new value = ⟨value, normalized⟩ := by simp only [Scope.new, normalized]
  rw [scopeMatches, Scope.asStr, same]

namespace SameFacts

variable {a b : RetentionCandidate F32}

theorem evaluate (h : SameFacts a b) (rule : RetentionRule) :
    rule.evaluate a = rule.evaluate b := by
  cases rule with
  | keepFrameKind kind => simp only [RetentionRule.evaluate, h.kind]
  | keepScope scope =>
    simp only [RetentionRule.evaluate, matches_eq_scopeMatches, scopeMatches_of_path _ h.scope]
  | dropOutsideScope required =>
    simp only [RetentionRule.evaluate, scopeMatches_of_path _ h.scope]
  | keepRecent _ => simp only [RetentionRule.evaluate, h.sequence]
  | dropWrittenBefore _ => simp only [RetentionRule.evaluate, h.writtenAtUnixMs]
  | dropLastAccessedBefore _ => simp only [RetentionRule.evaluate, h.lastAccessedUnixMs]
  | invalidateExpired _ => simp only [RetentionRule.evaluate, h.validToUnixMs]
  | invalidateSuperseded => simp only [RetentionRule.evaluate, h.supersedes]
  | keepLabel _ => simp only [RetentionRule.evaluate, h.retentionLabel]
  | dropLabel _ => simp only [RetentionRule.evaluate, h.retentionLabel]
  | keepMostRecent _ => rfl
  | keepTopBySalience _ _ _ => rfl

theorem salience (h : SameFacts a b) (asOfUnixMs halfLifeMs : UInt64) :
    a.salience asOfUnixMs halfLifeMs = b.salience asOfUnixMs halfLifeMs := by
  simp only [RetentionCandidate.salience, h.importance, h.validFromUnixMs, h.writtenAtUnixMs]

end SameFacts

theorem RetentionRule.alike_of_sameFacts {view view' : ι → RetentionCandidate F32} {pool : List ι}
    (h : ∀ e ∈ pool, SameFacts (view e) (view' e)) (rule : RetentionRule) :
    Stage.Alike pool (rule.stage.comap view) (rule.stage.comap view') := by
  have opinions : ∀ rule : RetentionRule, Stage.Alike pool
      (.each fun e => rule.opinion (view e)) (.each fun e => rule.opinion (view' e)) := by
    intro rule
    apply Stage.alike_each
    intro e he
    rw [opinion, opinion, (h e he).evaluate]
  cases rule with
  | keepMostRecent count =>
    apply Stage.alike_top
    intro a ha b hb
    show mostRecentFirst _ _ = mostRecentFirst _ _
    simp only [mostRecentFirst, (h a ha).sequence, (h a ha).writtenAtUnixMs, (h b hb).sequence,
      (h b hb).writtenAtUnixMs]
  | keepTopBySalience count halfLifeMs asOfUnixMs =>
    apply Stage.alike_top
    intro a ha b hb
    show mostSalientFirst _ _ _ _ = mostSalientFirst _ _ _ _
    simp only [mostSalientFirst, (h a ha).salience, (h b hb).salience]
  | _ => exact opinions _

/-- The decisions on frames, alone and in a batch, are those on frames with another version,
conversation, role and dedup key, other references to what they supersede, and other writings of
their scopes. -/
theorem RetentionPolicy.evaluateBatchBy_of_sameFacts (policy : RetentionPolicy)
    {view view' : ι → RetentionCandidate F32} {entries : List ι}
    (h : ∀ e ∈ entries, SameFacts (view e) (view' e)) :
    (∀ e ∈ entries, policy.evaluate (view e) = policy.evaluate (view' e)) ∧
      policy.evaluateBatchBy view entries = policy.evaluateBatchBy view' entries := by
  constructor
  · intro e he
    have alone : (fun rule : RetentionRule => rule.evaluate (view e)) =
        fun rule => rule.evaluate (view' e) := funext (h e he).evaluate
    rw [evaluate, evaluate, alone]
  · have same : policy.verdicts view entries = policy.verdicts view' entries :=
      verdicts_congr (fun rule _ => rule.alike_of_sameFacts h) _
    rw [evaluateBatchBy_eq, evaluateBatchBy_eq, same]

/-- One frame under two writings of its scope, with another identity each. -/
theorem RetentionPolicy.evaluateBatchBy_of_sameFacts_written :
    let written (key scope : String) : RetentionCandidate Binary32 :=
      { metadata := ⟨1, .compactionSummary, key, "assistant", key, some scope⟩ }
    let policy : RetentionPolicy := ⟨[.keepScope (Scope.new "tenant-a")], .drop⟩
    policy.evaluateBatchBy (fun _ : Unit => written "a" "/tenant-a/") [()] =
      policy.evaluateBatchBy (fun _ => written "b" "tenant-a") [()] := by
  intro written policy
  have same : ∀ e ∈ [()], SameFacts (written "a" "/tenant-a/") (written "b" "tenant-a") :=
    fun _ _ => ⟨rfl, by decide, rfl, rfl, rfl, rfl, rfl, rfl, rfl, rfl⟩
  exact (policy.evaluateBatchBy_of_sameFacts same).2

end MemoryPolicy

import MemoryPolicy.Retention.Binary
import MemoryPolicy.Retention.Top
import MemoryPolicy.Scope.Matching

/-! The builders of candidates and policies in `src/retention.rs`, and the reports of the two
policies that the pipelines of the crate build: one keeps the summaries of a scope, the other
invalidates stale facts and keeps the most salient of the rest. -/

namespace MemoryPolicy

open Sieve StableSort

/-- The literal `0.0` of `f32`, and its order. -/
class ClampOps (F32 : Type) where
  zero : F32
  lt : F32 → F32 → Bool

instance : ClampOps Binary32 where
  zero := ⟨(0.0 : Float32).toBits⟩
  lt x y := Float32.ofBits x.bits < Float32.ofBits y.bits

/-- `f32::clamp` -/
def clamp {F32 : Type} [ClampOps F32] (x min max : F32) : F32 :=
  let x := if ClampOps.lt x min then min else x
  if ClampOps.lt max x then max else x

namespace RetentionCandidate

variable {F32 F64 : Type} [F32Ops F32 F64]

def new (metadata : FrameMetadata) : RetentionCandidate F32 := { metadata }

def withSequence (self : RetentionCandidate F32) (sequence : UInt64) : RetentionCandidate F32 :=
  { self with sequence := some sequence }

def withWrittenAtUnixMs (self : RetentionCandidate F32) (writtenAtUnixMs : UInt64) :
    RetentionCandidate F32 :=
  { self with writtenAtUnixMs := some writtenAtUnixMs }

def withLastAccessedUnixMs (self : RetentionCandidate F32) (lastAccessedUnixMs : UInt64) :
    RetentionCandidate F32 :=
  { self with lastAccessedUnixMs := some lastAccessedUnixMs }

def withRetentionLabel (self : RetentionCandidate F32) (retentionLabel : String) :
    RetentionCandidate F32 :=
  { self with retentionLabel := some retentionLabel }

def withValidFromUnixMs (self : RetentionCandidate F32) (validFromUnixMs : UInt64) :
    RetentionCandidate F32 :=
  { self with validFromUnixMs := some validFromUnixMs }

def withValidToUnixMs (self : RetentionCandidate F32) (validToUnixMs : UInt64) :
    RetentionCandidate F32 :=
  { self with validToUnixMs := some validToUnixMs }

def withSupersedes (self : RetentionCandidate F32) (supersedes : String) :
    RetentionCandidate F32 :=
  { self with supersedes := some supersedes }

def withImportance [ClampOps F32] (self : RetentionCandidate F32) (importance : F32) :
    RetentionCandidate F32 :=
  { self with importance := some (clamp importance ClampOps.zero F32Ops.one) }

/-- A call of a builder, with its argument. -/
inductive Call (F32 : Type)
  | withSequence (sequence : UInt64)
  | withWrittenAtUnixMs (writtenAtUnixMs : UInt64)
  | withLastAccessedUnixMs (lastAccessedUnixMs : UInt64)
  | withRetentionLabel (retentionLabel : String)
  | withValidFromUnixMs (validFromUnixMs : UInt64)
  | withValidToUnixMs (validToUnixMs : UInt64)
  | withSupersedes (supersedes : String)
  | withImportance (importance : F32)

def call [ClampOps F32] (self : RetentionCandidate F32) : Call F32 → RetentionCandidate F32
  | .withSequence sequence => self.withSequence sequence
  | .withWrittenAtUnixMs writtenAtUnixMs => self.withWrittenAtUnixMs writtenAtUnixMs
  | .withLastAccessedUnixMs lastAccessedUnixMs => self.withLastAccessedUnixMs lastAccessedUnixMs
  | .withRetentionLabel retentionLabel => self.withRetentionLabel retentionLabel
  | .withValidFromUnixMs validFromUnixMs => self.withValidFromUnixMs validFromUnixMs
  | .withValidToUnixMs validToUnixMs => self.withValidToUnixMs validToUnixMs
  | .withSupersedes supersedes => self.withSupersedes supersedes
  | .withImportance importance => self.withImportance importance

/-- The candidate of a frame after some calls of builders. -/
def built [ClampOps F32] (metadata : FrameMetadata) (calls : List (Call F32)) :
    RetentionCandidate F32 :=
  calls.foldl call (new metadata)

theorem metadata_call [ClampOps F32] (self : RetentionCandidate F32) (c : Call F32) :
    (self.call c).metadata = self.metadata := by
  cases c <;> rfl

/-- Whatever facts a backend attaches, the candidate presents its frame. -/
theorem metadata_built [ClampOps F32] (metadata : FrameMetadata) (calls : List (Call F32)) :
    (built metadata calls).metadata = metadata := by
  have kept : ∀ self : RetentionCandidate F32,
      (calls.foldl call self).metadata = self.metadata := by
    induction calls with
    | nil => exact fun _ => rfl
    | cons c calls ih => exact fun self => (ih (self.call c)).trans (metadata_call self c)
  exact kept (new metadata)

end RetentionCandidate

namespace RetentionPolicy

def new : RetentionPolicy := {}

def rule (self : RetentionPolicy) (rule : RetentionRule) : RetentionPolicy :=
  { self with rules := self.rules ++ [rule] }

/-- `RetentionPolicy::default_decision` -/
def withDefaultDecision (self : RetentionPolicy) (decision : RetentionDecision) :
    RetentionPolicy :=
  { self with defaultDecision := decision }

def keepSummaries (self : RetentionPolicy) : RetentionPolicy :=
  self.rule (.keepFrameKind .compactionSummary)

def keepDemotedMessages (self : RetentionPolicy) : RetentionPolicy :=
  self.rule (.keepFrameKind .demotedMessage)

/-- `RetentionPolicy::keep_scope`.  The conversion into a `Scope` is `Scope::new`. -/
def keepScope (self : RetentionPolicy) (scope : String) : RetentionPolicy :=
  self.rule (.keepScope (Scope.new scope))

def keepMostRecent (self : RetentionPolicy) (count : Nat) : RetentionPolicy :=
  self.rule (.keepMostRecent count)

def keepTopBySalience (self : RetentionPolicy) (count : Nat) (halfLifeMs asOfUnixMs : UInt64) :
    RetentionPolicy :=
  self.rule (.keepTopBySalience count halfLifeMs asOfUnixMs)

def invalidateExpired (self : RetentionPolicy) (asOfUnixMs : UInt64) : RetentionPolicy :=
  self.rule (.invalidateExpired asOfUnixMs)

def invalidateSuperseded (self : RetentionPolicy) : RetentionPolicy :=
  self.rule .invalidateSuperseded

def keepRecent (self : RetentionPolicy) (minSequence : UInt64) : RetentionPolicy :=
  self.rule (.keepRecent minSequence)

def dropWrittenBefore (self : RetentionPolicy) (olderThanUnixMs : UInt64) : RetentionPolicy :=
  self.rule (.dropWrittenBefore olderThanUnixMs)

def dropLastAccessedBefore (self : RetentionPolicy) (olderThanUnixMs : UInt64) :
    RetentionPolicy :=
  self.rule (.dropLastAccessedBefore olderThanUnixMs)

/-- `RetentionPolicy::drop_outside_scope`.  The conversion into a `Scope` is `Scope::new`. -/
def dropOutsideScope (self : RetentionPolicy) (requiredScope : Option String) : RetentionPolicy :=
  self.rule (.dropOutsideScope (requiredScope.map Scope.new))

def keepLabel (self : RetentionPolicy) (label : String) : RetentionPolicy :=
  self.rule (.keepLabel label)

def dropLabel (self : RetentionPolicy) (label : String) : RetentionPolicy :=
  self.rule (.dropLabel label)

/-! ### The policies of the pipelines -/

section Pipelines

variable {F32 F64 : Type} [F32Ops F32 F64] [F64Ops F64]

/-- Drop what is outside the scope, keep the summaries, and drop the rest. -/
def summariesOf (required : String) : RetentionPolicy :=
  ((new.dropOutsideScope (some required)).keepSummaries).withDefaultDecision .drop

/-- Invalidate the expired and the superseding facts, keep the most salient others, and drop the
rest. -/
def mostSalientFacts (count : Nat) (halfLifeMs asOfUnixMs : UInt64) : RetentionPolicy :=
  (((new.invalidateExpired asOfUnixMs).invalidateSuperseded).keepTopBySalience count halfLifeMs
    asOfUnixMs).withDefaultDecision .drop

/-- The candidate has a scope with the segments of `required`. -/
def InScope (required : String) (c : RetentionCandidate F32) : Prop :=
  c.metadata.scope.map scopePath = some (scopePath required)

instance (required : String) (c : RetentionCandidate F32) : Decidable (InScope required c) :=
  inferInstanceAs (Decidable (_ = _))

theorem scopeMatches_some_iff (required : String) (candidate : Option String) :
    scopeMatches (some required) candidate = true ↔
      candidate.map scopePath = some (scopePath required) := by
  cases candidate with
  | none => simp [scopeMatches_some_none]
  | some c =>
    rw [scopeMatches_some_some, Option.map_some, Option.some_inj]
    exact eq_comm

/-- The candidate's valid time has ended. -/
def Expired (asOfUnixMs : UInt64) (c : RetentionCandidate F32) : Prop :=
  ∃ validTo ∈ c.validToUnixMs, validTo ≤ asOfUnixMs

instance (asOfUnixMs : UInt64) (c : RetentionCandidate F32) : Decidable (Expired asOfUnixMs c) :=
  inferInstanceAs (Decidable (∃ validTo ∈ c.validToUnixMs, validTo ≤ asOfUnixMs))

theorem evaluate_dropOutsideScope (required : String) (c : RetentionCandidate F32) :
    (RetentionRule.dropOutsideScope (some (Scope.new required))).evaluate c =
      if InScope required c then .defer else .drop := by
  have matched : scopeMatches (some (Scope.new required).asStr) c.metadata.scope = true ↔
      InScope required c := by
    rw [scopeMatches_some_iff, InScope, Scope.asStr, Scope.new, scopePath_normalizeScope]
  simp only [RetentionRule.evaluate, Option.map_some, matched]

theorem opinion_dropOutsideScope (required : String) :
    (RetentionRule.dropOutsideScope (some (Scope.new required))).opinion =
      fun c : RetentionCandidate F32 => if ¬ InScope required c then some .drop else none := by
  funext c
  rw [RetentionRule.opinion, evaluate_dropOutsideScope]
  by_cases h : InScope required c <;> simp [h]

theorem opinion_keepFrameKind (kind : FrameKind) :
    (RetentionRule.keepFrameKind kind).opinion =
      fun c : RetentionCandidate F32 => if c.metadata.kind = kind then some .keep else none := by
  funext c
  by_cases h : c.metadata.kind = kind <;> simp [RetentionRule.opinion, RetentionRule.evaluate, h]

theorem opinion_invalidateExpired (asOfUnixMs : UInt64) :
    (RetentionRule.invalidateExpired asOfUnixMs).opinion =
      fun c : RetentionCandidate F32 =>
        if Expired asOfUnixMs c then some .invalidate else none := by
  funext c
  cases hv : c.validToUnixMs with
  | none => simp [RetentionRule.opinion, RetentionRule.evaluate, Expired, hv]
  | some validTo =>
    by_cases h : validTo ≤ asOfUnixMs <;>
      simp [RetentionRule.opinion, RetentionRule.evaluate, Expired, hv, h]

theorem opinion_invalidateSuperseded :
    RetentionRule.invalidateSuperseded.opinion =
      fun c : RetentionCandidate F32 => if c.supersedes ≠ none then some .invalidate else none := by
  funext c
  cases h : c.supersedes <;> simp [RetentionRule.opinion, RetentionRule.evaluate, h]

theorem evaluate_summariesOf (required : String) (c : RetentionCandidate F32) :
    (summariesOf required).evaluate c =
      if c.metadata.kind = .compactionSummary ∧ InScope required c then .keep else .drop := by
  have rules : (summariesOf required).rules = [.dropOutsideScope (some (Scope.new required)),
      .keepFrameKind .compactionSummary] := rfl
  rw [evaluate, rules, List.map_cons, List.map_cons, List.map_nil, evaluate_dropOutsideScope]
  by_cases inside : InScope required c
  · by_cases summary : c.metadata.kind = .compactionSummary <;>
      simp [RetentionRule.evaluate, inside, summary, summariesOf, withDefaultDecision]
  · simp [inside]

theorem verdicts_summariesOf (required : String) (candidates : List (RetentionCandidate F32)) :
    (summariesOf required).verdicts id candidates =
      (candidates.filter fun c => ¬ InScope required c).map (fun c => (c, .drop)) ++
        ((candidates.filter fun c =>
            c.metadata.kind = .compactionSummary ∧ InScope required c).map (fun c => (c, .keep)) ++
          (candidates.filter fun c =>
            c.metadata.kind ≠ .compactionSummary ∧ InScope required c).map
              fun c => (c, .drop)) := by
  have unfolded : (summariesOf required).verdicts id candidates = Sieve.verdicts
      [.each (RetentionRule.dropOutsideScope (some (Scope.new required))).opinion,
        .each (RetentionRule.keepFrameKind .compactionSummary).opinion] .drop candidates := rfl
  rw [unfolded, opinion_dropOutsideScope, opinion_keepFrameKind, verdicts_cons, verdicts_cons,
    Stage.settled_ite, Stage.settled_ite, Stage.passed_ite, Stage.passed_ite, Sieve.verdicts,
    Sieve.settled, Sieve.passed, List.nil_append]
  simp

/-- The batch keeps the summaries of the scope and drops everything else. -/
theorem evaluateBatch_summariesOf (required : String)
    (candidates : List (RetentionCandidate F32)) :
    (summariesOf required).evaluateBatch candidates =
      { keep := candidates.filter fun c =>
          c.metadata.kind = .compactionSummary ∧ InScope required c
        drop := (candidates.filter fun c => ¬ InScope required c) ++
          candidates.filter fun c =>
            c.metadata.kind ≠ .compactionSummary ∧ InScope required c } := by
  ext d : 1
  rw [evaluateBatch, bucket_evaluateBatchBy, verdicts_summariesOf]
  simp only [entriesWith_append, entriesWith_const]
  cases d <;> simp [RetentionReport.bucket]

theorem verdicts_mostSalientFacts (count : Nat) (halfLifeMs asOfUnixMs : UInt64)
    (candidates : List (RetentionCandidate F32)) :
    let live := candidates.filter fun c => ¬ Expired asOfUnixMs c ∧ c.supersedes = none
    let ranked := sortBy (mostSalient asOfUnixMs halfLifeMs).cmp live
    (mostSalientFacts count halfLifeMs asOfUnixMs).verdicts id candidates =
      (candidates.filter fun c => Expired asOfUnixMs c).map (fun c => (c, .invalidate)) ++
        ((candidates.filter fun c => ¬ Expired asOfUnixMs c ∧ c.supersedes ≠ none).map
            (fun c => (c, .invalidate)) ++
          ((ranked.take count).map (fun c => (c, .keep)) ++
            (ranked.drop count).map fun c => (c, .drop))) := by
  intro live ranked
  have unfolded : (mostSalientFacts count halfLifeMs asOfUnixMs).verdicts id candidates =
      Sieve.verdicts
        [.each (RetentionRule.invalidateExpired asOfUnixMs).opinion,
          .each RetentionRule.invalidateSuperseded.opinion,
          .top (mostSalient asOfUnixMs halfLifeMs) count .keep] .drop candidates := rfl
  have current (p : RetentionCandidate F32 → Prop) [DecidablePred p] :
      ((candidates.filter fun c => ¬ Expired asOfUnixMs c).filter fun c => p c) =
        candidates.filter fun c => ¬ Expired asOfUnixMs c ∧ p c := by
    rw [List.filter_filter]
    simp only [Bool.decide_and, Bool.and_comm]
  have others : ((candidates.filter fun c => ¬ Expired asOfUnixMs c).filter fun c =>
      ¬ c.supersedes ≠ none) = live := by
    rw [current]
    simp only [not_not, live]
  rw [unfolded, opinion_invalidateExpired, opinion_invalidateSuperseded, verdicts_cons,
    verdicts_cons, verdicts_cons, Stage.settled_ite, Stage.settled_ite, Stage.passed_ite,
    Stage.passed_ite, current, others]
  rfl

/-- The batch invalidates the facts whose valid time has ended and then those that supersede
another one.  Of the others it keeps the most salient ones, and it drops the rest. -/
theorem evaluateBatch_mostSalientFacts (count : Nat) (halfLifeMs asOfUnixMs : UInt64)
    (candidates : List (RetentionCandidate F32)) :
    let report := (mostSalientFacts count halfLifeMs asOfUnixMs).evaluateBatch candidates
    KeepsTop (compareSalience asOfUnixMs halfLifeMs) count
        (candidates.filter fun c => ¬ Expired asOfUnixMs c ∧ c.supersedes = none)
        report.keep report.drop ∧
      report.invalidate = (candidates.filter fun c => Expired asOfUnixMs c) ++
        (candidates.filter fun c => ¬ Expired asOfUnixMs c ∧ c.supersedes ≠ none) ∧
      report.defer = [] := by
  intro report
  have buckets : ∀ d, report.bucket d = entriesWith d _ :=
    bucket_evaluateBatchBy id (mostSalientFacts count halfLifeMs asOfUnixMs) candidates
  simp only [verdicts_mostSalientFacts, entriesWith_append, entriesWith_const] at buckets
  have kept := buckets .keep
  have dropped := buckets .drop
  have invalidated := buckets .invalidate
  have deferred := buckets .defer
  simp only [RetentionReport.bucket, reduceCtorEq, if_true, if_false, List.nil_append,
    List.append_nil] at kept dropped invalidated deferred
  refine ⟨?_, invalidated, deferred⟩
  rw [kept, dropped]
  exact keepsTop_sortBy (mostSalient asOfUnixMs halfLifeMs) count _

end Pipelines

end RetentionPolicy

end MemoryPolicy

import MemoryPolicy.Metadata.Frame
import MemoryPolicy.Scope
import MemoryPolicy.StableSort

/-! Retention policies as `src/retention.rs` evaluates them: one candidate at a time, and a batch at
once.  The loops of `evaluate_batch` run over entries that present a candidate; the source's
batches are those whose entries are the candidates themselves.  An entry can also carry a position
or an identifier, which traces the candidate through the same loops. -/

namespace MemoryPolicy

open StableSort

/-- The `f64` operations of `salience`: the literal `0.5`, the cast from `u64` and the functions
that are called.  The comparator `total_cmp` is a total order. -/
class F64Ops (F64 : Type) where
  half : F64
  ofU64 : UInt64 → F64
  div : F64 → F64 → F64
  mul : F64 → F64 → F64
  powf : F64 → F64 → F64
  totalCmp : F64 → F64 → Ordering
  totalCmp_trans : Std.TransCmp totalCmp
  totalCmp_eq : ∀ a b, totalCmp a b = .eq → a = b

/-- The literal `1.0` of `f32`, and the conversion to `f64`. -/
class F32Ops (F32 : Type) (F64 : outParam Type) where
  one : F32
  toF64 : F32 → F64

structure RetentionCandidate (F32 : Type) where
  metadata : FrameMetadata
  sequence : Option UInt64 := none
  writtenAtUnixMs : Option UInt64 := none
  lastAccessedUnixMs : Option UInt64 := none
  retentionLabel : Option String := none
  validFromUnixMs : Option UInt64 := none
  validToUnixMs : Option UInt64 := none
  supersedes : Option String := none
  importance : Option F32 := none
deriving DecidableEq

def saturatingSub (a b : UInt64) : UInt64 := if b ≤ a then a - b else 0

def RetentionCandidate.salience {F32 F64 : Type} [F32Ops F32 F64] [F64Ops F64]
    (self : RetentionCandidate F32) (asOfUnixMs halfLifeMs : UInt64) : F64 :=
  let importance := F32Ops.toF64 (self.importance.getD F32Ops.one)
  match self.validFromUnixMs.or self.writtenAtUnixMs with
  | none => importance
  | some reference =>
    if halfLifeMs = 0 then importance
    else
      let age := saturatingSub asOfUnixMs reference
      let decay := F64Ops.powf F64Ops.half (F64Ops.div (F64Ops.ofU64 age) (F64Ops.ofU64 halfLifeMs))
      F64Ops.mul importance decay

inductive RetentionDecision
  | keep
  | drop
  | invalidate
  | defer
deriving DecidableEq, Repr

/-- `RetentionRule`.  A count is a `usize` that is only compared with the number kept. -/
inductive RetentionRule
  | keepFrameKind (kind : FrameKind)
  | keepScope (scope : Scope)
  | keepRecent (minSequence : UInt64)
  | dropWrittenBefore (olderThanUnixMs : UInt64)
  | dropLastAccessedBefore (olderThanUnixMs : UInt64)
  | dropOutsideScope (requiredScope : Option Scope)
  | keepMostRecent (count : Nat)
  | invalidateExpired (asOfUnixMs : UInt64)
  | invalidateSuperseded
  | keepTopBySalience (count : Nat) (halfLifeMs asOfUnixMs : UInt64)
  | keepLabel (label : String)
  | dropLabel (label : String)
deriving DecidableEq

structure RetentionPolicy where
  rules : List RetentionRule := []
  defaultDecision : RetentionDecision := .defer
deriving DecidableEq

section Evaluate

variable {F32 : Type}

def RetentionRule.evaluate (self : RetentionRule) (candidate : RetentionCandidate F32) :
    RetentionDecision :=
  match self with
  | .keepFrameKind kind => if candidate.metadata.kind = kind then .keep else .defer
  | .keepScope scope =>
    if Scope.matches scope candidate.metadata.scope then .keep else .defer
  | .keepMostRecent _ => .defer
  | .keepTopBySalience _ _ _ => .defer
  | .invalidateExpired asOfUnixMs =>
    (candidate.validToUnixMs.map fun validTo =>
      if validTo ≤ asOfUnixMs then .invalidate else .defer).getD .defer
  | .invalidateSuperseded => if candidate.supersedes.isSome then .invalidate else .defer
  | .keepRecent minSequence =>
    (candidate.sequence.map fun sequence =>
      if sequence ≥ minSequence then .keep else .defer).getD .defer
  | .dropWrittenBefore olderThanUnixMs =>
    (candidate.writtenAtUnixMs.map fun writtenAt =>
      if writtenAt < olderThanUnixMs then .drop else .defer).getD .defer
  | .dropLastAccessedBefore olderThanUnixMs =>
    (candidate.lastAccessedUnixMs.map fun lastAccessed =>
      if lastAccessed < olderThanUnixMs then .drop else .defer).getD .defer
  | .dropOutsideScope requiredScope =>
    if scopeMatches (requiredScope.map Scope.asStr) candidate.metadata.scope then .defer else .drop
  | .keepLabel label => if candidate.retentionLabel = some label then .keep else .defer
  | .dropLabel label => if candidate.retentionLabel = some label then .drop else .defer

def RetentionPolicy.evaluate (self : RetentionPolicy) (candidate : RetentionCandidate F32) :
    RetentionDecision :=
  ((self.rules.map fun rule => rule.evaluate candidate).find? fun decision =>
    decision ≠ .defer).getD self.defaultDecision

end Evaluate

/-- `RetentionReport`, of entries that present a candidate. -/
structure RetentionReport (ι : Type) where
  keep : List ι := []
  drop : List ι := []
  invalidate : List ι := []
  defer : List ι := []
deriving DecidableEq, Repr

section Batch

variable {F32 F64 : Type} [F32Ops F32 F64] [F64Ops F64] {ι : Type}
  (view : ι → RetentionCandidate F32)

/-- The comparator of `KeepMostRecent`: larger sequences first, then later write timestamps. -/
def mostRecentFirst (a b : RetentionCandidate F32) : Ordering :=
  (compare b.sequence a.sequence).then (compare b.writtenAtUnixMs a.writtenAtUnixMs)

/-- The comparator of `KeepTopBySalience`: larger scores first. -/
def mostSalientFirst (asOfUnixMs halfLifeMs : UInt64) (a b : RetentionCandidate F32) : Ordering :=
  F64Ops.totalCmp (b.salience asOfUnixMs halfLifeMs) (a.salience asOfUnixMs halfLifeMs)

/-- The split loop of the batch rules: the first `count` entries go to `keep`, the others to
`next_batch`. -/
def keepFirst (count : Nat) (report : RetentionReport ι) (currentBatch : List ι) :
    RetentionReport ι × List ι :=
  let (report, nextBatch, _) := currentBatch.foldl
    (fun (report, nextBatch, kept) candidate =>
      if kept < count then ({ report with keep := report.keep ++ [candidate] }, nextBatch, kept + 1)
      else (report, nextBatch ++ [candidate], kept))
    (report, [], 0)
  (report, nextBatch)

/-- The loop of the other rules: each entry goes where its own decision says. -/
def routeEach (rule : RetentionRule) (report : RetentionReport ι) (currentBatch : List ι) :
    RetentionReport ι × List ι :=
  currentBatch.foldl
    (fun (report, nextBatch) candidate =>
      match rule.evaluate (view candidate) with
      | .keep => ({ report with keep := report.keep ++ [candidate] }, nextBatch)
      | .drop => ({ report with drop := report.drop ++ [candidate] }, nextBatch)
      | .invalidate => ({ report with invalidate := report.invalidate ++ [candidate] }, nextBatch)
      | .defer => (report, nextBatch ++ [candidate]))
    (report, [])

/-- The body of the loop of `evaluate_batch` over the rules. -/
def RetentionRule.applyBatch (self : RetentionRule) (report : RetentionReport ι)
    (currentBatch : List ι) : RetentionReport ι × List ι :=
  match self with
  | .keepMostRecent count =>
    keepFirst count report
      (sortBy (fun a b => mostRecentFirst (view a) (view b)) currentBatch)
  | .keepTopBySalience count halfLifeMs asOfUnixMs =>
    keepFirst count report
      (sortBy (fun a b => mostSalientFirst asOfUnixMs halfLifeMs (view a) (view b)) currentBatch)
  | rule => routeEach view rule report currentBatch

/-- The loop of `evaluate_batch` over the rules, with its early exit. -/
def applyRules : List RetentionRule → RetentionReport ι → List ι → RetentionReport ι × List ι
  | [], report, currentBatch => (report, currentBatch)
  | rule :: rules, report, currentBatch =>
    if currentBatch.isEmpty then (report, currentBatch)
    else
      let (report, nextBatch) := rule.applyBatch view report currentBatch
      applyRules rules report nextBatch

/-- The last loop of `evaluate_batch`: the entries that are left get the default decision. -/
def applyDefault (defaultDecision : RetentionDecision) (report : RetentionReport ι)
    (currentBatch : List ι) : RetentionReport ι :=
  currentBatch.foldl
    (fun report candidate =>
      match defaultDecision with
      | .keep => { report with keep := report.keep ++ [candidate] }
      | .drop => { report with drop := report.drop ++ [candidate] }
      | .invalidate => { report with invalidate := report.invalidate ++ [candidate] }
      | .defer => { report with defer := report.defer ++ [candidate] })
    report

/-- `RetentionPolicy::evaluate_batch`, of entries that present a candidate. -/
def RetentionPolicy.evaluateBatchBy (self : RetentionPolicy) (candidates : List ι) :
    RetentionReport ι :=
  let (report, currentBatch) := applyRules view self.rules {} candidates
  applyDefault self.defaultDecision report currentBatch

def RetentionPolicy.evaluateBatch (self : RetentionPolicy)
    (candidates : List (RetentionCandidate F32)) : RetentionReport (RetentionCandidate F32) :=
  self.evaluateBatchBy id candidates

end Batch

end MemoryPolicy

import MemoryPolicy.Retention.Model
import MemoryPolicy.Sieve.Basic

/-! `evaluate_batch` refines a sieve: each rule is a stage, and the report of the loops is the
sieve's list of verdicts, sorted into buckets. -/

namespace MemoryPolicy

open StableSort

variable {F32 F64 : Type} [F32Ops F32 F64] [F64Ops F64] {ι κ : Type}

/-! ### Rules as stages -/

instance : Std.TransCmp (F64Ops.totalCmp : F64 → F64 → Ordering) := F64Ops.totalCmp_trans

def mostRecent : Sieve.Ranking (RetentionCandidate F32) where
  cmp := mostRecentFirst
  trans := inferInstanceAs <| Std.TransCmp <| compareLex
    (fun a b : RetentionCandidate F32 => compareOn RetentionCandidate.sequence b a)
    (fun a b => compareOn RetentionCandidate.writtenAtUnixMs b a)

def mostSalient (asOfUnixMs halfLifeMs : UInt64) : Sieve.Ranking (RetentionCandidate F32) :=
  Sieve.Ranking.comap (fun c => c.salience asOfUnixMs halfLifeMs)
    ⟨fun a b : F64 => F64Ops.totalCmp b a, inferInstance⟩

def RetentionRule.opinion (rule : RetentionRule) (candidate : RetentionCandidate F32) :
    Option RetentionDecision :=
  if rule.evaluate candidate = .defer then none else some (rule.evaluate candidate)

/-- The stage of a sieve that a rule is. -/
def RetentionRule.stage : RetentionRule → Sieve.Stage (RetentionCandidate F32) RetentionDecision
  | .keepMostRecent count => .top mostRecent count .keep
  | .keepTopBySalience count halfLifeMs asOfUnixMs =>
    .top (mostSalient asOfUnixMs halfLifeMs) count .keep
  | rule => .each rule.opinion

def stages (view : ι → RetentionCandidate F32) (rules : List RetentionRule) :
    List (Sieve.Stage ι RetentionDecision) :=
  rules.map fun rule => rule.stage.comap view

theorem stages_cons (view : ι → RetentionCandidate F32) (rule : RetentionRule)
    (rules : List RetentionRule) :
    stages view (rule :: rules) = rule.stage.comap view :: stages view rules :=
  rfl

@[simp] theorem stages_append (view : ι → RetentionCandidate F32)
    (front back : List RetentionRule) :
    stages view (front ++ back) = stages view front ++ stages view back :=
  List.map_append

/-! ### Reports as verdicts -/

def entriesWith (d : RetentionDecision) (verdicts : List (ι × RetentionDecision)) : List ι :=
  (verdicts.filter fun v => v.2 = d).map Prod.fst

@[simp] theorem entriesWith_nil (d : RetentionDecision) :
    entriesWith d ([] : List (ι × RetentionDecision)) = [] := rfl

@[simp] theorem entriesWith_append (d : RetentionDecision)
    (xs ys : List (ι × RetentionDecision)) :
    entriesWith d (xs ++ ys) = entriesWith d xs ++ entriesWith d ys := by
  simp [entriesWith]

theorem entriesWith_const (d e : RetentionDecision) (xs : List ι) :
    entriesWith d (xs.map fun a => (a, e)) = if e = d then xs else [] := by
  by_cases h : e = d <;> simp [entriesWith, List.filter_map, Function.comp_def, h]

theorem mem_entriesWith {d : RetentionDecision} {verdicts : List (ι × RetentionDecision)} {a : ι} :
    a ∈ entriesWith d verdicts ↔ (a, d) ∈ verdicts := by
  simp [entriesWith]

namespace RetentionReport

def bucket (report : RetentionReport ι) : RetentionDecision → List ι
  | .keep => report.keep
  | .drop => report.drop
  | .invalidate => report.invalidate
  | .defer => report.defer

@[ext] theorem ext_bucket {r s : RetentionReport ι} (h : ∀ d, r.bucket d = s.bucket d) : r = s := by
  cases r
  cases s
  exact RetentionReport.mk.injEq .. ▸ ⟨h .keep, h .drop, h .invalidate, h .defer⟩

/-- The report with more entries, in order, each in the bucket of its verdict. -/
def record (report : RetentionReport ι) (verdicts : List (ι × RetentionDecision)) :
    RetentionReport ι where
  keep := report.keep ++ entriesWith .keep verdicts
  drop := report.drop ++ entriesWith .drop verdicts
  invalidate := report.invalidate ++ entriesWith .invalidate verdicts
  defer := report.defer ++ entriesWith .defer verdicts

@[simp] theorem bucket_record (report : RetentionReport ι) (d : RetentionDecision)
    (verdicts : List (ι × RetentionDecision)) :
    (report.record verdicts).bucket d = report.bucket d ++ entriesWith d verdicts := by
  cases d <;> rfl

@[simp] theorem bucket_empty (d : RetentionDecision) : ({} : RetentionReport ι).bucket d = [] := by
  cases d <;> rfl

@[simp] theorem record_nil (report : RetentionReport ι) : report.record [] = report := by
  ext d : 1
  simp

@[simp] theorem record_record (report : RetentionReport ι)
    (xs ys : List (ι × RetentionDecision)) :
    (report.record xs).record ys = report.record (xs ++ ys) := by
  ext d : 1
  simp

theorem record_keep (report : RetentionReport ι) (xs : List ι) :
    report.record (xs.map fun a => (a, .keep)) = { report with keep := report.keep ++ xs } := by
  ext d : 1
  cases d <;> simp [bucket, record, entriesWith_const]

end RetentionReport

/-! ### The loops -/

/-- A loop over a list computes any function that satisfies its two equations. -/
theorem foldl_eq_of_cons {σ α : Type} {step : σ → α → σ} (result : σ → List α → σ)
    (nil : ∀ s, result s [] = s)
    (cons : ∀ s a as, result s (a :: as) = result (step s a) as) (s : σ) (as : List α) :
    as.foldl step s = result s as := by
  induction as generalizing s with
  | nil => exact (nil s).symm
  | cons a as ih => rw [List.foldl_cons, ih, cons]

section Loops

variable (view : ι → RetentionCandidate F32)

theorem keepFirst_eq (count : Nat) (report : RetentionReport ι) (currentBatch : List ι) :
    keepFirst count report currentBatch =
      (report.record ((currentBatch.take count).map fun c => (c, .keep)),
        currentBatch.drop count) := by
  let result (s : RetentionReport ι × List ι × Nat) (xs : List ι) :
      RetentionReport ι × List ι × Nat :=
    (s.1.record ((xs.take (count - s.2.2)).map fun c => (c, .keep)),
      s.2.1 ++ xs.drop (count - s.2.2), s.2.2 + min (count - s.2.2) xs.length)
  unfold keepFirst
  rw [foldl_eq_of_cons result]
  · simp [result]
  · intro s
    simp [result]
  · intro s c xs
    obtain ⟨report, next, kept⟩ := s
    by_cases room : kept < count
    · obtain ⟨n, hn⟩ : ∃ n, count - kept = n + 1 := ⟨count - kept - 1, by omega⟩
      have hn' : count - (kept + 1) = n := by omega
      simp only [result, room, if_true, hn, hn']
      refine Prod.ext ?_ (Prod.ext ?_ ?_)
      · ext d : 1
        cases d <;> simp [RetentionReport.bucket, RetentionReport.record, entriesWith]
      · simp
      · simp only [List.length_cons]
        omega
    · have hn : count - kept = 0 := by omega
      simp [result, room, hn]

theorem routeEach_eq (rule : RetentionRule) (report : RetentionReport ι) (currentBatch : List ι) :
    routeEach view rule report currentBatch =
      (report.record ((Sieve.Stage.each fun c => rule.opinion (view c)).settled currentBatch),
        (Sieve.Stage.each fun c => rule.opinion (view c)).passed currentBatch) := by
  let result (s : RetentionReport ι × List ι) (xs : List ι) : RetentionReport ι × List ι :=
    (s.1.record ((Sieve.Stage.each fun c => rule.opinion (view c)).settled xs),
      s.2 ++ (Sieve.Stage.each fun c => rule.opinion (view c)).passed xs)
  unfold routeEach
  rw [foldl_eq_of_cons result]
  · simp [result]
  · intro s
    simp [result]
  · intro s c xs
    obtain ⟨report, next⟩ := s
    cases h : rule.evaluate (view c) <;>
    · simp only [result]
      refine Prod.ext ?_ ?_
      · ext d : 1
        cases d <;> simp [RetentionReport.bucket, RetentionReport.record, entriesWith,
          Sieve.Stage.settled, RetentionRule.opinion, h]
      · simp [Sieve.Stage.passed, RetentionRule.opinion, h]

/-- One rule of `evaluate_batch` is one stage of the sieve. -/
theorem applyBatch_eq (rule : RetentionRule) (report : RetentionReport ι)
    (currentBatch : List ι) :
    rule.applyBatch view report currentBatch =
      (report.record ((rule.stage.comap view).settled currentBatch),
        (rule.stage.comap view).passed currentBatch) := by
  cases rule with
  | keepMostRecent count => exact keepFirst_eq count report _
  | keepTopBySalience count halfLifeMs asOfUnixMs => exact keepFirst_eq count report _
  | _ => exact routeEach_eq view _ report currentBatch

/-- Any stable sort of the pool by the ranking of a batch rule leads to the report of the rule. -/
theorem applyBatch_of_stable {rule : RetentionRule}
    {ranking : Sieve.Ranking (RetentionCandidate F32)} {count : Nat}
    (top : rule.stage = .top ranking count .keep) (report : RetentionReport ι)
    {sorted currentBatch : List ι}
    (ordered : sorted.Pairwise (AtOrBefore (ranking.comap view).cmp))
    (stable : ∀ a, ties (ranking.comap view).cmp a sorted =
      ties (ranking.comap view).cmp a currentBatch) :
    keepFirst count report sorted = rule.applyBatch view report currentBatch := by
  have := (ranking.comap view).trans
  rw [eq_sortBy_of_stable ordered stable, keepFirst_eq, applyBatch_eq, top]
  rfl

/-- The loop over the rules runs the stages of the sieve; its early exit changes nothing. -/
theorem applyRules_eq (rules : List RetentionRule) (report : RetentionReport ι)
    (currentBatch : List ι) :
    applyRules view rules report currentBatch =
      (report.record (Sieve.settled (stages view rules) currentBatch),
        Sieve.passed (stages view rules) currentBatch) := by
  induction rules generalizing report currentBatch with
  | nil => simp [applyRules, stages, Sieve.settled, Sieve.passed]
  | cons rule rules ih =>
    cases currentBatch with
    | nil => simp [applyRules]
    | cons c cs =>
      simp only [applyRules, List.isEmpty_cons, Bool.false_eq_true, if_false, applyBatch_eq, ih,
        RetentionReport.record_record]
      rfl

theorem applyDefault_eq (defaultDecision : RetentionDecision) (report : RetentionReport ι)
    (currentBatch : List ι) :
    applyDefault defaultDecision report currentBatch =
      report.record (currentBatch.map fun c => (c, defaultDecision)) := by
  let result (report : RetentionReport ι) (xs : List ι) : RetentionReport ι :=
    report.record (xs.map fun c => (c, defaultDecision))
  unfold applyDefault
  rw [foldl_eq_of_cons result]
  · intro report
    simp [result]
  · intro report c xs
    cases defaultDecision <;>
    · ext d : 1
      cases d <;> simp [result, RetentionReport.bucket, RetentionReport.record, entriesWith]

namespace RetentionPolicy

def verdicts (policy : RetentionPolicy) (candidates : List ι) : List (ι × RetentionDecision) :=
  Sieve.verdicts (stages view policy.rules) policy.defaultDecision candidates

/-- `evaluate_batch` reports the verdicts of the sieve. -/
theorem evaluateBatchBy_eq (policy : RetentionPolicy) (candidates : List ι) :
    policy.evaluateBatchBy view candidates =
      ({} : RetentionReport ι).record (policy.verdicts view candidates) := by
  simp only [evaluateBatchBy, applyRules_eq, applyDefault_eq, RetentionReport.record_record]
  rfl

@[simp] theorem bucket_evaluateBatchBy (policy : RetentionPolicy) (candidates : List ι)
    (d : RetentionDecision) :
    (policy.evaluateBatchBy view candidates).bucket d =
      entriesWith d (policy.verdicts view candidates) := by
  rw [evaluateBatchBy_eq, RetentionReport.bucket_record, RetentionReport.bucket_empty,
    List.nil_append]

end RetentionPolicy

end Loops

end MemoryPolicy

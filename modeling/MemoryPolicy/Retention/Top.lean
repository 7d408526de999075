import MemoryPolicy.Retention.Binary
import MemoryPolicy.Retention.Refinement
import MemoryPolicy.Sieve.Top

/-! The batch rules by rank.  At its place in a policy, `KeepMostRecent` or `KeepTopBySalience`
keeps the top of the pool that reaches it, and the pool's order decides among equal ranks. -/

namespace MemoryPolicy

open StableSort Sieve

variable {F32 F64 : Type} [F32Ops F32 F64] [F64Ops F64] {ι : Type}

/-- A missing value is below every present one. -/
def compareMissing : Option UInt64 → Option UInt64 → Ordering
  | none, none => .eq
  | none, some _ => .lt
  | some _, none => .gt
  | some a, some b => compare a b

/-- By sequence, then by write timestamp. -/
def compareRecency (a b : RetentionCandidate F32) : Ordering :=
  (compareMissing a.sequence b.sequence).then
    (compareMissing a.writtenAtUnixMs b.writtenAtUnixMs)

def compareSalience (asOfUnixMs halfLifeMs : UInt64) (a b : RetentionCandidate F32) : Ordering :=
  F64Ops.totalCmp (a.salience asOfUnixMs halfLifeMs) (b.salience asOfUnixMs halfLifeMs)

/-- The batch rules, each with its count and the order by which it ranks candidates. -/
inductive RetentionRule.Ranks : RetentionRule → Nat →
    (RetentionCandidate F32 → RetentionCandidate F32 → Ordering) → Prop
  | keepMostRecent (count : Nat) : Ranks (.keepMostRecent count) count compareRecency
  | keepTopBySalience (count : Nat) (halfLifeMs asOfUnixMs : UInt64) :
    Ranks (.keepTopBySalience count halfLifeMs asOfUnixMs) count
      (compareSalience asOfUnixMs halfLifeMs)

theorem compare_eq_compareMissing (a b : Option UInt64) : compare a b = compareMissing a b := by
  cases a <;> cases b <;> rfl

theorem mostRecentFirst_eq (a b : RetentionCandidate F32) :
    mostRecentFirst a b = compareRecency b a := by
  rw [mostRecentFirst, compare_eq_compareMissing, compare_eq_compareMissing, compareRecency]

/-- A batch rule is a `top` stage, ranked from the highest candidate to the lowest. -/
theorem RetentionRule.Ranks.stage_eq {rule : RetentionRule} {count : Nat}
    {rank : RetentionCandidate F32 → RetentionCandidate F32 → Ordering}
    (h : rule.Ranks count rank) :
    ∃ r : Ranking (RetentionCandidate F32), rule.stage = .top r count .keep ∧
      ∀ a b, r.cmp b a = rank a b := by
  cases h with
  | keepMostRecent => exact ⟨mostRecent, rfl, fun a b => mostRecentFirst_eq b a⟩
  | keepTopBySalience => exact ⟨mostSalient _ _, rfl, fun a b => rfl⟩

theorem RetentionRule.Ranks.applyBatch_eq (view : ι → RetentionCandidate F32)
    {rule : RetentionRule} {count : Nat}
    {rank : RetentionCandidate F32 → RetentionCandidate F32 → Ordering}
    (h : rule.Ranks count rank) (report : RetentionReport ι) (pool : List ι) :
    ∃ chosen passed, KeepsTop (fun a b => rank (view a) (view b)) count pool chosen passed ∧
      rule.applyBatch view report pool =
        ({ report with keep := report.keep ++ chosen }, passed) := by
  obtain ⟨r, hstage, hrank⟩ := h.stage_eq
  have top := keepsTop_sortBy (r.comap view) count pool
  have ranks : (fun a b => (r.comap view).cmp b a) = fun a b => rank (view a) (view b) := by
    funext a b
    exact hrank (view a) (view b)
  rw [ranks] at top
  refine ⟨_, _, top, ?_⟩
  rw [MemoryPolicy.applyBatch_eq, hstage]
  exact Prod.ext (RetentionReport.record_keep report _) rfl

/-- What `evaluate_batch` does from a rule on. -/
theorem applyRules_append_cons {view : ι → RetentionCandidate F32}
    {before after : List RetentionRule} {rule : RetentionRule}
    {report reached next : RetentionReport ι} {candidates pool passed : List ι}
    (reach : applyRules view before report candidates = (reached, pool))
    (step : rule.applyBatch view reached pool = (next, passed)) :
    applyRules view (before ++ rule :: after) report candidates =
      applyRules view after next passed := by
  rw [applyRules_eq, Prod.mk.injEq] at reach
  rw [applyBatch_eq, Prod.mk.injEq] at step
  obtain ⟨rfl, rfl⟩ := reach
  obtain ⟨rfl, rfl⟩ := step
  rw [applyRules_eq, applyRules_eq, stages_append, stages_cons, settled_append, passed_append,
    settled, passed, RetentionReport.record_record, RetentionReport.record_record]

/-- A batch rule, at any place in a policy, keeps exactly the top of the pool that reaches it. -/
theorem RetentionPolicy.batchRule_keeps_top (view : ι → RetentionCandidate F32)
    (before after : List RetentionRule) (defaultDecision : RetentionDecision)
    {rule : RetentionRule} {count : Nat}
    {rank : RetentionCandidate F32 → RetentionCandidate F32 → Ordering}
    (ranks : rule.Ranks count rank) (candidates : List ι) :
    ∃ report pool chosen passed final rest,
      applyRules view before {} candidates = (report, pool) ∧
      rule.applyBatch view report pool =
        ({ report with keep := report.keep ++ chosen }, passed) ∧
      KeepsTop (fun a b => rank (view a) (view b)) count pool chosen passed ∧
      applyRules view after { report with keep := report.keep ++ chosen } passed =
        (final, rest) ∧
      (RetentionPolicy.mk (before ++ rule :: after) defaultDecision).evaluateBatchBy view
        candidates = applyDefault defaultDecision final rest := by
  obtain ⟨⟨report, pool⟩, reach⟩ : ∃ result, applyRules view before {} candidates = result :=
    ⟨_, rfl⟩
  obtain ⟨chosen, passed, top, step⟩ := ranks.applyBatch_eq view report pool
  refine ⟨report, pool, chosen, passed, _, _, reach, step, top, rfl, ?_⟩
  rw [evaluateBatchBy, applyRules_append_cons reach step]

theorem RetentionPolicy.batchRule_keeps_top_mostRecent :
    let candidate (sequence : Option UInt64) : RetentionCandidate Binary32 :=
      { metadata := ⟨1, .demotedMessage, "thread", "user", "key", none⟩, sequence }
    let candidates := [candidate none, candidate (some 4), candidate (some 4), candidate (some 9)]
    ∃ report pool chosen passed final rest,
      applyRules id [.keepRecent 9] {} candidates = (report, pool) ∧
      (RetentionRule.keepMostRecent 1).applyBatch id report pool =
        ({ report with keep := report.keep ++ chosen }, passed) ∧
      KeepsTop (fun a b => compareRecency (id a) (id b)) 1 pool chosen passed ∧
      applyRules id [.invalidateSuperseded] { report with keep := report.keep ++ chosen } passed =
        (final, rest) ∧
      (RetentionPolicy.mk ([.keepRecent 9] ++ .keepMostRecent 1 :: [.invalidateSuperseded])
        .drop).evaluateBatchBy id candidates = applyDefault .drop final rest :=
  batchRule_keeps_top id [.keepRecent 9] [.invalidateSuperseded] .drop (.keepMostRecent 1) _

end MemoryPolicy

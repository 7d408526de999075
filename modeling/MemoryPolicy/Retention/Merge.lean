import MemoryPolicy.Retention.Refinement
import MemoryPolicy.Sieve.Merge

/-! Adjacent batch rules of one kind.  Two of them with the same ranking settle what one of them
with the sum of their counts settles, in the same order. -/

namespace MemoryPolicy

variable {F32 F64 : Type} [F32Ops F32 F64] [F64Ops F64] {ι : Type}

namespace RetentionPolicy

theorem evaluateBatchBy_merge (view : ι → RetentionCandidate F32)
    (ranking : Sieve.Ranking (RetentionCandidate F32)) (before after : List RetentionRule)
    {rule rule' merged : RetentionRule} {count count' : Nat}
    (first : rule.stage = .top ranking count .keep)
    (second : rule'.stage = .top ranking count' .keep)
    (whole : merged.stage = .top ranking (count + count') .keep)
    (defaultDecision : RetentionDecision) (candidates : List ι) :
    (RetentionPolicy.mk (before ++ rule :: rule' :: after) defaultDecision).evaluateBatchBy view
        candidates =
      (RetentionPolicy.mk (before ++ merged :: after) defaultDecision).evaluateBatchBy view
        candidates := by
  rw [evaluateBatchBy_eq, evaluateBatchBy_eq]
  simp only [verdicts, stages_append, stages_cons, first, second, whole, Sieve.Stage.comap,
    Sieve.verdicts_top_top]

/-- Adjacent `KeepMostRecent` rules, or adjacent `KeepTopBySalience` rules with the same half-life
and time, report what one such rule with the sum of their counts reports. -/
theorem evaluateBatch_merge (before after : List RetentionRule)
    (defaultDecision : RetentionDecision) (count count' : Nat)
    (candidates : List (RetentionCandidate F32)) :
    (RetentionPolicy.mk (before ++ .keepMostRecent count :: .keepMostRecent count' :: after)
        defaultDecision).evaluateBatch candidates =
      (RetentionPolicy.mk (before ++ .keepMostRecent (count + count') :: after)
        defaultDecision).evaluateBatch candidates ∧
    ∀ halfLifeMs asOfUnixMs,
      (RetentionPolicy.mk (before ++ .keepTopBySalience count halfLifeMs asOfUnixMs ::
          .keepTopBySalience count' halfLifeMs asOfUnixMs :: after)
          defaultDecision).evaluateBatch candidates =
        (RetentionPolicy.mk
          (before ++ .keepTopBySalience (count + count') halfLifeMs asOfUnixMs :: after)
          defaultDecision).evaluateBatch candidates := by
  constructor
  · exact evaluateBatchBy_merge id mostRecent before after rfl rfl rfl _ _
  · intro halfLifeMs asOfUnixMs
    exact evaluateBatchBy_merge id (mostSalient asOfUnixMs halfLifeMs) before after rfl rfl rfl _ _

end RetentionPolicy

end MemoryPolicy

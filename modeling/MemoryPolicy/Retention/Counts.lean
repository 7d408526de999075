import MemoryPolicy.Retention.Agreement
import MemoryPolicy.Retention.Binary
import MemoryPolicy.Sieve.Shrink

/-! A larger count at one batch rule.  The rules behind it get a smaller pool, in the same order, so
candidates can move to `keep` and nowhere else. -/

namespace MemoryPolicy

variable {F32 F64 : Type} [F32Ops F32 F64] [F64Ops F64] {ι : Type}

/-- A batch rule with another count. -/
def RetentionRule.withCount (count : Nat) : RetentionRule → RetentionRule
  | .keepMostRecent _ => .keepMostRecent count
  | .keepTopBySalience _ halfLifeMs asOfUnixMs => .keepTopBySalience count halfLifeMs asOfUnixMs
  | rule => rule

variable (F32) in
theorem RetentionRule.stage_withCount {rule : RetentionRule} (batch : rule.isBatch = true) :
    ∃ ranking : Sieve.Ranking (RetentionCandidate F32),
      rule.stage = .top ranking rule.batchCount .keep ∧
      ∀ count, (rule.withCount count).stage = .top ranking count .keep := by
  cases rule with
  | keepMostRecent count => exact ⟨mostRecent, rfl, fun _ => rfl⟩
  | keepTopBySalience count halfLifeMs asOfUnixMs =>
    exact ⟨mostSalient asOfUnixMs halfLifeMs, rfl, fun _ => rfl⟩
  | _ => exact nomatch batch

namespace RetentionPolicy

theorem mem_verdicts_withCount (view : ι → RetentionCandidate F32)
    (before after : List RetentionRule) {rule : RetentionRule} (batch : rule.isBatch = true)
    {count : Nat} (larger : rule.batchCount ≤ count) (defaultDecision : RetentionDecision)
    {entries : List ι} (nodup : entries.Nodup) {e : ι} {d : RetentionDecision}
    (h : (e, d) ∈ (RetentionPolicy.mk (before ++ rule :: after) defaultDecision).verdicts view
      entries) :
    (e, d) ∈ (RetentionPolicy.mk (before ++ rule.withCount count :: after)
        defaultDecision).verdicts view entries ∨
      (e, .keep) ∈ (RetentionPolicy.mk (before ++ rule.withCount count :: after)
        defaultDecision).verdicts view entries := by
  obtain ⟨ranking, hstage, hcount⟩ := RetentionRule.stage_withCount F32 batch
  simp only [verdicts, stages_append, stages_cons, hstage, hcount] at h ⊢
  exact Sieve.mem_verdicts_of_count_le (fun s hs => topVerdict_of_mem_stages view hs)
    (ranking.comap view) larger nodup h

/-- A larger count at a batch rule takes nobody's place: a candidate of the batch keeps its decision
or is now kept. -/
theorem decisionAt_withCount (before after : List RetentionRule) (rule : RetentionRule)
    (batch : rule.isBatch = true) {count : Nat} (larger : rule.batchCount ≤ count)
    (defaultDecision : RetentionDecision) (candidates : List (RetentionCandidate F32)) :
    let policy : RetentionPolicy := ⟨before ++ rule :: after, defaultDecision⟩
    let raised : RetentionPolicy := ⟨before ++ rule.withCount count :: after, defaultDecision⟩
    ∀ i < candidates.length,
      (policy.decisionAt candidates i = some .keep →
        raised.decisionAt candidates i = some .keep) ∧
      (raised.decisionAt candidates i ≠ policy.decisionAt candidates i →
        raised.decisionAt candidates i = some .keep) := by
  intro policy raised i hi
  obtain ⟨d, hd⟩ := exists_decisionAt policy candidates hi
  obtain ⟨c, hc⟩ := decisionAt_eq_some.mp hd
  rcases mem_verdicts_withCount Prod.fst before after batch larger defaultDecision
    (nodup_zipIdx candidates) hc with same | kept
  · have unchanged : raised.decisionAt candidates i = some d := decisionAt_eq_some.mpr ⟨c, same⟩
    rw [hd, unchanged]
    exact ⟨id, fun changed => absurd rfl changed⟩
  · have kept : raised.decisionAt candidates i = some .keep := decisionAt_eq_some.mpr ⟨c, kept⟩
    exact ⟨fun _ => kept, fun _ => kept⟩

theorem decisionAt_withCount_mostRecent :
    let candidate (sequence : UInt64) : RetentionCandidate Binary32 :=
      { metadata := ⟨1, .demotedMessage, "thread", "user", "key", none⟩
        sequence := some sequence }
    let policy : RetentionPolicy := ⟨[] ++ .keepMostRecent 1 :: [.keepRecent 1], .drop⟩
    let raised : RetentionPolicy :=
      ⟨[] ++ (RetentionRule.keepMostRecent 1).withCount 2 :: [.keepRecent 1], .drop⟩
    let candidates := [candidate 0, candidate 3, candidate 0]
    ∀ i < candidates.length,
      (policy.decisionAt candidates i = some .keep →
        raised.decisionAt candidates i = some .keep) ∧
      (raised.decisionAt candidates i ≠ policy.decisionAt candidates i →
        raised.decisionAt candidates i = some .keep) :=
  decisionAt_withCount [] [.keepRecent 1] (.keepMostRecent 1) rfl (by decide) .drop _

end RetentionPolicy

end MemoryPolicy

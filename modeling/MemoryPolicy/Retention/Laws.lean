import MemoryPolicy.Retention.Agreement
import MemoryPolicy.Retention.Binary
import MemoryPolicy.Sieve.Resort
import MemoryPolicy.Sieve.Rewrite
import Mathlib.Tactic.TFAE

/-! Laws of policies.  What a policy keeps it keeps again; a rule that only decides what earlier
rules have decided can go; and two adjacent rules can be exchanged exactly when they never decide
differently. -/

namespace MemoryPolicy

variable {F32 F64 : Type} [F32Ops F32 F64] [F64Ops F64] {ι : Type}

theorem RetentionRule.stage_of_alone {rule : RetentionRule} (alone : rule.isBatch = false) :
    (rule.stage : Sieve.Stage (RetentionCandidate F32) _) = .each rule.opinion := by
  cases rule <;> first | rfl | exact nomatch alone

theorem RetentionRule.opinion_eq_some {rule : RetentionRule} {candidate : RetentionCandidate F32}
    {d : RetentionDecision} :
    rule.opinion candidate = some d ↔ d ≠ .defer ∧ rule.evaluate candidate = d := by
  unfold RetentionRule.opinion
  split
  · next h =>
    simp only [h, reduceCtorEq, false_iff, not_and]
    exact fun other same => other same.symm
  · next h =>
    rw [Option.some.injEq]
    exact ⟨fun same => ⟨same ▸ h, same⟩, fun ⟨_, same⟩ => same⟩

theorem RetentionRule.opinion_eq_none {rule : RetentionRule} {candidate : RetentionCandidate F32} :
    rule.opinion candidate = none ↔ rule.evaluate candidate = .defer := by
  unfold RetentionRule.opinion
  split <;> simp_all

namespace RetentionPolicy

/-- Evaluation keeps again what it has kept: on the `keep` bucket of a report, as listed, it
reports the same list in `keep`, and nothing else. -/
theorem evaluateBatch_keep (policy : RetentionPolicy)
    (candidates : List (RetentionCandidate F32)) :
    policy.evaluateBatch (policy.evaluateBatch candidates).keep =
      { keep := (policy.evaluateBatch candidates).keep } := by
  have kept : (policy.evaluateBatch candidates).keep =
      Sieve.chosen .keep (policy.verdicts id candidates) :=
    policy.bucket_evaluateBatchBy id candidates .keep
  have again : policy.verdicts id (policy.evaluateBatch candidates).keep =
      (policy.evaluateBatch candidates).keep.map fun c => (c, .keep) := by
    rw [kept]
    exact Sieve.verdicts_chosen (fun s hs => topVerdict_of_mem_stages id hs)
      policy.defaultDecision candidates
  rw [evaluateBatch, evaluateBatchBy_eq, again, RetentionReport.record_keep]
  rfl

/-! ### Rules that can go -/

/-- A rule that decides only what earlier rules decide can be removed: neither the report on any
batch nor the decision on any candidate changes. -/
theorem evaluateBatch_remove (before after : List RetentionRule) {rule : RetentionRule}
    (alone : rule.isBatch = false) (defaultDecision : RetentionDecision)
    (covered : ∀ c : RetentionCandidate F32, rule.evaluate c ≠ .defer →
      ∃ earlier ∈ before, earlier.evaluate c ≠ .defer) :
    let policy : RetentionPolicy := ⟨before ++ rule :: after, defaultDecision⟩
    let shorter : RetentionPolicy := ⟨before ++ after, defaultDecision⟩
    (∀ candidates : List (RetentionCandidate F32),
      policy.evaluateBatch candidates = shorter.evaluateBatch candidates) ∧
    ∀ c : RetentionCandidate F32, policy.evaluate c = shorter.evaluate c := by
  intro policy shorter
  have silent : ∀ c : RetentionCandidate F32,
      ((before.map fun earlier => earlier.evaluate c).find? fun decision => decision ≠ .defer) =
        none → rule.evaluate c = .defer := by
    intro c none
    by_contra decides
    obtain ⟨earlier, mem, decided⟩ := covered c decides
    exact List.find?_eq_none.mp none _ (List.mem_map_of_mem mem) (decide_eq_true decided)
  constructor
  · intro candidates
    have undecided : ∀ c : RetentionCandidate F32,
        Sieve.single (stages id before) c = none → rule.opinion c = none := by
      intro c none
      rw [single_stages] at none
      exact RetentionRule.opinion_eq_none.mpr (silent c none)
    rw [evaluateBatch, evaluateBatch, evaluateBatchBy_eq, evaluateBatchBy_eq]
    simp only [policy, shorter, verdicts, stages_append, stages_cons, rule.stage_of_alone alone,
      Sieve.Stage.comap]
    exact congrArg _ (Sieve.verdicts_remove undecided defaultDecision candidates)
  · intro c
    simp only [policy, shorter, evaluate, List.map_append, List.map_cons, List.find?_append,
      List.find?_cons]
    cases found : (before.map fun earlier => earlier.evaluate c).find? fun decision =>
        decision ≠ .defer with
    | some d => rfl
    | none => simp [silent c found]

/-- An earlier deadline behind a later one, with a batch rule between them. -/
theorem evaluateBatch_remove_deadline :
    let candidate : RetentionCandidate Binary32 :=
      { metadata := ⟨1, .demotedMessage, "thread", "user", "key", none⟩
        writtenAtUnixMs := some 700 }
    let before : List RetentionRule := [.dropWrittenBefore 1000, .keepMostRecent 1]
    let after : List RetentionRule := [.keepLabel "pinned"]
    (RetentionPolicy.mk (before ++ .dropWrittenBefore 500 :: after) .drop).evaluate candidate =
      (RetentionPolicy.mk (before ++ after) .drop).evaluate candidate := by
  intro candidate before after
  have covered : ∀ c : RetentionCandidate Binary32,
      (RetentionRule.dropWrittenBefore 500).evaluate c ≠ .defer →
      ∃ earlier ∈ before, earlier.evaluate c ≠ .defer := by
    intro c decides
    refine ⟨.dropWrittenBefore 1000, List.mem_cons_self, ?_⟩
    cases written : c.writtenAtUnixMs with
    | none => simp [RetentionRule.evaluate, written] at decides
    | some time =>
      have early : time < 500 := by simpa [RetentionRule.evaluate, written] using decides
      have earlier : time < 1000 := UInt64.lt_trans early (by decide)
      simp [RetentionRule.evaluate, written, earlier]
  exact (evaluateBatch_remove before after rfl .drop covered).2 candidate

/-! ### Rules that can be exchanged -/

theorem evaluate_pair (first second : RetentionRule) (c : RetentionCandidate F32)
    (decides : first.evaluate c ≠ .defer) (defaultDecision : RetentionDecision) :
    (RetentionPolicy.mk [first, second] defaultDecision).evaluate c = first.evaluate c := by
  simp [evaluate, decides]

theorem mem_bucket_singleton {policy : RetentionPolicy}
    (alone : ∀ rule ∈ policy.rules, rule.isBatch = false) (c : RetentionCandidate F32)
    (d : RetentionDecision) :
    c ∈ (policy.evaluateBatch [c]).bucket d ↔ policy.evaluate c = d := by
  rw [evaluateBatch, (bucket_perm_filter id alone [c] d).mem_iff]
  simp

/-- Two adjacent rules can be exchanged, in every policy and on every batch, exactly when they
never decide differently; and the same for the decisions on candidates alone. -/
theorem evaluateBatch_exchange_iff {first second : RetentionRule}
    (alone : first.isBatch = false) (alone' : second.isBatch = false) :
    List.TFAE [
      ∀ c : RetentionCandidate F32, first.evaluate c ≠ .defer → second.evaluate c ≠ .defer →
        first.evaluate c = second.evaluate c,
      ∀ before after defaultDecision (candidates : List (RetentionCandidate F32)) d,
        (((RetentionPolicy.mk (before ++ first :: second :: after)
            defaultDecision).evaluateBatch candidates).bucket d).Perm
          (((RetentionPolicy.mk (before ++ second :: first :: after)
            defaultDecision).evaluateBatch candidates).bucket d),
      ∀ before after defaultDecision (c : RetentionCandidate F32),
        (RetentionPolicy.mk (before ++ first :: second :: after) defaultDecision).evaluate c =
          (RetentionPolicy.mk (before ++ second :: first :: after)
            defaultDecision).evaluate c] := by
  tfae_have 1 → 2 := by
    intro agree before after defaultDecision candidates d
    have opinions : ∀ (c : RetentionCandidate F32) d e, first.opinion c = some d →
        second.opinion c = some e → d = e := by
      intro c d e hd he
      obtain ⟨decides, rfl⟩ := RetentionRule.opinion_eq_some.mp hd
      obtain ⟨decides', rfl⟩ := RetentionRule.opinion_eq_some.mp he
      exact agree c decides decides'
    rw [evaluateBatch, evaluateBatch, bucket_evaluateBatchBy, bucket_evaluateBatchBy]
    simp only [verdicts, stages_append, stages_cons, first.stage_of_alone alone,
      second.stage_of_alone alone', Sieve.Stage.comap]
    exact ((Sieve.verdicts_each_each opinions defaultDecision candidates).filter _).map _
  tfae_have 1 → 3 := by
    intro agree before after defaultDecision c
    simp only [evaluate, List.map_append, List.map_cons, List.find?_append, List.find?_cons]
    by_cases h : first.evaluate c = .defer
    · simp [h]
    · by_cases h' : second.evaluate c = .defer
      · simp [h']
      · simp [h', agree c h h']
  tfae_have 2 → 1 := by
    intro same c decides decides'
    have decided : (RetentionPolicy.mk [first, second] .defer).evaluate c = first.evaluate c :=
      evaluate_pair first second c decides .defer
    rw [← mem_bucket_singleton (by simp [alone, alone'])] at decided
    have moved := (same [] [] .defer [c] (first.evaluate c)).subset decided
    rw [List.nil_append, mem_bucket_singleton (by simp [alone, alone']),
      evaluate_pair second first c decides'] at moved
    exact moved.symm
  tfae_have 3 → 1 := by
    intro same c decides decides'
    have orders := same [] [] .defer c
    rwa [List.nil_append, List.nil_append, evaluate_pair first second c decides,
      evaluate_pair second first c decides'] at orders
  tfae_finish

/-- A label that is both kept and dropped: the order of the two rules matters. -/
theorem evaluateBatch_exchange_iff_label :
    ¬ ∀ before after defaultDecision (c : RetentionCandidate Binary32),
      (RetentionPolicy.mk (before ++ .keepLabel "pinned" :: .dropLabel "pinned" :: after)
          defaultDecision).evaluate c =
        (RetentionPolicy.mk (before ++ .dropLabel "pinned" :: .keepLabel "pinned" :: after)
          defaultDecision).evaluate c := by
  intro same
  let pinned : RetentionCandidate Binary32 :=
    { metadata := ⟨1, .demotedMessage, "thread", "user", "key", none⟩
      retentionLabel := some "pinned" }
  have exchange := @evaluateBatch_exchange_iff Binary32 Binary64 _ _ (.keepLabel "pinned")
    (.dropLabel "pinned") rfl rfl
  have agree := (exchange.out 2 0).mp same
  exact absurd (agree pinned (by decide) (by decide)) (by decide)

end RetentionPolicy

end MemoryPolicy

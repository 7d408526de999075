import MemoryPolicy.Retention.Binary
import MemoryPolicy.Retention.Top
import MemoryPolicy.Sieve.Strict

/-! The order in which a backend lists its entries.  When no batch rule ranks two candidates alike,
every order of the batch has the same report, up to the order within the buckets. -/

namespace MemoryPolicy

open StableSort Sieve

variable {F32 F64 : Type} [F32Ops F32 F64] [F64Ops F64] {ι : Type}

theorem compareMissing_eq_iff {a b : Option UInt64} : compareMissing a b = .eq ↔ a = b := by
  cases a with
  | none => cases b <;> simp [compareMissing]
  | some a =>
    cases b with
    | none => simp [compareMissing]
    | some b => rw [compareMissing, Std.LawfulEqCmp.compare_eq_iff_eq, Option.some_inj]

theorem mostRecentFirst_eq_iff {a b : RetentionCandidate F32} :
    mostRecentFirst a b = .eq ↔
      (b.sequence, b.writtenAtUnixMs) = (a.sequence, a.writtenAtUnixMs) := by
  rw [mostRecentFirst_eq, compareRecency, Ordering.then_eq_eq, compareMissing_eq_iff,
    compareMissing_eq_iff, Prod.mk.injEq]

/-- The batch rules of a policy rank no two entries of the batch alike. -/
structure RetentionPolicy.Distinguishes (policy : RetentionPolicy)
    (view : ι → RetentionCandidate F32) (entries : List ι) : Prop where
  recency : ∀ count, .keepMostRecent count ∈ policy.rules →
    (entries.map fun e => ((view e).sequence, (view e).writtenAtUnixMs)).Nodup
  salience : ∀ count halfLifeMs asOfUnixMs,
    .keepTopBySalience count halfLifeMs asOfUnixMs ∈ policy.rules →
    entries.Pairwise fun a b => F64Ops.totalCmp ((view a).salience asOfUnixMs halfLifeMs)
      ((view b).salience asOfUnixMs halfLifeMs) ≠ .eq

theorem RetentionPolicy.Distinguishes.strict {policy : RetentionPolicy}
    {view : ι → RetentionCandidate F32} {entries : List ι} (h : policy.Distinguishes view entries) :
    ∀ s ∈ stages view policy.rules, s.Strict entries := by
  intro s hs
  obtain ⟨rule, hr, rfl⟩ := List.mem_map.mp hs
  cases rule with
  | keepMostRecent count =>
    have recency := List.pairwise_map.mp (h.recency count hr)
    apply recency.imp
    intro a b hne heq
    exact hne (mostRecentFirst_eq_iff.mp heq).symm
  | keepTopBySalience count halfLifeMs asOfUnixMs =>
    apply (h.salience count halfLifeMs asOfUnixMs hr).imp
    intro a b hne heq
    exact hne (Std.OrientedCmp.eq_symm heq)
  | _ => trivial

theorem entriesWith_perm_of_perm {d : RetentionDecision} {xs ys : List (ι × RetentionDecision)}
    (h : xs.Perm ys) : (entriesWith d xs).Perm (entriesWith d ys) :=
  (h.filter _).map _

theorem RetentionPolicy.evaluateBatchBy_perm_of_perm {policy : RetentionPolicy}
    {view : ι → RetentionCandidate F32} {entries entries' : List ι}
    (distinct : policy.Distinguishes view entries) (perm : entries.Perm entries')
    (d : RetentionDecision) :
    ((policy.evaluateBatchBy view entries).bucket d).Perm
      ((policy.evaluateBatchBy view entries').bucket d) := by
  rw [bucket_evaluateBatchBy, bucket_evaluateBatchBy]
  exact entriesWith_perm_of_perm (verdicts_perm_of_strict distinct.strict perm)

/-- The report does not depend on the order of the batch. -/
theorem RetentionPolicy.evaluateBatch_any_order {policy : RetentionPolicy}
    {candidates candidates' : List (RetentionCandidate F32)}
    (distinct : policy.Distinguishes id candidates) (perm : candidates.Perm candidates') :
    (policy.evaluateBatch candidates).keep.Perm (policy.evaluateBatch candidates').keep ∧
      (policy.evaluateBatch candidates).drop.Perm (policy.evaluateBatch candidates').drop ∧
      (policy.evaluateBatch candidates).invalidate.Perm
        (policy.evaluateBatch candidates').invalidate ∧
      (policy.evaluateBatch candidates).defer.Perm (policy.evaluateBatch candidates').defer := by
  have bucket := evaluateBatchBy_perm_of_perm distinct perm
  exact ⟨bucket .keep, bucket .drop, bucket .invalidate, bucket .defer⟩

theorem RetentionPolicy.evaluateBatch_any_order_swapped :
    let candidate (sequence : Option UInt64) : RetentionCandidate Binary32 :=
      { metadata := ⟨1, .demotedMessage, "thread", "user", "key", none⟩, sequence }
    let policy : RetentionPolicy := { rules := [.keepMostRecent 1, .keepRecent 2] }
    let batch := policy.evaluateBatch [candidate none, candidate (some 7)]
    let swapped := policy.evaluateBatch [candidate (some 7), candidate none]
    batch.keep.Perm swapped.keep ∧ batch.drop.Perm swapped.drop ∧
      batch.invalidate.Perm swapped.invalidate ∧ batch.defer.Perm swapped.defer :=
  evaluateBatch_any_order ⟨fun _ _ => by decide, fun _ _ _ h => by simp at h⟩ (.swap _ _ _)

end MemoryPolicy

import MemoryPolicy.Retention.Agreement
import MemoryPolicy.Retention.Binary
import MemoryPolicy.Retention.Isolation
import MemoryPolicy.Sieve.Collect

/-! A backend that deletes by the reports of `evaluate_batch` while entries arrive.  A report says
what it does not keep, and the backend may delete that at once, later, in part or never.  Nothing
that the policy would keep, had nothing been deleted, is lost in this way. -/

namespace MemoryPolicy

open StableSort Sieve Transition

variable {F32 F64 : Type} [F32Ops F32 F64] [F64Ops F64] {ι τ : Type}
  (view : ι → RetentionCandidate F32)

/-- The entries that a report does not keep. -/
def RetentionReport.rejects (report : RetentionReport ι) : List ι :=
  report.drop ++ report.invalidate ++ report.defer

theorem RetentionReport.mem_rejects {report : RetentionReport ι} {e : ι} :
    e ∈ report.rejects ↔ ∃ d ≠ .keep, e ∈ report.bucket d := by
  unfold rejects
  simp only [List.mem_append]
  constructor
  · rintro ((h | h) | h)
    · exact ⟨.drop, nofun, h⟩
    · exact ⟨.invalidate, nofun, h⟩
    · exact ⟨.defer, nofun, h⟩
  · rintro ⟨d, other, h⟩
    cases d with
    | keep => exact absurd rfl other
    | drop => exact .inl (.inl h)
    | invalidate => exact .inl (.inr h)
    | defer => exact .inr h

namespace RetentionPolicy

/-- Sequences increase from each entry to the next. -/
def Increasing (entries : List ι) : Prop :=
  entries.Pairwise fun a b => compare (view a).sequence (view b).sequence = .lt

variable {view} in
/-- Of entries with increasing sequences, `KeepMostRecent` keeps the last ones, newest first. -/
theorem evaluateBatchBy_window (count : Nat) {entries : List ι} (h : Increasing view entries) :
    (RetentionPolicy.mk [.keepMostRecent count] .drop).evaluateBatchBy view entries =
      { keep := entries.reverse.take count, drop := entries.reverse.drop count } := by
  have := (mostRecent.comap view).trans
  have before : ∀ {a b}, compare (view a).sequence (view b).sequence = .lt →
      (mostRecent.comap view).cmp b a = .lt := by
    intro a b lt
    show (compare (view a).sequence (view b).sequence).then _ = .lt
    rw [lt]
    rfl
  have untied : Untied (mostRecent.comap view).cmp entries :=
    h.imp fun lt => untied_symm (by rw [before lt]; exact nofun)
  have sorted : sortBy (mostRecent.comap view).cmp entries = entries.reverse := by
    rw [sortBy_eq_of_perm untied (List.reverse_perm entries).symm]
    apply sortBy_of_pairwise
    rw [List.pairwise_reverse]
    exact h.imp fun lt => by rw [AtOrBefore, before lt]; rfl
  rw [evaluateBatchBy_eq]
  simp only [verdicts, stages, List.map_cons, List.map_nil, RetentionRule.stage, Stage.comap,
    Sieve.verdicts, settled, passed, Stage.settled, Stage.passed, sorted, List.append_nil]
  ext d : 1
  rw [RetentionReport.bucket_record, entriesWith_append, entriesWith_const, entriesWith_const]
  cases d <;> simp [RetentionReport.bucket]

/-- Policies that give the verdicts of one sieve on the pools for which they are due. -/
structure Follow (policies : τ → RetentionPolicy) (Due : τ → List ι → Prop)
    (stages : List (Stage ι RetentionDecision)) (default : RetentionDecision) : Prop where
  ranks : ∀ s ∈ stages, s.TopVerdict .keep
  same : ∀ {t pool}, Due t pool →
    (policies t).verdicts view pool = Sieve.verdicts stages default pool

theorem follow_self (policy : RetentionPolicy) :
    Follow view (fun _ : Unit => policy) (fun _ _ => True) (stages view policy.rules)
      policy.defaultDecision where
  ranks _ hs := topVerdict_of_mem_stages view hs
  same _ := rfl

variable {policies : τ → RetentionPolicy} {Due : τ → List ι → Prop}
  {stages : List (Stage ι RetentionDecision)} {default : RetentionDecision}

variable {view} in
theorem Follow.reports (h : Follow view policies Due stages default) :
    Reports stages default .keep
      (fun t pool => ((policies t).evaluateBatchBy view pool).rejects) Due where
  ranks := h.ranks
  mem_rejects due := by
    simp only [RetentionReport.mem_rejects, bucket_evaluateBatchBy, mem_entriesWith, h.same due]

variable [DecidableEq ι]

/-- One step of a backend that holds entries: an entry arrives, a policy reports on what is stored,
or entries that some report has not kept are deleted. -/
def sweepBy (policies : τ → RetentionPolicy) :
    Collector ι → Collector.Action τ ι → Option (Collector ι) :=
  Collector.step fun t pool => ((policies t).evaluateBatchBy view pool).rejects

def sweep (policy : RetentionPolicy) :
    Collector ι → Collector.Action Unit ι → Option (Collector ι) :=
  sweepBy view fun _ => policy

variable {view} {s : Collector ι}

/-- The report on what is stored has the verdicts on all that arrived, without what is deleted, and
nothing that is kept by them is deleted. -/
theorem Follow.report_stored (h : Follow view policies Due stages default)
    (run : Reaches (sweepBy view policies) (Collector.InTime Due) {} s) {t : τ}
    (due : Due t s.stored) :
    ((policies t).evaluateBatchBy view s.stored).keep =
        entriesWith .keep (Sieve.verdicts stages default s.arrived) ∧
      ∀ d, ((policies t).evaluateBatchBy view s.stored).bucket d =
        (entriesWith d (Sieve.verdicts stages default s.arrived)).filter fun e => e ∈ s.stored := by
  have faithful := Collector.faithful_of_run h.reports run
  have verdicts : (policies t).verdicts view s.stored =
      (Sieve.verdicts stages default s.arrived).filter fun v => v.1 ∈ s.stored :=
    (h.same due).trans (faithful.verdicts_stored h.ranks)
  have buckets : ∀ d, ((policies t).evaluateBatchBy view s.stored).bucket d =
      (entriesWith d (Sieve.verdicts stages default s.arrived)).filter fun e => e ∈ s.stored := by
    intro d
    rw [bucket_evaluateBatchBy, verdicts]
    exact (entriesWith_filter d (fun e => e ∈ s.stored) _).symm
  refine ⟨(buckets .keep).trans (List.filter_eq_self.mpr ?_), buckets⟩
  intro e he
  exact decide_eq_true (faithful.present e (mem_entriesWith.mp he))

theorem inTime_of_run {policy : RetentionPolicy} (run : Free (policy.sweep view) {} s) :
    Reaches (policy.sweep view) (Collector.InTime fun _ _ => True) {} s := by
  refine run.mono fun _ action _ => ?_
  cases action <;> trivial

/-- Deleting by reports loses nothing: after any arrivals, reports and deletions of what a report
did not keep, however old, the policy keeps exactly what it would keep had nothing been deleted,
in the same order, and gives the other stored entries the decisions they would have. -/
theorem sweep_keeps (policy : RetentionPolicy) (run : Free (policy.sweep view) {} s) :
    (policy.evaluateBatchBy view s.stored).keep = (policy.evaluateBatchBy view s.arrived).keep ∧
      ∀ d, (policy.evaluateBatchBy view s.stored).bucket d =
        ((policy.evaluateBatchBy view s.arrived).bucket d).filter fun e => e ∈ s.stored := by
  have reported := (follow_self view policy).report_stored (inTime_of_run run) (t := ()) trivial
  have arrived : ∀ d, (policy.evaluateBatchBy view s.arrived).bucket d =
      entriesWith d (policy.verdicts view s.arrived) := policy.bucket_evaluateBatchBy view s.arrived
  exact ⟨reported.1.trans (arrived .keep).symm, fun d => by rw [arrived]; exact reported.2 d⟩

/-- A candidate that carries its number as its sequence. -/
def numbered (n : Nat) : RetentionCandidate Binary32 :=
  { metadata := ⟨1, .demotedMessage, "thread", "user", "key", none⟩
    sequence := some (.ofNat n) }

/-- Two entries arrive, the older one is rejected and deleted, and another one arrives. -/
def numberedRun : List (Collector.Action Unit Nat) :=
  [.arrive 1, .arrive 2, .report (), .delete [1], .arrive 3]

theorem sweep_keeps_numbered :
    let policy : RetentionPolicy := ⟨[.dropLabel "stale", .keepMostRecent 1], .drop⟩
    let s : Collector Nat := ⟨[2, 3], [1, 2, 3], [1]⟩
    (policy.evaluateBatchBy numbered s.stored).keep =
      (policy.evaluateBatchBy numbered s.arrived).keep := by
  intro policy s
  have taken : Transition.run (policy.sweep numbered) (fun _ _ => True) {} numberedRun = some s :=
    rfl
  exact (policy.sweep_keeps (reaches_of_run .refl taken)).1

/-- A store that is swept by `KeepMostRecent`, with default `Drop`, is a window: where sequences
increase with arrival, every report keeps exactly the last arrivals, newest first, whatever was
deleted before. -/
theorem sweep_window (count : Nat) (run : Free (sweep view ⟨[.keepMostRecent count], .drop⟩) {} s)
    (h : Increasing view s.arrived) :
    (RetentionPolicy.mk [.keepMostRecent count] .drop).evaluateBatchBy view s.stored =
      { keep := s.arrived.reverse.take count
        drop := (s.arrived.reverse.drop count).filter fun e => e ∈ s.stored } := by
  let policy : RetentionPolicy := ⟨[.keepMostRecent count], .drop⟩
  have window : ∀ d, entriesWith d (policy.verdicts view s.arrived) =
      RetentionReport.bucket
        { keep := s.arrived.reverse.take count, drop := s.arrived.reverse.drop count } d := by
    intro d
    rw [← policy.bucket_evaluateBatchBy, evaluateBatchBy_window count h]
  obtain ⟨keeps, buckets⟩ :=
    (follow_self view policy).report_stored (inTime_of_run run) (t := ()) trivial
  simp only [show Sieve.verdicts _ _ s.arrived = policy.verdicts view s.arrived from rfl,
    window] at keeps buckets
  ext d : 1
  cases d with
  | keep => exact keeps
  | drop => exact buckets .drop
  | invalidate => exact buckets .invalidate
  | defer => exact buckets .defer

theorem sweep_window_numbered :
    let s : Collector Nat := ⟨[2, 3], [1, 2, 3], [1]⟩
    (RetentionPolicy.mk [.keepMostRecent 1] .drop).evaluateBatchBy numbered s.stored =
      { keep := s.arrived.reverse.take 1
        drop := (s.arrived.reverse.drop 1).filter fun e => e ∈ s.stored } := by
  intro s
  have taken : Transition.run (sweep numbered ⟨[.keepMostRecent 1], .drop⟩) (fun _ _ => True) {}
      numberedRun = some s := rfl
  have increasing : Increasing numbered s.arrived := by
    unfold Increasing
    decide
  exact sweep_window 1 (reaches_of_run .refl taken) increasing

end RetentionPolicy

end MemoryPolicy

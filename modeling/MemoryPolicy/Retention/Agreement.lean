import MemoryPolicy.Retention.Tracking
import MemoryPolicy.Sieve.Single

/-! What `evaluate_batch` has to do with `evaluate`, and with itself on a policy cut in two.  A
rule that is not a batch rule treats a candidate of a batch as `evaluate` treats it alone, and the
batch rules only keep, at most as many candidates as their counts say. -/

namespace MemoryPolicy

variable {F32 F64 : Type} [F32Ops F32 F64] [F64Ops F64] {ι : Type}

/-! ### Batch rules -/

namespace RetentionRule

def isBatch : RetentionRule → Bool
  | .keepMostRecent _ => true
  | .keepTopBySalience _ _ _ => true
  | _ => false

def batchCount : RetentionRule → Nat
  | .keepMostRecent count => count
  | .keepTopBySalience count _ _ => count
  | _ => 0

theorem stage_topVerdict (rule : RetentionRule) :
    (rule.stage : Sieve.Stage (RetentionCandidate F32) _).TopVerdict .keep := by
  cases rule <;> first | exact rfl | exact trivial

theorem quota_stage (rule : RetentionRule) :
    (rule.stage : Sieve.Stage (RetentionCandidate F32) _).quota = rule.batchCount := by
  cases rule <;> rfl

theorem single_stage (rule : RetentionRule) (candidate : RetentionCandidate F32) :
    rule.stage.single candidate = rule.opinion candidate := by
  cases rule <;> rfl

theorem batchCount_eq_zero {rule : RetentionRule} (h : rule.isBatch = false) :
    rule.batchCount = 0 := by
  cases rule <;> first | rfl | exact nomatch h

end RetentionRule

section Stages

variable (view : ι → RetentionCandidate F32)

theorem topVerdict_of_mem_stages {rules : List RetentionRule}
    {s : Sieve.Stage ι RetentionDecision} (h : s ∈ stages view rules) : s.TopVerdict .keep := by
  obtain ⟨rule, -, rfl⟩ := List.mem_map.mp h
  exact (Sieve.Stage.topVerdict_comap view).mpr rule.stage_topVerdict

theorem quota_stages (rules : List RetentionRule) :
    Sieve.quota (stages view rules) = (rules.map RetentionRule.batchCount).sum := by
  simp [Sieve.quota, stages, Function.comp_def, RetentionRule.quota_stage]

theorem single_stages (rules : List RetentionRule) (e : ι) :
    Sieve.single (stages view rules) e =
      (rules.map fun rule => rule.evaluate (view e)).find? fun decision => decision ≠ .defer := by
  induction rules with
  | nil => rfl
  | cons rule rules ih =>
    have head : (rule.stage.comap view).single e = rule.opinion (view e) := by
      rw [Sieve.Stage.single_comap, rule.single_stage]
    rw [List.map_cons, List.find?_cons, ← ih]
    show ((rule.stage.comap view).single e).or (Sieve.single (stages view rules) e) = _
    rw [head, RetentionRule.opinion]
    by_cases h : rule.evaluate (view e) = .defer <;> simp [h]

theorem evaluate_eq_single (policy : RetentionPolicy) (e : ι) :
    policy.evaluate (view e) =
      (Sieve.single (stages view policy.rules) e).getD policy.defaultDecision := by
  rw [single_stages, RetentionPolicy.evaluate]

end Stages

/-! ### One candidate and a batch of candidates -/

namespace RetentionPolicy

variable (view : ι → RetentionCandidate F32)

theorem evaluate_of_mem_bucket {policy : RetentionPolicy} {entries : List ι}
    {d : RetentionDecision} {e : ι} (h : e ∈ (policy.evaluateBatchBy view entries).bucket d)
    (hd : d ≠ .keep) : policy.evaluate (view e) = d := by
  rw [bucket_evaluateBatchBy, mem_entriesWith] at h
  have alone := Sieve.mem_verdicts (fun s hs => topVerdict_of_mem_stages view hs) h
  rw [evaluate_eq_single view policy e]
  exact (alone.resolve_left hd).symm

theorem mem_keep_of_evaluate {policy : RetentionPolicy} {entries : List ι} {e : ι}
    (he : e ∈ entries) (h : policy.evaluate (view e) = .keep) :
    e ∈ (policy.evaluateBatchBy view entries).keep := by
  have somewhere := (policy.verdicts_perm view entries).mem_iff.mpr he
  obtain ⟨⟨_, d⟩, hd, rfl⟩ := List.mem_map.mp somewhere
  rw [← mem_entriesWith, ← bucket_evaluateBatchBy] at hd
  by_cases kept : d = .keep
  · exact kept ▸ hd
  · exact absurd ((evaluate_of_mem_bucket view hd kept).symm.trans h) kept

/-- Besides the entries that `evaluate` keeps alone, a batch keeps no more than the batch rules
count. -/
theorem countP_keep_le (policy : RetentionPolicy) (entries : List ι) :
    (policy.evaluateBatchBy view entries).keep.countP (fun e => policy.evaluate (view e) ≠ .keep) ≤
      (policy.rules.map RetentionRule.batchCount).sum := by
  rw [← quota_stages view]
  refine le_trans ?_ (Sieve.countP_verdicts_le _ policy.defaultDecision entries)
  have kept := policy.bucket_evaluateBatchBy view entries .keep
  rw [show (policy.evaluateBatchBy view entries).keep = _ from kept, entriesWith, List.countP_map,
    List.countP_filter]
  apply List.countP_mono_left
  intro v _ hv
  simp only [Function.comp_apply, evaluate_eq_single view, Bool.and_eq_true,
    decide_eq_true_eq] at hv ⊢
  rw [hv.2]
  exact Ne.symm hv.1

/-- Without batch rules a bucket holds the candidates that `evaluate` puts there. -/
theorem bucket_perm_filter {policy : RetentionPolicy}
    (alone : ∀ rule ∈ policy.rules, rule.isBatch = false) (entries : List ι)
    (d : RetentionDecision) :
    ((policy.evaluateBatchBy view entries).bucket d).Perm
      (entries.filter fun e => policy.evaluate (view e) = d) := by
  have quota : Sieve.quota (stages view policy.rules) = 0 := by
    rw [quota_stages, List.sum_eq_zero_iff_forall_eq_nat]
    intro n hn
    obtain ⟨rule, hrule, rfl⟩ := List.mem_map.mp hn
    exact RetentionRule.batchCount_eq_zero (alone rule hrule)
  have same : ∀ v ∈ policy.verdicts view entries, v.2 = policy.evaluate (view v.1) := fun v hv => by
    rw [evaluate_eq_single view, Sieve.verdicts_eq_single quota hv]
  calc ((policy.evaluateBatchBy view entries).bucket d)
      = ((policy.verdicts view entries).map Prod.fst).filter
          fun e => policy.evaluate (view e) = d := by
        rw [bucket_evaluateBatchBy, entriesWith, List.filter_map]
        apply congrArg
        apply List.filter_congr
        intro v hv
        rw [same v hv, Function.comp_apply]
    _ |>.Perm (entries.filter fun e => policy.evaluate (view e) = d) :=
        (policy.verdicts_perm view entries).filter _

/-- Batch and single evaluation agree up to the batch rules. -/
theorem evaluateBatch_agrees (policy : RetentionPolicy)
    (candidates : List (RetentionCandidate F32)) :
    (policy.track candidates).map Prod.fst = policy.evaluateBatch candidates ∧
      (∀ d ≠ .keep, ∀ e ∈ (policy.track candidates).bucket d, policy.evaluate e.1 = d) ∧
      (∀ e ∈ candidates.zipIdx, policy.evaluate e.1 = .keep → e ∈ (policy.track candidates).keep) ∧
      (policy.track candidates).keep.countP (fun e => policy.evaluate e.1 ≠ .keep) ≤
        (policy.rules.map RetentionRule.batchCount).sum ∧
      ((∀ rule ∈ policy.rules, rule.isBatch = false) → ∀ d,
        ((policy.evaluateBatch candidates).bucket d).Perm
          (candidates.filter fun c => policy.evaluate c = d)) :=
  ⟨policy.map_fst_track candidates,
    fun _ hd _ he => evaluate_of_mem_bucket Prod.fst he hd,
    fun _ he h => mem_keep_of_evaluate Prod.fst he h,
    policy.countP_keep_le Prod.fst candidates.zipIdx,
    fun alone d => bucket_perm_filter id alone candidates d⟩

/-! ### A policy in two stages -/

theorem settled_ne_defer {rules : List RetentionRule} {entries : List ι}
    {v : ι × RetentionDecision} (h : v ∈ Sieve.settled (stages view rules) entries) :
    v.2 ≠ .defer := by
  rcases Sieve.mem_settled (fun s hs => topVerdict_of_mem_stages view hs) h with kept | alone
  · simp [kept]
  · rw [single_stages] at alone
    simpa using List.find?_some alone

theorem entriesWith_defer_settled (rules : List RetentionRule) (entries : List ι) :
    entriesWith .defer (Sieve.settled (stages view rules) entries) = [] := by
  rw [entriesWith, List.filter_eq_nil_iff.mpr, List.map_nil]
  intro v hv
  simpa using settled_ne_defer view hv

theorem passed_of_mem_defer {policy : RetentionPolicy} {entries : List ι} {e : ι}
    (h : e ∈ (policy.evaluateBatchBy view entries).defer) :
    e ∈ Sieve.passed (stages view policy.rules) entries := by
  have deferred := policy.bucket_evaluateBatchBy view entries .defer
  rw [show (policy.evaluateBatchBy view entries).defer = _ from deferred, verdicts, Sieve.verdicts,
    entriesWith_append, entriesWith_defer_settled, List.nil_append, mem_entriesWith] at h
  obtain ⟨a, passed, same⟩ := List.mem_map.mp h
  exact (Prod.mk.inj same).1 ▸ passed

theorem defer_evaluateBatchBy (rules : List RetentionRule) (entries : List ι) :
    (({ rules } : RetentionPolicy).evaluateBatchBy view entries).defer =
      Sieve.passed (stages view rules) entries := by
  have deferred := ({ rules } : RetentionPolicy).bucket_evaluateBatchBy view entries .defer
  rw [verdicts, Sieve.verdicts, entriesWith_append, entriesWith_defer_settled, entriesWith_const,
    if_pos rfl, List.nil_append] at deferred
  exact deferred

theorem bucket_evaluateBatchBy_defer (rules : List RetentionRule) (entries : List ι)
    {d : RetentionDecision} (hd : d ≠ .defer) :
    (({ rules } : RetentionPolicy).evaluateBatchBy view entries).bucket d =
      entriesWith d (Sieve.settled (stages view rules) entries) := by
  rw [bucket_evaluateBatchBy, verdicts, Sieve.verdicts, entriesWith_append, entriesWith_const,
    if_neg (Ne.symm hd), List.append_nil]

theorem verdicts_append (front back : List RetentionRule) (defaultDecision : RetentionDecision)
    (entries : List ι) :
    ({ rules := front ++ back, defaultDecision } : RetentionPolicy).verdicts view entries =
      Sieve.settled (stages view front) entries ++
        ({ rules := back, defaultDecision } : RetentionPolicy).verdicts view
          (Sieve.passed (stages view front) entries) := by
  simp only [verdicts, stages_append, Sieve.verdicts, Sieve.settled_append, Sieve.passed_append,
    List.append_assoc]

/-- Staged evaluation is combined evaluation: the rules `front` and then the rules `back` on the
deferred candidates report what the rules `front ++ back` report. -/
theorem evaluateBatch_staged (front back : List RetentionRule)
    (defaultDecision : RetentionDecision) (candidates : List (RetentionCandidate F32)) :
    let first := ({ rules := front, defaultDecision := .defer } : RetentionPolicy).evaluateBatch
      candidates
    let second := ({ rules := back, defaultDecision } : RetentionPolicy).evaluateBatch first.defer
    ({ rules := front ++ back, defaultDecision } : RetentionPolicy).evaluateBatch candidates =
      { keep := first.keep ++ second.keep
        drop := first.drop ++ second.drop
        invalidate := first.invalidate ++ second.invalidate
        defer := second.defer } := by
  intro first second
  have rest : first.defer = Sieve.passed (stages id front) candidates :=
    defer_evaluateBatchBy id front candidates
  have key : ∀ d, (({ rules := front ++ back, defaultDecision } : RetentionPolicy).evaluateBatch
      candidates).bucket d =
        entriesWith d (Sieve.settled (stages id front) candidates) ++ second.bucket d := fun d => by
    simp only [second, evaluateBatch, bucket_evaluateBatchBy, verdicts_append, rest,
      entriesWith_append]
  have early : ∀ d ≠ .defer, entriesWith d (Sieve.settled (stages id front) candidates) =
      first.bucket d := fun d hd => (bucket_evaluateBatchBy_defer id front candidates hd).symm
  ext d : 1
  rw [key d]
  cases d with
  | keep => exact congrArg (· ++ second.keep) (early .keep (by decide))
  | drop => exact congrArg (· ++ second.drop) (early .drop (by decide))
  | invalidate => exact congrArg (· ++ second.invalidate) (early .invalidate (by decide))
  | defer => exact congrArg (· ++ second.defer) (entriesWith_defer_settled id front candidates)

end RetentionPolicy

end MemoryPolicy

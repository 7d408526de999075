import MemoryPolicy.Retention.Refinement
import Mathlib.Data.List.Sigma

/-! Batches whose entries carry more than the candidate.  The loops of `evaluate_batch` read an
entry only through its candidate, so the report on entries presents the report on the candidates.
A batch whose entries carry their positions shows where each candidate of the batch goes. -/

namespace MemoryPolicy

variable {F32 F64 : Type} [F32Ops F32 F64] [F64Ops F64] {ι κ : Type}

/-! ### Reports of entries -/

namespace RetentionReport

def map (f : κ → ι) (report : RetentionReport κ) : RetentionReport ι where
  keep := report.keep.map f
  drop := report.drop.map f
  invalidate := report.invalidate.map f
  defer := report.defer.map f

@[simp] theorem bucket_map (f : κ → ι) (report : RetentionReport κ) (d : RetentionDecision) :
    (report.map f).bucket d = (report.bucket d).map f := by
  cases d <;> rfl

def decisions (report : RetentionReport ι) : List (ι × RetentionDecision) :=
  (report.keep.map fun e => (e, .keep)) ++ (report.drop.map fun e => (e, .drop)) ++
    (report.invalidate.map fun e => (e, .invalidate)) ++ report.defer.map fun e => (e, .defer)

theorem mem_decisions {report : RetentionReport ι} {e : ι} {d : RetentionDecision} :
    (e, d) ∈ report.decisions ↔ e ∈ report.bucket d := by
  cases d <;> simp [decisions, bucket]

theorem map_fst_decisions (report : RetentionReport ι) :
    report.decisions.map Prod.fst =
      report.keep ++ report.drop ++ report.invalidate ++ report.defer := by
  simp [decisions, Function.comp_def]

end RetentionReport

theorem map_entriesWith (f : κ → ι) (d : RetentionDecision)
    (verdicts : List (κ × RetentionDecision)) :
    (entriesWith d verdicts).map f = entriesWith d (verdicts.map (Prod.map f id)) := by
  simp [entriesWith, List.filter_map, Function.comp_def]

theorem RetentionRule.stage_comap_comp (view : ι → RetentionCandidate F32) (f : κ → ι)
    (rule : RetentionRule) :
    rule.stage.comap (fun e => view (f e)) = (rule.stage.comap view).comap f := by
  cases rule <;> rfl

theorem stages_comp (view : ι → RetentionCandidate F32) (f : κ → ι) (rules : List RetentionRule) :
    stages (fun e => view (f e)) rules = (stages view rules).map (Sieve.Stage.comap f) := by
  simp [stages, RetentionRule.stage_comap_comp view f]

/-- The report on entries presents the report on what they present. -/
theorem RetentionPolicy.map_evaluateBatchBy (view : ι → RetentionCandidate F32) (f : κ → ι)
    (policy : RetentionPolicy) (entries : List κ) :
    (policy.evaluateBatchBy (fun e => view (f e)) entries).map f =
      policy.evaluateBatchBy view (entries.map f) := by
  ext d : 1
  simp only [RetentionReport.bucket_map, bucket_evaluateBatchBy, map_entriesWith, verdicts,
    stages_comp, Sieve.verdicts_comap]

/-! ### Conservation -/

theorem entriesWith_perm (verdicts : List (ι × RetentionDecision)) :
    (entriesWith .keep verdicts ++ entriesWith .drop verdicts ++ entriesWith .invalidate verdicts ++
      entriesWith .defer verdicts).Perm (verdicts.map Prod.fst) := by
  induction verdicts with
  | nil => exact List.Perm.refl _
  | cons v verdicts ih =>
    obtain ⟨a, d⟩ := v
    refine List.Perm.trans ?_ (ih.cons a)
    cases d with
    | keep => simp [entriesWith]
    | drop => simp [entriesWith]
    | invalidate => simpa [entriesWith] using @List.perm_middle _ a (_ ++ _) _
    | defer => simpa [entriesWith] using @List.perm_middle _ a (_ ++ (_ ++ _)) _

/-- Positions tell the entries of a batch apart. -/
theorem nodup_zipIdx (entries : List ι) : entries.zipIdx.Nodup :=
  .of_map _ (List.nodup_zipIdx_map_snd entries)

namespace RetentionPolicy

theorem verdicts_perm (view : ι → RetentionCandidate F32) (policy : RetentionPolicy)
    (entries : List ι) : ((policy.verdicts view entries).map Prod.fst).Perm entries :=
  Sieve.verdicts_perm _ _ _

theorem evaluateBatchBy_perm (view : ι → RetentionCandidate F32) (policy : RetentionPolicy)
    (entries : List ι) :
    ((policy.evaluateBatchBy view entries).keep ++ (policy.evaluateBatchBy view entries).drop ++
      (policy.evaluateBatchBy view entries).invalidate ++
      (policy.evaluateBatchBy view entries).defer).Perm entries := by
  have whole := (entriesWith_perm (policy.verdicts view entries)).trans
    (policy.verdicts_perm view entries)
  simp only [← bucket_evaluateBatchBy] at whole
  exact whole

/-- `evaluate_batch` loses no candidate and duplicates none. -/
theorem evaluateBatch_perm (policy : RetentionPolicy) (candidates : List (RetentionCandidate F32)) :
    ((policy.evaluateBatch candidates).keep ++ (policy.evaluateBatch candidates).drop ++
      (policy.evaluateBatch candidates).invalidate ++
      (policy.evaluateBatch candidates).defer).Perm candidates :=
  policy.evaluateBatchBy_perm id candidates

/-! ### Positions -/

/-- `evaluate_batch` on candidates that carry their positions in the batch. -/
def track (policy : RetentionPolicy) (candidates : List (RetentionCandidate F32)) :
    RetentionReport (RetentionCandidate F32 × Nat) :=
  policy.evaluateBatchBy Prod.fst candidates.zipIdx

theorem map_fst_track (policy : RetentionPolicy) (candidates : List (RetentionCandidate F32)) :
    (policy.track candidates).map Prod.fst = policy.evaluateBatch candidates := by
  have presented := policy.map_evaluateBatchBy id Prod.fst candidates.zipIdx
  rwa [List.zipIdx_map_fst] at presented

/-- The decision of `evaluate_batch` on the candidate at a position of the batch. -/
def decisionAt (policy : RetentionPolicy) (candidates : List (RetentionCandidate F32)) (i : Nat) :
    Option RetentionDecision :=
  ((policy.track candidates).decisions.find? fun v => v.1.2 = i).map Prod.snd

theorem nodup_positions (policy : RetentionPolicy) (candidates : List (RetentionCandidate F32)) :
    ((policy.track candidates).decisions.map fun v => v.1.2).Nodup := by
  have perm : ((policy.track candidates).decisions.map Prod.fst).Perm candidates.zipIdx := by
    rw [RetentionReport.map_fst_decisions]
    exact policy.evaluateBatchBy_perm Prod.fst candidates.zipIdx
  have positions := perm.map Prod.snd
  rw [List.map_map] at positions
  exact positions.nodup_iff.mpr (List.nodup_zipIdx_map_snd candidates)

theorem decisionAt_eq_some {policy : RetentionPolicy} {candidates : List (RetentionCandidate F32)}
    {i : Nat} {d : RetentionDecision} :
    policy.decisionAt candidates i = some d ↔
      ∃ c, ((c, i), d) ∈ policy.verdicts Prod.fst candidates.zipIdx := by
  have placed : ∀ e, (e, d) ∈ (policy.track candidates).decisions ↔
      (e, d) ∈ policy.verdicts Prod.fst candidates.zipIdx := fun e => by
    rw [RetentionReport.mem_decisions, track, bucket_evaluateBatchBy, mem_entriesWith]
  simp only [← placed, decisionAt, Option.map_eq_some_iff]
  constructor
  · rintro ⟨⟨⟨c, j⟩, _⟩, found, rfl⟩
    obtain rfl : j = i := by simpa using List.find?_some found
    exact ⟨c, List.mem_of_find?_eq_some found⟩
  · rintro ⟨c, hc⟩
    obtain ⟨v, found⟩ := Option.isSome_iff_exists.mp <|
      List.find?_isSome (p := fun v => v.1.2 = i).mpr ⟨_, hc, by simp⟩
    have same := List.inj_on_of_nodup_map (policy.nodup_positions candidates)
      (List.mem_of_find?_eq_some found) hc (by simpa using List.find?_some found)
    exact ⟨v, found, by rw [same]⟩

theorem exists_decisionAt (policy : RetentionPolicy) (candidates : List (RetentionCandidate F32))
    {i : Nat} (hi : i < candidates.length) : ∃ d, policy.decisionAt candidates i = some d := by
  have placed : (candidates[i], i) ∈ candidates.zipIdx :=
    List.mk_mem_zipIdx_iff_getElem?.mpr (List.getElem?_eq_getElem hi)
  have somewhere := (policy.verdicts_perm Prod.fst candidates.zipIdx).mem_iff.mpr placed
  obtain ⟨⟨_, d⟩, hd, same⟩ := List.mem_map.mp somewhere
  obtain rfl : _ = (candidates[i], i) := same
  exact ⟨d, decisionAt_eq_some.mpr ⟨candidates[i], hd⟩⟩

end RetentionPolicy

end MemoryPolicy

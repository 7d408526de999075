import MemoryPolicy.Retention.Agreement
import MemoryPolicy.Retention.Binary
import Mathlib.Data.List.Perm.Subperm

/-! Supersession.  The candidates of a batch have identifiers, and a candidate can carry a reference
to the entry that it supersedes.  `InvalidateSuperseded` looks at the candidate that carries the
reference, not at the one that is named: the two agree only where the references permute the
candidates that carry one. -/

namespace MemoryPolicy

variable {F32 F64 : Type} [F32Ops F32 F64] [F64Ops F64]

def supersededPolicy : RetentionPolicy where
  rules := [.invalidateSuperseded]
  defaultDecision := .keep

section Batch

variable (batch : List (String × RetentionCandidate F32))

/-- The entry is named by the `supersedes` field of another entry of the batch. -/
def Superseded (e : String × RetentionCandidate F32) : Prop :=
  ∃ f ∈ batch, f.1 ≠ e.1 ∧ f.2.supersedes = some e.1

/-- The report invalidates the superseded entries of the batch and keeps the others. -/
structure InvalidatesSuperseded : Prop where
  invalidate : ∀ e, e ∈ (supersededPolicy.evaluateBatchBy Prod.snd batch).invalidate ↔
    e ∈ batch ∧ Superseded batch e
  keep : ∀ e ∈ batch, ¬ Superseded batch e →
    e ∈ (supersededPolicy.evaluateBatchBy Prod.snd batch).keep

def carriers : List String :=
  (batch.filter fun e => e.2.supersedes.isSome).map Prod.fst

def references : List String :=
  batch.filterMap fun e => e.2.supersedes

/-- The references permute the entries that carry one, and none goes to its own entry. -/
structure ReferencesPermute : Prop where
  perm : (references batch).Perm (carriers batch)
  other : ∀ e ∈ batch, e.2.supersedes ≠ some e.1

end Batch

section Report

variable {batch : List (String × RetentionCandidate F32)} {e : String × RetentionCandidate F32}

theorem evaluate_supersededPolicy (candidate : RetentionCandidate F32) :
    supersededPolicy.evaluate candidate =
      if candidate.supersedes.isSome then .invalidate else .keep := by
  cases h : candidate.supersedes <;>
    simp [RetentionPolicy.evaluate, supersededPolicy, RetentionRule.evaluate, h]

theorem mem_bucket_supersededPolicy {d : RetentionDecision} :
    e ∈ (supersededPolicy.evaluateBatchBy Prod.snd batch).bucket d ↔
      e ∈ batch ∧ (if e.2.supersedes.isSome then .invalidate else .keep) = d := by
  have alone : ∀ rule ∈ supersededPolicy.rules, rule.isBatch = false := by
    simp [supersededPolicy, RetentionRule.isBatch]
  rw [(RetentionPolicy.bucket_perm_filter Prod.snd alone batch d).mem_iff, List.mem_filter,
    evaluate_supersededPolicy, decide_eq_true_eq]

/-- The rule invalidates the entries that carry a reference. -/
theorem mem_invalidate : e ∈ (supersededPolicy.evaluateBatchBy Prod.snd batch).invalidate ↔
    e ∈ batch ∧ e.2.supersedes.isSome = true := by
  apply (mem_bucket_supersededPolicy (d := .invalidate)).trans
  apply and_congr_right
  intro _
  cases e.2.supersedes <;> simp

theorem mem_keep : e ∈ (supersededPolicy.evaluateBatchBy Prod.snd batch).keep ↔
    e ∈ batch ∧ e.2.supersedes.isSome = false := by
  apply (mem_bucket_supersededPolicy (d := .keep)).trans
  apply and_congr_right
  intro _
  cases e.2.supersedes <;> simp

end Report

section References

variable {batch : List (String × RetentionCandidate F32)} {e : String × RetentionCandidate F32}

theorem length_references (batch : List (String × RetentionCandidate F32)) :
    (references batch).length = (carriers batch).length := by
  simp [references, carriers, List.length_filterMap_eq_countP, List.countP_eq_length_filter]

theorem mem_references {r : String} :
    r ∈ references batch ↔ ∃ f ∈ batch, f.2.supersedes = some r := by
  simp [references]

theorem nodup_carriers (distinct : (batch.map Prod.fst).Nodup) : (carriers batch).Nodup :=
  (List.filter_sublist.map _).nodup distinct

theorem mem_carriers (distinct : (batch.map Prod.fst).Nodup) (he : e ∈ batch) :
    e.1 ∈ carriers batch ↔ e.2.supersedes.isSome = true := by
  constructor
  · intro h
    obtain ⟨f, hf, same⟩ := List.mem_map.mp h
    obtain ⟨hf, carries⟩ := List.mem_filter.mp hf
    exact List.inj_on_of_nodup_map distinct hf he same ▸ carries
  · intro carries
    exact List.mem_map_of_mem (List.mem_filter.mpr ⟨he, carries⟩)

theorem mem_references_iff_superseded (distinct : (batch.map Prod.fst).Nodup)
    (other : ∀ e ∈ batch, e.2.supersedes ≠ some e.1) (he : e ∈ batch) :
    e.1 ∈ references batch ↔ Superseded batch e := by
  rw [mem_references]
  constructor
  · rintro ⟨f, hf, names⟩
    refine ⟨f, hf, ?_, names⟩
    intro same
    obtain rfl := List.inj_on_of_nodup_map distinct hf he same
    exact other f hf names
  · rintro ⟨f, hf, -, names⟩
    exact ⟨f, hf, names⟩

theorem eq_of_references_nodup (nodup : (references batch).Nodup)
    {f : String × RetentionCandidate F32} (he : e ∈ batch) (hf : f ∈ batch) {r : String}
    (first : e.2.supersedes = some r) (second : f.2.supersedes = some r) : e = f := by
  by_contra different
  rw [references, List.nodup_iff_pairwise_ne, List.pairwise_filterMap] at nodup
  have : Std.Symm fun a b : String × RetentionCandidate F32 => ∀ r, a.2.supersedes = some r →
      ∀ s, b.2.supersedes = some s → r ≠ s := ⟨fun _ _ h r hr s hs => (h s hs r hr).symm⟩
  exact nodup.forall he hf different r first r second rfl

/-- References that go back in a ranking permute no entries. -/
theorem carriers_eq_nil (rank : String → Nat)
    (older : ∀ e ∈ batch, ∀ r, e.2.supersedes = some r → rank r < rank e.1)
    (sub : references batch ⊆ carriers batch) : carriers batch = [] := by
  have none : ∀ n, ∀ e ∈ batch, e.2.supersedes.isSome = true → rank e.1 = n → False := by
    intro n
    induction n using Nat.strong_induction_on with
    | _ n ih =>
      intro e he carries hn
      obtain ⟨r, hr⟩ := Option.isSome_iff_exists.mp carries
      obtain ⟨f, hf, same⟩ := List.mem_map.mp (sub (mem_references.mpr ⟨e, he, hr⟩))
      obtain ⟨hf, again⟩ := List.mem_filter.mp hf
      exact ih (rank f.1) (by rw [← hn, same]; exact older e he r hr) f hf again rfl
  rw [carriers, List.map_eq_nil_iff, List.filter_eq_nil_iff]
  intro e he carries
  exact none _ e he carries rfl

end References

section Main

variable {batch : List (String × RetentionCandidate F32)}

theorem InvalidatesSuperseded.referencesPermute (distinct : (batch.map Prod.fst).Nodup)
    (h : InvalidatesSuperseded batch) : ReferencesPermute batch := by
  have superseded : ∀ e ∈ batch, e.2.supersedes.isSome = true → Superseded batch e :=
    fun e he carries => ((h.invalidate e).mp (mem_invalidate.mpr ⟨he, carries⟩)).2
  have sub : carriers batch ⊆ references batch := fun r hr => by
    obtain ⟨e, he, rfl⟩ := List.mem_map.mp hr
    obtain ⟨he, carries⟩ := List.mem_filter.mp he
    obtain ⟨f, hf, -, names⟩ := superseded e he carries
    exact mem_references.mpr ⟨f, hf, names⟩
  have subperm := List.subperm_of_subset (nodup_carriers distinct) sub
  have perm : (carriers batch).Perm (references batch) :=
    subperm.perm_of_length_le (length_references batch).le
  refine ⟨perm.symm, ?_⟩
  intro e he self
  obtain ⟨f, hf, different, names⟩ := superseded e he (by rw [self]; rfl)
  have nodup := perm.nodup_iff.mp (nodup_carriers distinct)
  exact different (congrArg Prod.fst (eq_of_references_nodup nodup hf he names self))

theorem ReferencesPermute.invalidatesSuperseded (distinct : (batch.map Prod.fst).Nodup)
    (h : ReferencesPermute batch) : InvalidatesSuperseded batch := by
  have carries_iff : ∀ e ∈ batch, e.2.supersedes.isSome = true ↔ Superseded batch e :=
    fun e he => by
      rw [← mem_carriers distinct he, ← h.perm.mem_iff,
        mem_references_iff_superseded distinct h.other he]
  constructor
  · intro e
    exact mem_invalidate.trans (and_congr_right (carries_iff e))
  · intro e he free
    refine mem_keep.mpr ⟨he, Bool.eq_false_iff.mpr ?_⟩
    intro carries
    exact free ((carries_iff e he).mp carries)

/-- The superseded entries of a batch are invalidated exactly when the references permute the
entries that carry one. -/
theorem invalidatesSuperseded_iff (distinct : (batch.map Prod.fst).Nodup) :
    InvalidatesSuperseded batch ↔ ReferencesPermute batch :=
  ⟨fun h => h.referencesPermute distinct, fun h => h.invalidatesSuperseded distinct⟩

def correctedFact : List (String × RetentionCandidate Binary32) :=
  let metadata : FrameMetadata := ⟨1, .demotedMessage, "thread", "user", "key", none⟩
  [("old", { metadata }), ("new", { metadata, supersedes := some "old" })]

theorem invalidatesSuperseded_correctedFact :
    InvalidatesSuperseded correctedFact ↔ ReferencesPermute correctedFact :=
  invalidatesSuperseded_iff (by decide)

/-- The newer fact is invalidated, the superseded one is kept. -/
theorem correctedFact_keeps_old :
    (correctedFact.map Prod.fst).Nodup ∧
      ((supersededPolicy.evaluateBatchBy Prod.snd correctedFact).keep.map Prod.fst) = ["old"] ∧
      ((supersededPolicy.evaluateBatchBy Prod.snd correctedFact).invalidate.map Prod.fst) =
        ["new"] ∧
      ¬ InvalidatesSuperseded correctedFact := by
  refine ⟨by decide, by decide, by decide, ?_⟩
  intro h
  have old := (h.invalidate ("old", correctedFact.head (by decide) |>.2)).mpr
    ⟨by decide, correctedFact.getLast (by decide), by decide, by decide, by decide⟩
  exact absurd old (by decide)

/-- Where references go to older entries, the superseded entries are invalidated only in a batch
without references. -/
theorem InvalidatesSuperseded.supersedes_eq_none (distinct : (batch.map Prod.fst).Nodup)
    (rank : String → Nat) (older : ∀ e ∈ batch, ∀ r, e.2.supersedes = some r → rank r < rank e.1)
    (h : InvalidatesSuperseded batch) : ∀ e ∈ batch, e.2.supersedes = none := by
  have empty := carriers_eq_nil rank older (h.referencesPermute distinct).perm.subset
  intro e he
  by_contra some
  have carries := (mem_carriers distinct he).mpr (Option.isSome_iff_ne_none.mpr some)
  exact List.not_mem_nil (empty ▸ carries)

end Main

end MemoryPolicy

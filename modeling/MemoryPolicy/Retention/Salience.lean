import MemoryPolicy.Retention.Top
import MemoryPolicy.Retention.Tracking

/-! Dominance under `KeepTopBySalience`.  Of the floating-point operations only monotonicity and
bounds are assumed.  A candidate that is at least as important and at least as recent as one behind
it in the pool has at least its score, so it is not passed on while the other is kept. -/

namespace MemoryPolicy

open StableSort Sieve

variable {F32 F64 : Type} [F32Ops F32 F64] [F64Ops F64] {ι : Type}

/-- The order of `total_cmp`. -/
def AtMost (x y : F64) : Prop := (F64Ops.totalCmp x y).isLE = true

theorem AtMost.refl (x : F64) : AtMost x x := by
  rw [AtMost, show F64Ops.totalCmp x x = .eq from Std.ReflCmp.compare_self]
  rfl

theorem AtMost.trans {x y z : F64} (hxy : AtMost x y) (hyz : AtMost y z) : AtMost x z :=
  Std.TransCmp.isLE_trans hxy hyz

namespace RetentionCandidate

/-- The importance as a score, `1.0` if it is absent. -/
def weight (self : RetentionCandidate F32) : F64 :=
  F32Ops.toF64 (self.importance.getD F32Ops.one)

/-- The start of the valid time if present, else the write timestamp. -/
def reference (self : RetentionCandidate F32) : Option UInt64 :=
  self.validFromUnixMs.or self.writtenAtUnixMs

/-- The factor by which a score decays with age. -/
def decay (age halfLifeMs : UInt64) : F64 :=
  F64Ops.powf F64Ops.half (F64Ops.div (F64Ops.ofU64 age) (F64Ops.ofU64 halfLifeMs))

theorem salience_of_no_reference {self : RetentionCandidate F32} (h : self.reference = none)
    (asOfUnixMs halfLifeMs : UInt64) : self.salience asOfUnixMs halfLifeMs = self.weight := by
  rw [reference] at h
  rw [salience, h]
  rfl

theorem salience_of_no_halfLife (self : RetentionCandidate F32) (asOfUnixMs : UInt64) :
    self.salience asOfUnixMs 0 = self.weight := by
  rw [salience]
  split <;> rfl

theorem salience_of_reference {self : RetentionCandidate F32} {reference : UInt64}
    (h : self.reference = some reference) (asOfUnixMs : UInt64) {halfLifeMs : UInt64}
    (positive : halfLifeMs ≠ 0) :
    self.salience asOfUnixMs halfLifeMs =
      F64Ops.mul self.weight (decay (saturatingSub asOfUnixMs reference) halfLifeMs) := by
  rw [RetentionCandidate.reference] at h
  simp only [salience, h, positive, if_false]
  rfl

end RetentionCandidate

open RetentionCandidate

/-- A score between `zero` and the literal `1.0`. -/
def InUnit (F32 : Type) [F32Ops F32 F64] (zero x : F64) : Prop :=
  AtMost zero x ∧ AtMost x (F32Ops.toF64 (F32Ops.one : F32))

/-- What dominance needs of the floating-point operations: decay factors lie in the unit interval
and do not grow with age, and products of unit scores are monotone and at most the first factor. -/
structure SalienceLaws (F32 : Type) [F32Ops F32 F64] (zero : F64) : Prop where
  decay_unit : ∀ age halfLifeMs : UInt64, halfLifeMs ≠ 0 → InUnit F32 zero (decay age halfLifeMs)
  decay_antitone : ∀ age age' halfLifeMs : UInt64, halfLifeMs ≠ 0 → age ≤ age' →
    AtMost (decay age' halfLifeMs : F64) (decay age halfLifeMs)
  mul_mono : ∀ x x' y y' : F64, InUnit F32 zero x → InUnit F32 zero x' → InUnit F32 zero y →
    InUnit F32 zero y' → AtMost x x' → AtMost y y' → AtMost (F64Ops.mul x y) (F64Ops.mul x' y')
  mul_le : ∀ x y : F64, InUnit F32 zero x → InUnit F32 zero y → AtMost (F64Ops.mul x y) x

/-- `a` is at least as important as `b`, and at least as recent as far as recency counts. -/
structure Dominates (halfLifeMs : UInt64) (a b : RetentionCandidate F32) : Prop where
  weight : AtMost b.weight a.weight
  recency : halfLifeMs = 0 ∨ (a.validFromUnixMs = none ∧ a.writtenAtUnixMs = none) ∨
    ∃ newer older, a.reference = some newer ∧ b.reference = some older ∧ older ≤ newer

theorem saturatingSub_antitone (a : UInt64) {b c : UInt64} (h : b ≤ c) :
    saturatingSub a c ≤ saturatingSub a b := by
  unfold saturatingSub
  split
  · rename_i hc
    rw [if_pos (UInt64.le_trans h hc), UInt64.le_iff_toNat_le,
      UInt64.toNat_sub_of_le _ _ hc, UInt64.toNat_sub_of_le _ _ (UInt64.le_trans h hc)]
    exact Nat.sub_le_sub_left (UInt64.le_iff_toNat_le.mp h) _
  · exact UInt64.zero_le

section Laws

variable {zero : F64} (laws : SalienceLaws F32 zero)

include laws

theorem salience_atMost_weight {c : RetentionCandidate F32} (unit : InUnit F32 zero c.weight)
    (asOfUnixMs halfLifeMs : UInt64) : AtMost (c.salience asOfUnixMs halfLifeMs) c.weight := by
  by_cases h : halfLifeMs = 0
  · rw [h, salience_of_no_halfLife]
    exact AtMost.refl _
  · cases hr : c.reference with
    | none =>
      rw [salience_of_no_reference hr]
      exact AtMost.refl _
    | some reference =>
      rw [salience_of_reference hr _ h]
      exact laws.mul_le _ _ unit (laws.decay_unit _ _ h)

/-- A dominating candidate has at least the score of the other, at every time. -/
theorem salience_of_dominates {a b : RetentionCandidate F32} {halfLifeMs : UInt64}
    (dominates : Dominates halfLifeMs a b) (ha : InUnit F32 zero a.weight)
    (hb : InUnit F32 zero b.weight) (asOfUnixMs : UInt64) :
    AtMost (b.salience asOfUnixMs halfLifeMs) (a.salience asOfUnixMs halfLifeMs) := by
  obtain ⟨weight, recency⟩ := dominates
  by_cases h : halfLifeMs = 0
  · rw [h, salience_of_no_halfLife, salience_of_no_halfLife]
    exact weight
  · rcases recency with zeroed | ⟨valid, written⟩ | ⟨newer, older, hnewer, holder, le⟩
    · exact absurd zeroed h
    · have timeless : a.reference = none := by
        rw [reference, valid, written]
        rfl
      rw [salience_of_no_reference timeless]
      exact (salience_atMost_weight laws hb _ _).trans weight
    · rw [salience_of_reference hnewer _ h, salience_of_reference holder _ h]
      exact laws.mul_mono _ _ _ _ hb ha (laws.decay_unit _ _ h) (laws.decay_unit _ _ h) weight
        (laws.decay_antitone _ _ _ h (saturatingSub_antitone asOfUnixMs le))

end Laws

instance (asOfUnixMs halfLifeMs : UInt64) (view : ι → RetentionCandidate F32) :
    Std.TransCmp fun a b => compareSalience asOfUnixMs halfLifeMs (view a) (view b) :=
  (Ranking.comap (fun e => (view e).salience asOfUnixMs halfLifeMs)
    ⟨F64Ops.totalCmp, inferInstance⟩).trans

theorem pair_sublist_of_getElem? {α : Type} {l : List α} {i j : Nat} {a b : α} (h : i < j)
    (ha : l[i]? = some a) (hb : l[j]? = some b) : [a, b].Sublist l := by
  rw [← List.take_append_drop j l]
  have front : a ∈ l.take j := List.mem_of_getElem? ((List.getElem?_take_of_lt h).trans ha)
  have back : b ∈ l.drop j := List.mem_of_getElem? (i := 0) (by rwa [List.getElem?_drop])
  exact (List.singleton_sublist.mpr front).append (List.singleton_sublist.mpr back)

section Reached

variable {view : ι → RetentionCandidate F32} {before : List RetentionRule}
  {entries pool : List ι} {report : RetentionReport ι}

theorem reached_perm (reach : applyRules view before {} entries = (report, pool)) :
    ((settled (stages view before) entries).map Prod.fst ++ pool).Perm entries := by
  rw [applyRules_eq, Prod.mk.injEq] at reach
  rw [← reach.2]
  exact settled_passed_perm _ _

theorem nodup_reached (nodup : entries.Nodup)
    (reach : applyRules view before {} entries = (report, pool)) : pool.Nodup :=
  ((reached_perm reach).nodup_iff.mpr nodup).of_append_right

theorem mem_of_mem_reached (reach : applyRules view before {} entries = (report, pool)) {e : ι}
    (h : e ∈ pool) : e ∈ entries :=
  (reached_perm reach).subset (List.mem_append_right _ h)

/-- An entry that reaches a rule has no decision yet. -/
theorem not_mem_bucket_of_reached (nodup : entries.Nodup)
    (reach : applyRules view before {} entries = (report, pool)) {e : ι} (h : e ∈ pool)
    (d : RetentionDecision) : e ∉ report.bucket d := by
  have once := (reached_perm reach).nodup_iff.mpr nodup
  rw [applyRules_eq, Prod.mk.injEq] at reach
  rw [← reach.1, RetentionReport.bucket_record, RetentionReport.bucket_empty, List.nil_append,
    mem_entriesWith]
  intro decided
  exact List.disjoint_of_nodup_append once (List.mem_map_of_mem decided) h

end Reached

/-- `KeepTopBySalience` never keeps a candidate and passes on one that dominates it and is earlier
in the pool. -/
theorem RetentionPolicy.keepTopBySalience_dominance {zero : F64} (laws : SalienceLaws F32 zero)
    (before : List RetentionRule) (count : Nat) (halfLifeMs asOfUnixMs : UInt64)
    {candidates : List (RetentionCandidate F32)}
    (unit : ∀ c ∈ candidates, InUnit F32 zero c.weight)
    {report next : RetentionReport (RetentionCandidate F32 × Nat)}
    {pool passed : List (RetentionCandidate F32 × Nat)}
    (reach : applyRules Prod.fst before {} candidates.zipIdx = (report, pool))
    (step : (RetentionRule.keepTopBySalience count halfLifeMs asOfUnixMs).applyBatch Prod.fst
      report pool = (next, passed))
    {i j : Nat} (earlier : i < j) {a b : RetentionCandidate F32 × Nat} (ha : pool[i]? = some a)
    (hb : pool[j]? = some b) (dominates : Dominates halfLifeMs a.1 b.1) :
    ¬ (b ∈ next.keep ∧ a ∈ passed) := by
  have pair := pair_sublist_of_getElem? earlier ha hb
  have inUnit : ∀ e ∈ pool, InUnit F32 zero e.1.weight := fun e he =>
    unit _ (List.fst_mem_of_mem_zipIdx (mem_of_mem_reached reach he))
  obtain ⟨chosen, passed', top, step'⟩ :=
    (RetentionRule.Ranks.keepTopBySalience count halfLifeMs asOfUnixMs).applyBatch_eq Prod.fst
      report pool
  rw [step, Prod.mk.injEq] at step'
  obtain ⟨rfl, rfl⟩ := step'
  rintro ⟨kept, passes⟩
  have ha := List.mem_of_getElem? ha
  have hb := List.mem_of_getElem? hb
  have chosen := (List.mem_append.mp kept).resolve_left
    (not_mem_bucket_of_reached (nodup_zipIdx _) reach hb .keep)
  have higher := salience_of_dominates laws dominates (inUnit a ha) (inUnit b hb) asOfUnixMs
  exact top.not_overtaken (nodup_reached (nodup_zipIdx _) reach) pair higher ⟨chosen, passes⟩

end MemoryPolicy

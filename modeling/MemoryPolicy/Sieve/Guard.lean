import MemoryPolicy.Sieve.Single

/-! Guards: stages that look at each entry alone and settle every entry outside a set.  Past a
guard the pool has only entries of the set, so two pools with the same entries of the set give
these entries the same verdicts, whatever else they hold. -/

namespace Sieve

variable {α δ : Type*}

theorem settled_each_filter (p : α → Bool) (verdict : α → Option δ) (pool : List α) :
    ((Stage.each verdict).settled pool).filter (fun x => p x.1) =
      (Stage.each verdict).settled (pool.filter p) := by
  simp only [Stage.settled]
  induction pool with
  | nil => rfl
  | cons a pool ih => cases hv : verdict a <;> cases hp : p a <;> simp [hv, hp, ih]

theorem passed_each_filter (p : α → Bool) (verdict : α → Option δ) (pool : List α) :
    ((Stage.each verdict).passed pool).filter p =
      (Stage.each verdict).passed (pool.filter p) :=
  List.filter_comm _ _ _

/-- The stages are a guard for the set `p`: none of them ranks entries, and together they settle
every entry outside the set. -/
structure Guard (p : α → Bool) (stages : List (Stage α δ)) : Prop where
  alone : ∀ s ∈ stages, ∃ verdict, s = .each verdict
  settles : ∀ a, single stages a = none → p a = true

theorem filter_of_alone (p : α → Bool) {stages : List (Stage α δ)}
    (alone : ∀ s ∈ stages, ∃ verdict, s = .each verdict) (pool : List α) :
    (settled stages pool).filter (fun x => p x.1) = settled stages (pool.filter p) ∧
      (passed stages pool).filter p = passed stages (pool.filter p) := by
  induction stages generalizing pool with
  | nil => exact ⟨rfl, rfl⟩
  | cons s stages ih =>
    obtain ⟨verdict, rfl⟩ := alone s (by simp)
    obtain ⟨hs, hp⟩ := ih (fun t ht => alone t (by simp [ht])) ((Stage.each verdict).passed pool)
    simp only [settled, passed, List.filter_append, settled_each_filter, hs, hp,
      passed_each_filter, and_self]

namespace Guard

variable {p : α → Bool} {stages : List (Stage α δ)} (guard : Guard p stages)
include guard

theorem of_mem_passed {back : List (Stage α δ)} {pool : List α} {a : α}
    (h : a ∈ passed (stages ++ back) pool) : p a = true := by
  rw [passed_append] at h
  exact guard.settles a (single_of_mem_passed (mem_of_mem_passed h))

theorem passed_eq (pool : List α) : passed stages pool = passed stages (pool.filter p) := by
  rw [← (filter_of_alone p guard.alone pool).2, List.filter_eq_self.mpr]
  intro a h
  exact guard.settles a (single_of_mem_passed h)

/-- Past a guard, the verdicts on the entries of the set depend on these entries only. -/
theorem verdicts_filter (back : List (Stage α δ)) (default : δ) {xs ys : List α}
    (same : xs.filter p = ys.filter p) :
    (verdicts (stages ++ back) default xs).filter (fun x => p x.1) =
      (verdicts (stages ++ back) default ys).filter fun x => p x.1 := by
  simp only [verdicts, settled_append, passed_append, List.filter_append,
    (filter_of_alone p guard.alone _).1, guard.passed_eq xs, guard.passed_eq ys, same]

end Guard

end Sieve

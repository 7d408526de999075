import MemoryPolicy.Sieve.Basic

/-! Pools in which no two entries have the same rank.  The order in which such a pool is listed has
no influence on the verdicts. -/

namespace Sieve

open StableSort

variable {α δ : Type*}

/-- A `top` stage ranks no two entries of the pool alike. -/
def Stage.Strict (pool : List α) : Stage α δ → Prop
  | .each _ => True
  | .top ranking _ _ => Untied ranking.cmp pool

namespace Stage

theorem Strict.perm {s : Stage α δ} {xs ys : List α} (h : s.Strict xs) (perm : xs.Perm ys) :
    s.Strict ys := by
  cases s with
  | each verdict => trivial
  | top ranking count d =>
    have := ranking.trans
    exact Untied.perm h perm

theorem Strict.sublist {s : Stage α δ} {xs ys : List α} (h : s.Strict ys) (sub : xs.Sublist ys) :
    s.Strict xs := by
  cases s with
  | each verdict => trivial
  | top ranking count d => exact Untied.sublist h sub

theorem passed_subperm (s : Stage α δ) (pool : List α) :
    ∃ rest, (rest ++ s.passed pool).Perm pool :=
  ⟨_, s.perm pool⟩

theorem Strict.passed {s t : Stage α δ} {pool : List α} (h : s.Strict pool) :
    s.Strict (t.passed pool) := by
  obtain ⟨rest, perm⟩ := t.passed_subperm pool
  exact (h.perm perm.symm).sublist (List.sublist_append_right _ _)

theorem settled_perm_of_strict {s : Stage α δ} {xs ys : List α} (strict : s.Strict xs)
    (perm : xs.Perm ys) : (s.settled xs).Perm (s.settled ys) := by
  cases s with
  | each verdict => exact perm.filterMap _
  | top ranking count d =>
    have := ranking.trans
    rw [settled, settled, sortBy_eq_of_perm strict perm]

theorem passed_perm_of_strict {s : Stage α δ} {xs ys : List α} (strict : s.Strict xs)
    (perm : xs.Perm ys) : (s.passed xs).Perm (s.passed ys) := by
  cases s with
  | each verdict => exact perm.filter _
  | top ranking count d =>
    have := ranking.trans
    rw [passed, passed, sortBy_eq_of_perm strict perm]

end Stage

/-- A pool without equal ranks gets the same verdicts in every order. -/
theorem verdicts_perm_of_strict {stages : List (Stage α δ)} {default : δ} {xs ys : List α}
    (strict : ∀ s ∈ stages, s.Strict xs) (perm : xs.Perm ys) :
    (verdicts stages default xs).Perm (verdicts stages default ys) := by
  induction stages generalizing xs ys with
  | nil => exact perm.map _
  | cons s stages ih =>
    have here := strict s (by simp)
    have rest := ih (fun t ht => (strict t (by simp [ht])).passed)
      (Stage.passed_perm_of_strict here perm)
    have whole := (Stage.settled_perm_of_strict here perm).append rest
    simpa only [verdicts, settled, passed, List.append_assoc] using whole

end Sieve

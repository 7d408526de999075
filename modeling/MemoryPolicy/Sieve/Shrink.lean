import MemoryPolicy.Sieve.Single
import Mathlib.Data.List.Nodup

/-! What fewer entries in the pool change for those that stay.  In a smaller pool, an entry keeps
its verdict unless a `top` stage now has room for it.  A `top` stage with a larger count leaves a
smaller pool to the stages behind it. -/

namespace Sieve

open StableSort

variable {α δ : Type*}

namespace Stage

theorem passed_sublist (s : Stage α δ) {pool' pool : List α} (h : pool'.Sublist pool) :
    (s.passed pool').Sublist (s.passed pool) := by
  cases s with
  | each verdict => exact h.filter _
  | top ranking count d =>
    have := ranking.trans
    exact (sortBy_sublist h).drop count

theorem nodup_passed (s : Stage α δ) {pool : List α} (h : pool.Nodup) : (s.passed pool).Nodup :=
  ((s.perm pool).nodup_iff.mpr h).of_append_right

theorem mem_settled_top {ranking : Ranking α} {count : Nat} {e d : δ} {pool : List α} {a : α} :
    (a, d) ∈ (Stage.top ranking count e).settled pool ↔
      a ∈ (sortBy ranking.cmp pool).take count ∧ e = d := by
  simp [settled, List.mem_map, -List.map_take]

theorem mem_take_or_drop (ranking : Ranking α) (count : Nat) {pool : List α} {a : α}
    (h : a ∈ pool) :
    a ∈ (sortBy ranking.cmp pool).take count ∨ a ∈ (sortBy ranking.cmp pool).drop count := by
  rw [← List.mem_append, List.take_append_drop]
  exact (sortBy_perm ranking.cmp pool).symm.subset h

/-- The first `count` entries of a ranking stay among the first when the pool gets smaller. -/
theorem mem_take_sortBy_of_sublist {ranking : Ranking α} {count : Nat} {pool' pool : List α}
    (h : pool'.Sublist pool) (nodup : pool.Nodup) {a : α} (ha : a ∈ pool')
    (first : a ∈ (sortBy ranking.cmp pool).take count) :
    a ∈ (sortBy ranking.cmp pool').take count := by
  have := ranking.trans
  rcases mem_take_or_drop ranking count ha with here | here
  · exact here
  · have behind := ((sortBy_sublist h).drop count).subset here
    have sorted : (sortBy ranking.cmp pool).Nodup := (sortBy_perm _ _).nodup_iff.mpr nodup
    exact absurd behind (List.disjoint_take_drop sorted le_rfl first)

theorem mem_settled_of_sublist {s : Stage α δ} {pool' pool : List α} (h : pool'.Sublist pool)
    (nodup : pool.Nodup) {a : α} {d : δ} (ha : a ∈ pool') (settles : (a, d) ∈ s.settled pool) :
    (a, d) ∈ s.settled pool' := by
  cases s with
  | each verdict => exact mem_settled_each.mpr ⟨ha, (mem_settled_each.mp settles).2⟩
  | top ranking count e =>
    obtain ⟨first, he⟩ := mem_settled_top.mp settles
    exact mem_settled_top.mpr ⟨mem_take_sortBy_of_sublist h nodup ha first, he⟩

/-- An entry that a stage passes on is passed on in the smaller pool too, or gets its place. -/
theorem passed_or_settled {k : δ} {s : Stage α δ} (hk : s.TopVerdict k) {pool' pool : List α}
    {a : α} (ha : a ∈ pool') (passes : a ∈ s.passed pool) :
    a ∈ s.passed pool' ∨ (a, k) ∈ s.settled pool' := by
  cases s with
  | each verdict => exact .inl (mem_passed_each.mpr ⟨ha, (mem_passed_each.mp passes).2⟩)
  | top ranking count e =>
    rcases mem_take_or_drop ranking count ha with first | behind
    · exact .inr (mem_settled_top.mpr ⟨first, hk⟩)
    · exact .inl behind

end Stage

theorem mem_verdicts_cons {s : Stage α δ} {stages : List (Stage α δ)} {default : δ}
    {pool : List α} {v : α × δ} :
    v ∈ verdicts (s :: stages) default pool ↔
      v ∈ s.settled pool ∨ v ∈ verdicts stages default (s.passed pool) := by
  simp only [verdicts, settled, passed, List.mem_append, or_assoc]

theorem mem_verdicts_append {front back : List (Stage α δ)} {default : δ} {pool : List α}
    {v : α × δ} :
    v ∈ verdicts (front ++ back) default pool ↔
      v ∈ settled front pool ∨ v ∈ verdicts back default (passed front pool) := by
  simp only [verdicts, settled_append, passed_append, List.mem_append, or_assoc]

/-- In a smaller pool an entry keeps its verdict, or gets the verdict `k` of a rank. -/
theorem mem_verdicts_of_sublist {k : δ} {stages : List (Stage α δ)}
    (hk : ∀ s ∈ stages, s.TopVerdict k) {default : δ} {pool' pool : List α}
    (h : pool'.Sublist pool) (nodup : pool.Nodup) {a : α} {d : δ} (ha : a ∈ pool')
    (hd : (a, d) ∈ verdicts stages default pool) :
    (a, d) ∈ verdicts stages default pool' ∨ (a, k) ∈ verdicts stages default pool' := by
  induction stages generalizing pool' pool with
  | nil =>
    obtain ⟨_, _, same⟩ := List.mem_map.mp hd
    cases same
    exact .inl (List.mem_map_of_mem ha)
  | cons s stages ih =>
    simp only [mem_verdicts_cons]
    rcases mem_verdicts_cons.mp hd with settles | later
    · exact .inl (.inl (Stage.mem_settled_of_sublist h nodup ha settles))
    · have reaches := mem_of_mem_verdicts later
      rcases Stage.passed_or_settled (hk s (by simp)) ha reaches with here | here
      · have rest := ih (fun t ht => hk t (by simp [ht])) (s.passed_sublist h)
          (s.nodup_passed nodup) here later
        exact rest.imp .inr .inr
      · exact .inr (.inl here)

theorem nodup_passed (stages : List (Stage α δ)) {pool : List α} (h : pool.Nodup) :
    (passed stages pool).Nodup :=
  ((settled_passed_perm stages pool).nodup_iff.mpr h).of_append_right

/-- A larger count at one stage gives an entry the verdict of a rank, or leaves its verdict. -/
theorem mem_verdicts_of_count_le {k : δ} {front back : List (Stage α δ)}
    (hk : ∀ s ∈ back, s.TopVerdict k) (ranking : Ranking α) {count count' : Nat}
    (larger : count ≤ count') {default : δ} {pool : List α} (nodup : pool.Nodup) {a : α} {d : δ}
    (hd : (a, d) ∈ verdicts (front ++ .top ranking count k :: back) default pool) :
    (a, d) ∈ verdicts (front ++ .top ranking count' k :: back) default pool ∨
      (a, k) ∈ verdicts (front ++ .top ranking count' k :: back) default pool := by
  simp only [mem_verdicts_append, mem_verdicts_cons] at hd ⊢
  rcases hd with before | here | later
  · exact .inl (.inl before)
  · obtain ⟨first, rfl⟩ := Stage.mem_settled_top.mp here
    have stays := List.take_subset_take_left (sortBy ranking.cmp (passed front pool)) larger first
    exact .inl (.inr (.inl (Stage.mem_settled_top.mpr ⟨stays, rfl⟩)))
  · have reaches : a ∈ passed front pool :=
      ((Stage.top ranking count k).perm _).subset
        (List.mem_append_right _ (mem_of_mem_verdicts later))
    rcases Stage.mem_take_or_drop ranking count' reaches with first | behind
    · exact .inr (.inr (.inl (Stage.mem_settled_top.mpr ⟨first, rfl⟩)))
    · have smaller : ((Stage.top ranking count' k).passed (passed front pool)).Sublist
          ((Stage.top ranking count k).passed (passed front pool)) :=
        List.drop_sublist_drop_left _ larger
      have rest := mem_verdicts_of_sublist hk smaller
        (Stage.nodup_passed _ (nodup_passed front nodup)) behind later
      exact rest.imp (.inr ∘ .inr) (.inr ∘ .inr)

end Sieve

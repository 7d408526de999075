import MemoryPolicy.Sieve.Basic

/-! Adjacent stages of one ranking.  The entries that a `top` stage passes on are in the order of
its ranking, so a second one settles the entries that come next, as a larger count would. -/

namespace Sieve

open StableSort

variable {α δ : Type*}

theorem sortBy_passed_top (ranking : Ranking α) (count : Nat) (d : δ) (pool : List α) :
    sortBy ranking.cmp ((Stage.top ranking count d).passed pool) =
      (Stage.top ranking count d).passed pool := by
  have := ranking.trans
  apply sortBy_of_pairwise
  exact (sortBy_pairwise ranking.cmp pool).sublist (List.drop_sublist _ _)

theorem passed_top_top (ranking : Ranking α) (count count' : Nat) (d : δ) (pool : List α) :
    (Stage.top ranking count' d).passed ((Stage.top ranking count d).passed pool) =
      (Stage.top ranking (count + count') d).passed pool := by
  rw [Stage.passed, sortBy_passed_top]
  exact List.drop_drop

theorem settled_top_top (ranking : Ranking α) (count count' : Nat) (d : δ) (pool : List α) :
    (Stage.top ranking count d).settled pool ++
        (Stage.top ranking count' d).settled ((Stage.top ranking count d).passed pool) =
      (Stage.top ranking (count + count') d).settled pool := by
  simp only [Stage.settled]
  rw [sortBy_passed_top, ← List.map_append, Stage.passed, ← List.take_add]

/-- Two adjacent stages of one ranking settle what one stage with the sum of their counts does. -/
theorem verdicts_top_top (front back : List (Stage α δ)) (ranking : Ranking α)
    (count count' : Nat) (d default : δ) (pool : List α) :
    verdicts (front ++ .top ranking count d :: .top ranking count' d :: back) default pool =
      verdicts (front ++ .top ranking (count + count') d :: back) default pool := by
  simp only [verdicts, settled_append, passed_append, settled, passed, passed_top_top,
    ← settled_top_top ranking count count', List.append_assoc]

end Sieve

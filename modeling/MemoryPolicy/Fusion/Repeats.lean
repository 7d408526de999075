import MemoryPolicy.Fusion.Exact
import Mathlib.Algebra.Order.BigOperators.Group.List
import Mathlib.Algebra.Order.Field.Basic

/-! Lists that repeat an item.  The loop counts every occurrence as a vote, so an item that a list
repeats gets more than the reciprocal of its best rank there; the documented score, a sum over
lists, is computed exactly for lists without repeats. -/

namespace MemoryPolicy.Fusion

variable {T : Type} [DecidableEq T]

theorem contributions_perm (k : ℚ) {votes votes' : List (T × Nat)} (perm : votes.Perm votes')
    (item : T) : (contributions k votes item).Perm (contributions k votes' item) :=
  (perm.filter _).map _

theorem contributions_pos {k : ℚ} (positive : 0 < k) (votes : List (T × Nat)) (item : T) :
    ∀ c ∈ contributions k votes item, 0 < c := by
  intro c mem
  obtain ⟨vote, -, rfl⟩ := List.mem_map.mp mem
  rw [contribution_rat]
  exact one_div_pos.mpr (add_pos_of_pos_of_nonneg positive (Nat.cast_nonneg _))

/-- The later occurrences in the list. -/
def laterVotes (list : List T) : List (T × Nat) :=
  list.zipIdx.filter fun vote => !decide (list.idxOf vote.1 = vote.2)

theorem sum_zipIdx (k : ℚ) (list : List T) (item : T) :
    (contributions k list.zipIdx item).sum =
      (contributions k (firstVotes list) item).sum +
        (contributions k (laterVotes list) item).sum := by
  rw [← List.sum_append, ← contributions_append]
  apply List.Perm.sum_eq
  apply contributions_perm
  exact (List.filter_append_perm _ _).symm

theorem sum_laterVotes_nonneg {k : ℚ} (positive : 0 < k) (list : List T) (item : T) :
    0 ≤ (contributions k (laterVotes list) item).sum :=
  List.sum_nonneg fun c mem => (contributions_pos positive _ item c mem).le

theorem sum_laterVotes_pos {k : ℚ} (positive : 0 < k) {list : List T} {item : T}
    (repeated : item ∈ (laterVotes list).map Prod.fst) :
    0 < (contributions k (laterVotes list) item).sum := by
  apply List.sum_pos _ (contributions_pos positive _ item)
  exact fun none => contributions_eq_nil_iff.mp none repeated

theorem exists_repeated {list : List T} (h : ¬ list.Nodup) :
    ∃ item ∈ list, item ∈ (laterVotes list).map Prod.fst := by
  rw [← firstVotes_eq_zipIdx_iff, firstVotes, List.filter_eq_self] at h
  push Not at h
  obtain ⟨vote, mem, later⟩ := h
  refine ⟨vote.1, ?_, List.mem_map_of_mem (List.mem_filter.mpr ⟨mem, by simpa using later⟩)⟩
  exact List.mem_of_getElem? (List.mem_zipIdx_iff_getElem?.mp mem)

/-- An item that a list repeats is scored above its reciprocal ranks. -/
theorem reciprocalRanks_lt_score {k : ℚ} (positive : 0 < k) {lists : List (List T)}
    {list : List T} {item : T} (mem : list ∈ lists)
    (repeated : item ∈ (laterVotes list).map Prod.fst) :
    reciprocalRanks k lists item < score k (lists.map List.zipIdx).flatten item := by
  rw [score_flatten, List.map_map, ← sum_map_firstVotes]
  apply List.sum_lt_sum
  · intro list _
    rw [Function.comp_apply, sum_zipIdx]
    exact le_add_of_nonneg_right (sum_laterVotes_nonneg positive list item)
  · refine ⟨list, mem, ?_⟩
    rw [Function.comp_apply, sum_zipIdx]
    exact lt_add_of_pos_right _ (sum_laterVotes_pos positive repeated)

theorem reciprocalRanks_le {k : ℚ} (positive : 0 < k) (lists : List (List T)) (item : T) :
    reciprocalRanks k lists item ≤ (lists.filter fun list => item ∈ list).length / k := by
  have each : ∀ c ∈ (lists.filter fun list => item ∈ list).map fun list =>
      1 / (k + list.idxOf item), c ≤ 1 / k := by
    intro c mem
    obtain ⟨list, -, rfl⟩ := List.mem_map.mp mem
    apply one_div_le_one_div_of_le positive
    exact le_add_of_nonneg_right (Nat.cast_nonneg _)
  have bound := List.sum_le_card_nsmul _ _ each
  rwa [List.length_map, nsmul_eq_mul, mul_one_div] at bound

/-- A list votes at most once for an item, at the item's best rank. -/
structure VotesOnce (k : ℚ) (lists : List (List T)) : Prop where
  unchanged : fuseVotes (clamp k) (lists.map firstVotes) = reciprocalRankFusion lists k
  contributes : ∀ item s, (item, s) ∈ reciprocalRankFusion lists k →
    s = reciprocalRanks (clamp k) lists item
  bounded : 0 < k → ∀ item s, (item, s) ∈ reciprocalRankFusion lists k →
    s ≤ (lists.filter fun list => item ∈ list).length / k

/-- Lists vote at most once per item when they do not repeat any, and only then. -/
theorem votesOnce_iff (k : ℚ) (lists : List (List T)) :
    VotesOnce k lists ↔ ∀ list ∈ lists, list.Nodup := by
  constructor
  · intro once list mem
    by_contra repeats
    obtain ⟨item, listed, repeated⟩ := exists_repeated repeats
    have entry : (item, score (clamp k) (lists.map List.zipIdx).flatten item) ∈
        reciprocalRankFusion lists k :=
      mem_fuseVotes.mpr ⟨mem_candidates_zipIdx.mpr ⟨list, mem, listed⟩, rfl⟩
    have above := reciprocalRanks_lt_score (clamp_pos k) mem repeated
    rw [once.contributes _ _ entry] at above
    exact lt_irrefl _ above
  · intro distinct
    have scores : ∀ item s, (item, s) ∈ reciprocalRankFusion lists k →
        s = reciprocalRanks (clamp k) lists item := by
      intro item s mem
      rw [← score_zipIdx _ distinct]
      exact (mem_fuseVotes.mp mem).2
    refine ⟨?_, scores, ?_⟩
    · rw [reciprocalRankFusion]
      congr 1
      apply List.map_congr_left
      intro list mem
      exact firstVotes_eq_zipIdx_iff.mpr (distinct list mem)
    · intro positive item s mem
      rw [scores item s mem, clamp_of_pos positive]
      exact reciprocalRanks_le positive lists item

/-- One list, with the second document repeated: its two votes take it past the first one. -/
theorem repeated_overtakes :
    reciprocalRankFusion [["b", "a", "a"]] (60 : ℚ) = [("a", 1 / 61 + 1 / 62), ("b", 1 / 60)] ∧
      fuseVotes (60 : ℚ) [firstVotes ["b", "a", "a"]] = [("b", 1 / 60), ("a", 1 / 61)] ∧
      ¬ VotesOnce 60 [["b", "a", "a"]] := by
  have fused : reciprocalRankFusion [["b", "a", "a"]] (60 : ℚ) =
      [("a", 1 / 61 + 1 / 62), ("b", 1 / 60)] := by
    decide +kernel
  refine ⟨fused, by decide +kernel, fun once => ?_⟩
  have bound := once.bounded (by decide) "a" (1 / 61 + 1 / 62) (by rw [fused]; simp)
  exact absurd bound (by decide +kernel)

end MemoryPolicy.Fusion

import MemoryPolicy.Fusion.Votes
import Mathlib.Algebra.BigOperators.Group.List.Basic
import Mathlib.Algebra.Order.Field.Rat
import Mathlib.Data.Rat.Cast.Order

/-! Fusion with exact scores computes its definition: each listed item once, with the sum of its
reciprocal ranks, by decreasing score and then by first occurrence. -/

namespace MemoryPolicy.Fusion

open FirstSeen StableSort

theorem transCmp_compare : Std.TransCmp (compare : ℚ → ℚ → Ordering) := inferInstance

instance : FusionOps ℚ where
  zero := 0
  one := 1
  epsilon := 1 / 2 ^ 52
  ofUsize n := n
  add x y := x + y
  div x y := x / y
  gt x y := decide (y < x)
  totalCmp x y := compare x y
  totalCmp_trans := transCmp_compare

variable {T : Type}

theorem ranking_eq_lt_iff {score : T → ℚ} {place : T → Nat} {a b : T} :
    ranking score place a b = .lt ↔
      score b < score a ∨ score a = score b ∧ place a < place b := by
  have byScore : ranking score place a b =
      (compare (score b) (score a)).then (compare (place a) (place b)) := rfl
  rw [byScore, Ordering.then_eq_lt, compare_lt_iff_lt, compare_eq_iff_eq, compare_lt_iff_lt,
    eq_comm]

variable [DecidableEq T]

theorem clamp_of_pos {k : ℚ} (positive : 0 < k) : clamp k = k :=
  if_pos (decide_eq_true positive)

theorem clamp_pos (k : ℚ) : 0 < clamp k := by
  by_cases positive : 0 < k
  · rwa [clamp_of_pos positive]
  · have epsilon : clamp k = 1 / 2 ^ 52 := if_neg (Bool.not_eq_true _ ▸ decide_eq_false positive)
    rw [epsilon]
    exact one_div_pos.mpr (pow_pos (by decide) _)

/-! ### Scores -/

theorem contribution_rat (k : ℚ) (rank : Nat) : contribution k rank = 1 / (k + rank) := rfl

theorem total_rat (cs : List ℚ) : total cs = cs.sum := by
  induction cs using List.reverseRecOn with
  | nil => rfl
  | append_singleton cs c ih =>
    by_cases first : cs = []
    · subst first
      simp [total]
    · rw [total_concat first, ih, List.sum_append, List.sum_singleton]
      rfl

theorem score_flatten (k : ℚ) (lists : List (List (T × Nat))) (item : T) :
    score k lists.flatten item = (lists.map fun votes => (contributions k votes item).sum).sum := by
  induction lists with
  | nil => rfl
  | cons votes lists ih =>
    rw [List.map_cons, List.sum_cons, ← ih, List.flatten_cons, score, total_rat,
      contributions_append, List.sum_append, score, total_rat]

/-- The sum of `1 / (k + rank)` over the lists with the item. -/
def reciprocalRanks (k : ℚ) (lists : List (List T)) (item : T) : ℚ :=
  ((lists.filter fun list => item ∈ list).map fun list => 1 / (k + list.idxOf item)).sum

theorem sum_firstVotes (k : ℚ) (list : List T) (item : T) :
    (contributions k (firstVotes list) item).sum =
      if item ∈ list then 1 / (k + list.idxOf item) else 0 := by
  rw [contributions_firstVotes]
  split
  · rw [List.sum_singleton, contribution_rat]
  · rfl

/-- Lists that vote at most once add up to the reciprocal ranks. -/
theorem sum_map_firstVotes (k : ℚ) (lists : List (List T)) (item : T) :
    (lists.map fun list => (contributions k (firstVotes list) item).sum).sum =
      reciprocalRanks k lists item := by
  induction lists with
  | nil => rfl
  | cons list lists ih =>
    rw [List.map_cons, List.sum_cons, ih, sum_firstVotes, reciprocalRanks, reciprocalRanks,
      List.filter_cons]
    by_cases h : item ∈ list
    · simp [h]
    · simp [h]

theorem score_zipIdx (k : ℚ) {lists : List (List T)} (distinct : ∀ list ∈ lists, list.Nodup)
    (item : T) : score k (lists.map List.zipIdx).flatten item = reciprocalRanks k lists item := by
  rw [score_flatten, List.map_map, ← sum_map_firstVotes]
  congr 1
  apply List.map_congr_left
  intro list mem
  rw [firstVotes_eq_zipIdx_iff.mpr (distinct list mem)]
  rfl

theorem reciprocalRanks_perm {k : ℚ} {lists lists' : List (List T)} (perm : lists.Perm lists')
    (item : T) : reciprocalRanks k lists item = reciprocalRanks k lists' item :=
  ((perm.filter _).map _).sum_eq

/-! ### The ranking -/

/-- The definition of reciprocal rank fusion. -/
structure Fuses (k : ℚ) (lists : List (List T)) (fused : List (T × ℚ)) : Prop where
  once : (fused.map Prod.fst).Nodup
  items : ∀ item, item ∈ fused.map Prod.fst ↔ ∃ list ∈ lists, item ∈ list
  scores : ∀ item s, (item, s) ∈ fused → s = reciprocalRanks k lists item
  ordered : fused.Pairwise fun a b => b.2 < a.2 ∨
    a.2 = b.2 ∧ lists.flatten.idxOf a.1 < lists.flatten.idxOf b.1

theorem fuses_reciprocalRankFusion {k : ℚ} (positive : 0 < k) {lists : List (List T)}
    (distinct : ∀ list ∈ lists, list.Nodup) :
    Fuses k lists (reciprocalRankFusion lists k) := by
  have scored := score_zipIdx k distinct
  rw [reciprocalRankFusion, clamp_of_pos positive]
  refine ⟨?_, ?_, ?_, ?_⟩
  · rw [map_fst_fuseVotes, (sortBy_perm _ _).nodup_iff]
    exact nodup_candidates _
  · intro item
    rw [map_fst_fuseVotes, (sortBy_perm _ _).mem_iff, mem_candidates_zipIdx]
  · intro item s mem
    rw [← scored]
    exact (mem_fuseVotes.mp mem).2
  · rw [fuseVotes_eq, List.pairwise_map]
    apply (sortBy_strict (untied_ranking _ (nodup_candidates _))).imp_of_mem
    intro a b ha hb before
    have ha := (sortBy_perm _ _).mem_iff.mp ha
    have hb := (sortBy_perm _ _).mem_iff.mp hb
    rw [candidates_zipIdx, List.mem_eraseDups] at ha hb
    rw [ranking_eq_lt_iff, candidates_zipIdx, idxOf_eraseDups_lt_iff ha hb] at before
    exact before

namespace Fuses

variable {k : ℚ} {lists : List (List T)} {fused : List (T × ℚ)}

theorem mem_iff (h : Fuses k lists fused) {entry : T × ℚ} :
    entry ∈ fused ↔
      (∃ list ∈ lists, entry.1 ∈ list) ∧ entry.2 = reciprocalRanks k lists entry.1 := by
  constructor
  · intro mem
    exact ⟨(h.items entry.1).mp (List.mem_map_of_mem mem), h.scores entry.1 entry.2 mem⟩
  · rintro ⟨listed, score⟩
    obtain ⟨other, mem, same⟩ := List.mem_map.mp ((h.items entry.1).mpr listed)
    have : other = entry := by
      rw [Prod.ext_iff, score, ← same]
      exact ⟨rfl, h.scores other.1 other.2 mem⟩
    rwa [← this]

/-- Entries with different scores are in the order of their scores. -/
theorem pair_sublist_iff (h : Fuses k lists fused) {x y : T × ℚ} (hx : x ∈ fused)
    (hy : y ∈ fused) (differ : x.2 ≠ y.2) : [x, y].Sublist fused ↔ y.2 < x.2 := by
  rw [StableSort.pair_sublist_iff _ h.ordered hx hy, or_iff_left fun tied => differ tied.1]
  rintro a b (higher | ⟨tied, earlier⟩) (higher' | ⟨tied', earlier'⟩)
  · exact lt_asymm higher higher'
  · exact higher.ne tied'
  · exact higher'.ne tied
  · exact lt_asymm earlier earlier'

end Fuses

/-- Fusion of lists without repeats computes the definition; the order of the lists matters only
for the order of items with equal scores. -/
theorem reciprocalRankFusion_exact {k : ℚ} (positive : 0 < k) {lists : List (List T)}
    (distinct : ∀ list ∈ lists, list.Nodup) :
    Fuses k lists (reciprocalRankFusion lists k) ∧
    ∀ lists', lists.Perm lists' →
      (∀ entry, entry ∈ reciprocalRankFusion lists' k ↔ entry ∈ reciprocalRankFusion lists k) ∧
      ∀ x ∈ reciprocalRankFusion lists k, ∀ y ∈ reciprocalRankFusion lists k, x.2 ≠ y.2 →
        ([x, y].Sublist (reciprocalRankFusion lists' k) ↔
          [x, y].Sublist (reciprocalRankFusion lists k)) := by
  have fuses := fuses_reciprocalRankFusion positive distinct
  refine ⟨fuses, fun lists' perm => ?_⟩
  have distinct' : ∀ list ∈ lists', list.Nodup :=
    fun list mem => distinct list (perm.mem_iff.mpr mem)
  have fuses' := fuses_reciprocalRankFusion positive distinct'
  have same : ∀ entry,
      entry ∈ reciprocalRankFusion lists' k ↔ entry ∈ reciprocalRankFusion lists k := by
    intro entry
    rw [fuses'.mem_iff, fuses.mem_iff, reciprocalRanks_perm perm]
    simp only [perm.mem_iff]
  refine ⟨same, fun x hx y hy differ => ?_⟩
  rw [fuses'.pair_sublist_iff ((same x).mpr hx) ((same y).mpr hy) differ,
    fuses.pair_sublist_iff hx hy differ]

/-- Two rankings of four documents. -/
theorem reciprocalRankFusion_exact_two_lists :
    Fuses 60 [["a", "b", "c"], ["a", "c", "d"]]
      (reciprocalRankFusion [["a", "b", "c"], ["a", "c", "d"]] 60) :=
  (reciprocalRankFusion_exact (by decide) (by decide)).1

end MemoryPolicy.Fusion

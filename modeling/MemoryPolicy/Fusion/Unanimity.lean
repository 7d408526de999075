import MemoryPolicy.Fusion.Exact
import Mathlib.Algebra.Order.Field.Basic
import Mathlib.Order.Interval.Set.Defs

/-! Unanimity of fusion under rounding.  Of the score arithmetic only weak monotonicity is assumed.
An item that every list puts before another one has at least its score, and is first seen before it,
so it is ranked before it even if the two scores tie. -/

namespace MemoryPolicy.Fusion

open FirstSeen

variable {T F : Type} [FusionOps F]

/-- The order of `total_cmp`. -/
def AtMost (x y : F) : Prop := (FusionOps.totalCmp x y).isLE = true

theorem AtMost.trans {x y z : F} (hxy : AtMost x y) (hyz : AtMost y z) : AtMost x z :=
  Std.TransCmp.isLE_trans hxy hyz

theorem ranking_eq_lt {score : T → F} {place : T → Nat} {a b : T}
    (le : AtMost (score b) (score a)) (earlier : place a < place b) :
    ranking score place a b = .lt := by
  rw [ranking, Ordering.then_eq_lt, compare_lt_iff_lt]
  rcases Ordering.isLE_iff_eq_lt_or_eq_eq.mp le with higher | tied
  · exact .inl higher
  · exact .inr ⟨tied, earlier⟩

/-- What unanimity needs of the score arithmetic: a set of non-negative scores with the
contributions in it, on which addition is weakly monotone and never decreases a score. -/
structure WeaklyMonotone (k : F) (S : Set F) : Prop where
  nonneg : ∀ x ∈ S, AtMost FusionOps.zero x
  contribution_mem : ∀ rank, contribution k rank ∈ S
  contribution_antitone : ∀ rank rank', rank ≤ rank' →
    AtMost (contribution k rank') (contribution k rank)
  add_mem : ∀ x ∈ S, ∀ y ∈ S, FusionOps.add x y ∈ S
  add_mono : ∀ x ∈ S, ∀ x' ∈ S, ∀ y ∈ S, ∀ y' ∈ S, AtMost x x' → AtMost y y' →
    AtMost (FusionOps.add x y) (FusionOps.add x' y')
  le_add : ∀ x ∈ S, ∀ y ∈ S, AtMost FusionOps.zero y →
    AtMost x (FusionOps.add x y) ∧ AtMost x (FusionOps.add y x)

theorem WeaklyMonotone.total_mem {k : F} {S : Set F} (laws : WeaklyMonotone k S) {cs : List F}
    (voted : cs ≠ []) (mem : ∀ c ∈ cs, c ∈ S) : total cs ∈ S := by
  induction cs using List.reverseRecOn with
  | nil => exact absurd rfl voted
  | append_singleton cs c ih =>
    have last : c ∈ S := mem c (by simp)
    by_cases first : cs = []
    · rw [first]
      exact last
    · rw [total_concat first]
      exact laws.add_mem _ (ih first fun c' h => mem c' (by simp [h])) _ last

/-- The other item has no votes, or both have some and it has at most the score. -/
def Ahead (ahead behind : List F) : Prop :=
  behind = [] ∨ ahead ≠ [] ∧ AtMost (total behind) (total ahead)

section Laws

variable {k : F} {S : Set F} (laws : WeaklyMonotone k S) {ahead behind : List F}

include laws

/-- A vote for the item that is ahead leaves it ahead. -/
theorem Ahead.concat_left (h : Ahead ahead behind) (memA : ∀ c ∈ ahead, c ∈ S)
    (rank : Nat) : Ahead (ahead ++ [contribution k rank]) behind := by
  rcases h with none | ⟨voted, le⟩
  · exact .inl none
  · refine .inr ⟨by simp, le.trans ?_⟩
    rw [total_concat voted]
    exact (laws.le_add _ (laws.total_mem voted memA) _ (laws.contribution_mem rank)
      (laws.nonneg _ (laws.contribution_mem rank))).1

/-- Votes of one list for both items leave the first one ahead. -/
theorem Ahead.concat_both (h : Ahead ahead behind) (memA : ∀ c ∈ ahead, c ∈ S)
    (memB : ∀ c ∈ behind, c ∈ S) {rank rank' : Nat} (before : rank ≤ rank') :
    Ahead (ahead ++ [contribution k rank]) (behind ++ [contribution k rank']) := by
  have higher := laws.contribution_antitone rank rank' before
  refine .inr ⟨by simp, ?_⟩
  by_cases votedB : behind = []
  · have last : AtMost (total (behind ++ [contribution k rank'])) (contribution k rank) := by
      rw [votedB]
      exact higher
    refine last.trans ?_
    by_cases votedA : ahead = []
    · rw [votedA]
      exact Ordering.isLE_of_eq_eq Std.ReflCmp.compare_self
    · have sum := laws.total_mem votedA memA
      rw [total_concat votedA]
      exact (laws.le_add _ (laws.contribution_mem rank) _ sum (laws.nonneg _ sum)).2
  · obtain ⟨votedA, le⟩ := h.resolve_left votedB
    rw [total_concat votedA, total_concat votedB]
    exact laws.add_mono _ (laws.total_mem votedB memB) _ (laws.total_mem votedA memA) _
      (laws.contribution_mem rank') _ (laws.contribution_mem rank) le higher

variable [DecidableEq T]

theorem mem_contributions (votes : List (T × Nat)) (item : T) :
    ∀ c ∈ contributions k votes item, c ∈ S := by
  intro c mem
  obtain ⟨vote, -, rfl⟩ := List.mem_map.mp mem
  exact laws.contribution_mem vote.2

theorem ahead_of_before {a b : T} (lists : List (List T))
    (distinct : ∀ list ∈ lists, list.Nodup)
    (before : ∀ list ∈ lists, b ∈ list → a ∈ list ∧ list.idxOf a < list.idxOf b) :
    Ahead (contributions k (lists.map List.zipIdx).flatten a)
      (contributions k (lists.map List.zipIdx).flatten b) := by
  induction lists using List.reverseRecOn with
  | nil => exact .inl rfl
  | append_singleton lists list ih =>
    have ih := ih (fun l mem => distinct l (List.mem_append_left _ mem)) fun l mem =>
      before l (List.mem_append_left _ mem)
    have memA := mem_contributions laws (lists.map List.zipIdx).flatten a
    have memB := mem_contributions laws (lists.map List.zipIdx).flatten b
    rw [List.map_append, List.flatten_append, List.map_singleton, List.flatten_singleton,
      contributions_append, contributions_append, contributions_zipIdx k (distinct list (by simp)),
      contributions_zipIdx k (distinct list (by simp))]
    by_cases hb : b ∈ list
    · obtain ⟨ha, earlier⟩ := before list (by simp) hb
      rw [if_pos ha, if_pos hb]
      exact ih.concat_both laws memA memB earlier.le
    · rw [if_neg hb, List.append_nil]
      by_cases ha : a ∈ list
      · rw [if_pos ha]
        exact ih.concat_left laws memA _
      · rw [if_neg ha, List.append_nil]
        exact ih

end Laws

variable [DecidableEq T]

/-- What is earlier in every list is first seen earlier. -/
theorem idxOf_flatten_lt {a b : T} {lists : List (List T)}
    (before : ∀ list ∈ lists, b ∈ list → a ∈ list ∧ list.idxOf a < list.idxOf b)
    (listed : b ∈ lists.flatten) : lists.flatten.idxOf a < lists.flatten.idxOf b := by
  induction lists with
  | nil => exact absurd listed List.not_mem_nil
  | cons list lists ih =>
    rw [List.flatten_cons] at listed ⊢
    by_cases hb : b ∈ list
    · obtain ⟨ha, earlier⟩ := before list List.mem_cons_self hb
      rwa [List.idxOf_append_of_mem ha, List.idxOf_append_of_mem hb]
    · rw [List.idxOf_append_of_notMem hb]
      by_cases ha : a ∈ list
      · rw [List.idxOf_append_of_mem ha]
        exact Nat.lt_add_right _ (List.idxOf_lt_length_of_mem ha)
      · rw [List.idxOf_append_of_notMem ha]
        apply Nat.add_lt_add_left
        apply ih fun l mem => before l (List.mem_cons_of_mem _ mem)
        exact (List.mem_append.mp listed).resolve_left hb

/-- An item that is ahead of another one in every list that has the other is fused before it. -/
theorem reciprocalRankFusion_unanimous {k : F} {S : Set F} (laws : WeaklyMonotone (clamp k) S)
    {lists : List (List T)} (distinct : ∀ list ∈ lists, list.Nodup) {a b : T}
    (listed : ∃ list ∈ lists, b ∈ list)
    (before : ∀ list ∈ lists, b ∈ list → a ∈ list ∧ list.idxOf a < list.idxOf b) :
    [a, b].Sublist ((reciprocalRankFusion lists k).map Prod.fst) := by
  have seen : b ∈ candidates (lists.map List.zipIdx).flatten := mem_candidates_zipIdx.mpr listed
  have seen' : a ∈ candidates (lists.map List.zipIdx).flatten := by
    obtain ⟨list, mem, hb⟩ := listed
    exact mem_candidates_zipIdx.mpr ⟨list, mem, (before list mem hb).1⟩
  have scores : AtMost (score (clamp k) (lists.map List.zipIdx).flatten b)
      (score (clamp k) (lists.map List.zipIdx).flatten a) := by
    refine ((ahead_of_before laws lists distinct before).resolve_left ?_).2
    rw [contributions_eq_nil_iff, not_not]
    exact mem_candidates.mp seen
  rw [reciprocalRankFusion, pair_sublist_fuseVotes_iff seen' seen]
  apply ranking_eq_lt scores
  rw [candidates_zipIdx] at seen seen' ⊢
  rw [List.mem_eraseDups] at seen seen'
  rw [idxOf_eraseDups_lt_iff seen' seen]
  exact idxOf_flatten_lt before seen

theorem atMost_rat {x y : ℚ} : AtMost x y ↔ x ≤ y := by
  rw [AtMost, Ordering.isLE_iff_ne_gt]
  exact compare_le_iff_le

theorem weaklyMonotone_rat (k : ℚ) : WeaklyMonotone (clamp k) (Set.Ici (0 : ℚ)) := by
  have positive := clamp_pos k
  constructor
  · exact fun x hx => atMost_rat.mpr hx
  · intro rank
    exact (one_div_pos.mpr (add_pos_of_pos_of_nonneg positive (Nat.cast_nonneg _))).le
  · intro rank rank' le
    rw [atMost_rat]
    apply one_div_le_one_div_of_le (add_pos_of_pos_of_nonneg positive (Nat.cast_nonneg _))
    exact add_le_add_right (Nat.cast_le.mpr le) _
  · intro x hx y hy
    show 0 ≤ x + y
    exact add_nonneg hx hy
  · intro x _ x' _ y _ y' _ hx hy
    rw [atMost_rat] at hx hy ⊢
    exact add_le_add hx hy
  · intro x _ y _ hy
    rw [atMost_rat] at hy
    exact ⟨atMost_rat.mpr (le_add_of_nonneg_right hy), atMost_rat.mpr (le_add_of_nonneg_left hy)⟩

/-- The item in both lists comes before an item in one, with `k` clamped. -/
theorem reciprocalRankFusion_unanimous_both_lists :
    ["x", "solo"].Sublist
      ((reciprocalRankFusion [["x", "solo"], ["x", "other"]] (0 : ℚ)).map Prod.fst) :=
  reciprocalRankFusion_unanimous (weaklyMonotone_rat 0) (by decide) (by decide) (by decide)

end MemoryPolicy.Fusion

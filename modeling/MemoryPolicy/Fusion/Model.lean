import MemoryPolicy.FirstSeen
import MemoryPolicy.StableSort
import Mathlib.Logic.Function.Basic

/-! Reciprocal rank fusion of `src/fusion.rs`.  The loop keeps the items in the order in which they
are first seen, the slot of each, and a score for each slot; the three stay aligned, so the fused
ranking is that of the distinct items by the scores that their votes add up to.  The score
arithmetic is a parameter. -/

namespace MemoryPolicy.Fusion

open FirstSeen StableSort

/-- The `f64` operations of fusion. -/
class FusionOps (F : Type) where
  zero : F
  one : F
  epsilon : F
  ofUsize : Nat → F
  add : F → F → F
  div : F → F → F
  gt : F → F → Bool
  totalCmp : F → F → Ordering
  totalCmp_trans : Std.TransCmp totalCmp

variable {T F : Type} [DecidableEq T] [FusionOps F]

instance : Std.TransCmp (FusionOps.totalCmp : F → F → Ordering) := FusionOps.totalCmp_trans

def contribution (k : F) (rank : Nat) : F :=
  FusionOps.div FusionOps.one (FusionOps.add k (FusionOps.ofUsize rank))

/-- The three parallel structures of the loop. -/
structure Tally (T F : Type) where
  order : List T := []
  index : T → Option Nat := fun _ => none
  scores : List F := []

/-- The body of the inner loop, for an item and its rank. -/
def Tally.addVote (k : F) (self : Tally T F) (vote : T × Nat) : Tally T F :=
  let (item, rank) := vote
  let contribution := contribution k rank
  match self.index item with
  | some slot => { self with
      scores := self.scores.modify slot fun score => FusionOps.add score contribution }
  | none =>
    let slot := self.order.length
    { index := Function.update self.index item (some slot)
      order := self.order ++ [item]
      scores := self.scores ++ [contribution] }

/-- The ranking that is read off when the loop has ended. -/
def Tally.fused (self : Tally T F) : List (T × F) :=
  let fused := self.order.zipIdx.map fun (item, slot) =>
    (slot, item, self.scores[slot]?.getD FusionOps.zero)
  let fused := sortBy (fun a b =>
    (FusionOps.totalCmp b.2.2 a.2.2).then (compare a.1 b.1)) fused
  fused.map fun (_, item, score) => (item, score)

/-- Fusion of lists of items that come with their ranks. -/
def fuseVotes (k : F) (lists : List (List (T × Nat))) : List (T × F) :=
  let tally := lists.foldl (fun tally list => list.foldl (Tally.addVote k) tally) {}
  tally.fused

/-- `let k = if k > 0.0 { k } else { f64::EPSILON }` -/
def clamp (k : F) : F := if FusionOps.gt k FusionOps.zero then k else FusionOps.epsilon

def reciprocalRankFusion (lists : List (List T)) (k : F) : List (T × F) :=
  fuseVotes (clamp k) (lists.map List.zipIdx)

/-! ### What the votes add up to -/

/-- The first contribution, with the others added in turn. -/
def total : List F → F
  | [] => FusionOps.zero
  | c :: cs => cs.foldl FusionOps.add c

theorem total_concat {cs : List F} (h : cs ≠ []) (c : F) :
    total (cs ++ [c]) = FusionOps.add (total cs) c := by
  cases cs with
  | nil => exact absurd rfl h
  | cons c' cs => rw [List.cons_append, total, List.foldl_concat, total]

def contributions (k : F) (votes : List (T × Nat)) (item : T) : List F :=
  (votes.filter fun vote => vote.1 = item).map fun vote => contribution k vote.2

theorem contributions_append (k : F) (votes votes' : List (T × Nat)) (item : T) :
    contributions k (votes ++ votes') item =
      contributions k votes item ++ contributions k votes' item := by
  rw [contributions, List.filter_append, List.map_append, contributions, contributions]

theorem contributions_eq_nil_iff {k : F} {votes : List (T × Nat)} {item : T} :
    contributions k votes item = [] ↔ item ∉ votes.map Prod.fst := by
  rw [contributions, List.map_eq_nil_iff, List.filter_eq_nil_iff, List.mem_map, not_exists]
  simp only [decide_eq_true_eq, not_and]

/-- The score of an item after some votes. -/
def score (k : F) (votes : List (T × Nat)) (item : T) : F := total (contributions k votes item)

theorem score_concat_self_of_not_mem {k : F} {votes : List (T × Nat)} {item : T}
    (h : item ∉ votes.map Prod.fst) (rank : Nat) :
    score k (votes ++ [(item, rank)]) item = contribution k rank := by
  rw [score, contributions_append, contributions_eq_nil_iff.mpr h]
  simp [contributions, total]

theorem score_concat_self_of_mem {k : F} {votes : List (T × Nat)} {item : T}
    (h : item ∈ votes.map Prod.fst) (rank : Nat) :
    score k (votes ++ [(item, rank)]) item =
      FusionOps.add (score k votes item) (contribution k rank) := by
  have voted : contributions k votes item ≠ [] := fun he => contributions_eq_nil_iff.mp he h
  rw [score, score, ← total_concat voted, contributions_append]
  simp [contributions]

theorem score_concat_of_ne {k : F} {votes : List (T × Nat)} {item other : T} (h : other ≠ item)
    (rank : Nat) : score k (votes ++ [(item, rank)]) other = score k votes other := by
  rw [score, score, contributions_append]
  simp [contributions, h.symm]

/-! ### The loop -/

/-- The items with a vote, in the order in which they are first seen. -/
def candidates (votes : List (T × Nat)) : List T := (votes.map Prod.fst).eraseDups

theorem mem_candidates {votes : List (T × Nat)} {item : T} :
    item ∈ candidates votes ↔ item ∈ votes.map Prod.fst :=
  List.mem_eraseDups

theorem nodup_candidates (votes : List (T × Nat)) : (candidates votes).Nodup :=
  nodup_eraseDups _

theorem candidates_concat_of_mem {votes : List (T × Nat)} {item : T} (h : item ∈ candidates votes)
    (rank : Nat) : candidates (votes ++ [(item, rank)]) = candidates votes := by
  rw [candidates, List.map_append]
  exact eraseDups_concat_of_mem (mem_candidates.mp h)

theorem candidates_concat_of_not_mem {votes : List (T × Nat)} {item : T}
    (h : item ∉ candidates votes) (rank : Nat) :
    candidates (votes ++ [(item, rank)]) = candidates votes ++ [item] := by
  rw [candidates, List.map_append]
  exact eraseDups_concat_of_not_mem (mt mem_candidates.mpr h)

/-- The tally that has counted the votes. -/
def counted (k : F) (votes : List (T × Nat)) : Tally T F where
  order := candidates votes
  index item := if item ∈ candidates votes then some ((candidates votes).idxOf item) else none
  scores := (candidates votes).map (score k votes)

theorem addVote_counted_of_mem {k : F} {votes : List (T × Nat)} {item : T}
    (h : item ∈ candidates votes) (rank : Nat) :
    (counted k votes).addVote k (item, rank) = counted k (votes ++ [(item, rank)]) := by
  have index : (counted k votes).index item = some ((candidates votes).idxOf item) := if_pos h
  simp only [Tally.addVote, index]
  simp only [counted, candidates_concat_of_mem h, modify_map_idxOf (nodup_candidates votes)]
  congr 1
  apply List.map_congr_left
  intro other _
  split
  · rename_i same
    rw [same, score_concat_self_of_mem (mem_candidates.mp h)]
  · rename_i different
    rw [score_concat_of_ne different]

theorem addVote_counted_of_not_mem {k : F} {votes : List (T × Nat)} {item : T}
    (h : item ∉ candidates votes) (rank : Nat) :
    (counted k votes).addVote k (item, rank) = counted k (votes ++ [(item, rank)]) := by
  have index : (counted k votes).index item = none := if_neg h
  simp only [Tally.addVote, index]
  simp only [counted, candidates_concat_of_not_mem h, List.map_append, List.map_cons,
    List.map_nil, score_concat_self_of_not_mem (mt mem_candidates.mpr h)]
  congr 1
  · funext other
    by_cases same : other = item
    · rw [same, Function.update_self, List.idxOf_append_of_notMem h]
      simp
    · rw [Function.update_of_ne same]
      by_cases known : other ∈ candidates votes
      · rw [List.idxOf_append_of_mem known]
        simp [known]
      · simp [known, same]
  · congr 1
    apply List.map_congr_left
    intro other known
    rw [score_concat_of_ne (by rintro rfl; exact h known)]

/-- Votes leave the three structures aligned: they are those of the distinct items, with the
scores that the votes add up to. -/
theorem foldl_addVote (k : F) (votes : List (T × Nat)) :
    votes.foldl (Tally.addVote k) {} = counted k votes := by
  induction votes using List.reverseRecOn with
  | nil => rfl
  | append_singleton votes vote ih =>
    rw [List.foldl_concat, ih]
    by_cases h : vote.1 ∈ candidates votes
    · exact addVote_counted_of_mem h vote.2
    · exact addVote_counted_of_not_mem h vote.2

/-! ### The ranking -/

/-- Higher scores first, equal ones by their place. -/
def ranking (score : T → F) (place : T → Nat) (a b : T) : Ordering :=
  (FusionOps.totalCmp (score b) (score a)).then (compare (place a) (place b))

instance (score : T → F) (place : T → Nat) : Std.TransCmp (ranking score place) := by
  have byScore : Std.TransCmp fun a b : T => FusionOps.totalCmp (score b) (score a) :=
    { eq_swap := Std.OrientedCmp.eq_swap
      isLE_trans := fun h h' => Std.TransCmp.isLE_trans h' h }
  exact inferInstanceAs <| Std.TransCmp <| compareLex
    (fun a b : T => FusionOps.totalCmp (score b) (score a)) (compareOn place)

theorem fused_counted (k : F) (votes : List (T × Nat)) :
    (counted k votes).fused =
      (sortBy (ranking (score k votes) (candidates votes).idxOf) (candidates votes)).map fun item =>
        (item, score k votes item) := by
  have slots : (candidates votes).zipIdx.map (fun (item, slot) =>
        (slot, item, ((candidates votes).map (score k votes))[slot]?.getD FusionOps.zero)) =
      (candidates votes).map fun item =>
        ((candidates votes).idxOf item, item, score k votes item) := by
    rw [zipIdx_eq_map_idxOf (nodup_candidates votes), List.map_map]
    apply List.map_congr_left
    intro item h
    have place := List.getElem?_idxOf h
    simp [place]
  simp only [Tally.fused, counted, slots, sortBy_map, List.map_map]
  rfl

/-- Fusion ranks the distinct items by the scores that their votes add up to. -/
theorem fuseVotes_eq (k : F) (lists : List (List (T × Nat))) :
    fuseVotes k lists =
      (sortBy (ranking (score k lists.flatten) (candidates lists.flatten).idxOf)
        (candidates lists.flatten)).map fun item => (item, score k lists.flatten item) := by
  rw [fuseVotes, ← List.foldl_flatten, foldl_addVote, fused_counted]

theorem map_fst_fuseVotes (k : F) (lists : List (List (T × Nat))) :
    (fuseVotes k lists).map Prod.fst =
      sortBy (ranking (score k lists.flatten) (candidates lists.flatten).idxOf)
        (candidates lists.flatten) := by
  rw [fuseVotes_eq, List.map_map]
  exact List.map_id _

theorem mem_fuseVotes {k : F} {lists : List (List (T × Nat))} {entry : T × F} :
    entry ∈ fuseVotes k lists ↔
      entry.1 ∈ candidates lists.flatten ∧ entry.2 = score k lists.flatten entry.1 := by
  rw [fuseVotes_eq, List.mem_map]
  constructor
  · rintro ⟨item, mem, rfl⟩
    exact ⟨(sortBy_perm _ _).mem_iff.mp mem, rfl⟩
  · rintro ⟨mem, same⟩
    exact ⟨entry.1, (sortBy_perm _ _).mem_iff.mpr mem, by rw [← same]⟩

theorem untied_ranking (score : T → F) {items : List T} (nodup : items.Nodup) :
    Untied (ranking score items.idxOf) items := by
  apply nodup.imp_of_mem
  intro a b ha hb different tied
  rw [ranking, Ordering.then_eq_eq, compare_eq_iff_eq] at tied
  exact different ((List.idxOf_inj ha).mp tied.2)

/-- Two items are fused in the order of their scores, and of their first occurrences. -/
theorem pair_sublist_fuseVotes_iff {k : F} {lists : List (List (T × Nat))} {a b : T}
    (ha : a ∈ candidates lists.flatten) (hb : b ∈ candidates lists.flatten) :
    [a, b].Sublist ((fuseVotes k lists).map Prod.fst) ↔
      ranking (score k lists.flatten) (candidates lists.flatten).idxOf a b = .lt := by
  rw [map_fst_fuseVotes]
  exact pair_sublist_sortBy_iff (untied_ranking _ (nodup_candidates _)) ha hb

end MemoryPolicy.Fusion

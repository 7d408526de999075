import MemoryPolicy.Fusion.Model

/-! The votes of ranked lists.  A list votes for an item at each of its occurrences; in a list
without repeats that is once, at the item's position. -/

namespace MemoryPolicy.Fusion

open FirstSeen

variable {T F : Type}

theorem zipIdx_map_flatten (lists : List (List T)) :
    (lists.map List.zipIdx).flatten.map Prod.fst = lists.flatten := by
  have names : ∀ list ∈ lists, (List.map Prod.fst ∘ fun list => list.zipIdx) list = list :=
    fun list _ => List.zipIdx_map_fst 0 list
  rw [List.map_flatten, List.map_map, List.map_congr_left names, List.map_id']

variable [DecidableEq T] [FusionOps F]

/-- The first occurrences in the list, with the ranks that they have there. -/
def firstVotes (list : List T) : List (T × Nat) :=
  list.zipIdx.filter fun vote => list.idxOf vote.1 = vote.2

theorem firstVotes_eq_zipIdx_iff {list : List T} : firstVotes list = list.zipIdx ↔ list.Nodup := by
  rw [firstVotes, List.filter_eq_self]
  simp only [decide_eq_true_eq]
  constructor
  · intro first
    have place : ∀ i (h : i < list.length), list.idxOf list[i] = i := by
      intro i h
      exact first (list[i], i) (List.mk_mem_zipIdx_iff_getElem?.mpr (List.getElem?_eq_getElem h))
    rw [List.nodup_iff_pairwise_ne, List.pairwise_iff_getElem]
    intro i j hi hj before same
    have := place i hi
    rw [same, place j hj] at this
    omega
  · intro nodup vote mem
    obtain ⟨h, same⟩ := List.getElem?_eq_some_iff.mp (List.mem_zipIdx_iff_getElem?.mp mem)
    rw [← same]
    exact nodup.idxOf_getElem _ h

/-- The candidates are the listed items, in the order of their first occurrences. -/
theorem candidates_zipIdx (lists : List (List T)) :
    candidates (lists.map List.zipIdx).flatten = lists.flatten.eraseDups := by
  rw [candidates, zipIdx_map_flatten]

theorem mem_candidates_zipIdx {lists : List (List T)} {item : T} :
    item ∈ candidates (lists.map List.zipIdx).flatten ↔ ∃ list ∈ lists, item ∈ list := by
  rw [candidates_zipIdx, List.mem_eraseDups, List.mem_flatten]

theorem contributions_firstVotes (k : F) (list : List T) (item : T) :
    contributions k (firstVotes list) item =
      if item ∈ list then [contribution k (list.idxOf item)] else [] := by
  split
  · rename_i h
    have places : (list.zipIdx.map Prod.snd).Nodup := by
      rw [List.zipIdx_map_snd]
      exact List.nodup_range'
    have firsts : (firstVotes list).Nodup := places.of_map.filter _
    have alone : (firstVotes list).filter (fun vote => vote.1 = item) =
        [(item, list.idxOf item)] := by
      apply List.perm_singleton.mp
      rw [List.perm_ext_iff_of_nodup (firsts.filter _) (List.nodup_singleton _)]
      rintro ⟨other, rank⟩
      simp only [firstVotes, List.mem_filter, List.mem_singleton, decide_eq_true_eq,
        List.mk_mem_zipIdx_iff_getElem?, Prod.mk.injEq]
      constructor
      · rintro ⟨⟨-, rfl⟩, rfl⟩
        exact ⟨rfl, rfl⟩
      · rintro ⟨rfl, rfl⟩
        exact ⟨⟨List.getElem?_idxOf h, rfl⟩, rfl⟩
    rw [contributions, alone, List.map_singleton]
  · rename_i h
    rw [contributions_eq_nil_iff, List.mem_map]
    rintro ⟨vote, mem, rfl⟩
    have mem := List.mem_zipIdx_iff_getElem?.mp (List.mem_filter.mp mem).1
    exact h (List.mem_of_getElem? mem)

theorem contributions_zipIdx (k : F) {list : List T} (nodup : list.Nodup) (item : T) :
    contributions k list.zipIdx item =
      if item ∈ list then [contribution k (list.idxOf item)] else [] := by
  rw [← firstVotes_eq_zipIdx_iff.mpr nodup, contributions_firstVotes]

end MemoryPolicy.Fusion

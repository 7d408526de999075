import MemoryPolicy.InMemory.Log

/-! Retrieval from a store that grows.  To ask again finds the hits of the first time in the same
order, with newer episodes among them; a hit is lost only to newer episodes that score higher. -/

namespace MemoryPolicy

open StableSort Transition

variable {ι E : Type}

section Ranked

variable [Unicode] [Episode E]

/-- The ranking of the matching episodes is the stable sort of them. -/
theorem RankedBy.eq_ranked {query : String} {episodes order : List (String × E)}
    (h : RankedBy query episodes order) : order = ranked query episodes := by
  have := (byOverlap (E := E) query).trans
  apply eq_sortBy_of_stable (h.decreasing.imp atOrBefore_byOverlap.mpr)
  intro a
  have tied : ∀ b : String × E, ((byOverlap query).cmp a b == .eq) =
      decide (overlap query b = overlap query a) := by
    intro b
    rw [Bool.eq_iff_iff, beq_iff_eq, decide_eq_true_iff]
    exact compare_eq_iff_eq
  simp only [ties, tied]
  exact h.insertion (overlap query a)

end Ranked

namespace InMemoryStore

/-- The key was issued for one of the episodes. -/
def Issued (episodes : List E) (key : String) : Prop := key ∈ (numbered episodes).map Prod.fst

instance (episodes : List E) (key : String) : Decidable (Issued episodes key) :=
  inferInstanceAs <| Decidable <| key ∈ (numbered episodes).map Prod.fst

theorem exists_numbered_append {old : List E} (room : old.length < 2 ^ 64 - 1) (new : List E) :
    ∃ later, numbered (old ++ new) = numbered old ++ later ∧
      ∀ entry ∈ later, ¬ Issued old entry.1 := by
  refine ⟨_, numbered_append old new, ?_⟩
  intro entry mem issued
  obtain ⟨⟨episode, n⟩, place, rfl⟩ := List.mem_map.mp mem
  have behind : old.length ≤ n := (List.mem_zipIdx place).1
  obtain ⟨m, hm, same⟩ := mem_keys_numbered.mp issued
  exact absurd same (ne_of_gt (keyAt_lt (by omega) (by omega)))

theorem filter_take_isPrefix {α : Type} (p : α → Bool) (l : List α) (k : Nat) :
    (l.take k).filter p <+: (l.filter p).take k := by
  rw [List.prefix_take_iff]
  refine ⟨(List.take_prefix k l).filter p, ?_⟩
  exact (List.length_filter_le _ _).trans (List.length_take_le _ _)

section Retrieval

variable [Unicode] [Episode E]

/-- The ranking of a longer log, without the newer episodes, is the ranking of the log. -/
theorem filter_ranked (query : String) {old later : List (String × E)} {p : String × E → Prop}
    [DecidablePred p] (hold : ∀ entry ∈ old, p entry) (hlater : ∀ entry ∈ later, ¬ p entry) :
    (ranked query (old ++ later)).filter (fun entry => p entry) = ranked query old := by
  have := (byOverlap (E := E) query).trans
  have front : old.filter (fun entry => p entry) = old :=
    List.filter_eq_self.mpr fun entry mem => by simpa using hold entry mem
  have back : later.filter (fun entry => p entry) = [] :=
    List.filter_eq_nil_iff.mpr fun entry mem => by simpa using hlater entry mem
  rw [ranked, sortBy_filter, List.filter_comm, List.filter_append, front, back, List.append_nil]
  rfl

/-- A ranked episode that is not among the first `k` any more, with newer ones before it. -/
theorem overlap_lt_of_displaced {query : String} {old later : List (String × E)}
    {p : String × E → Prop} (hold : ∀ entry ∈ old, p entry) (hlater : ∀ entry ∈ later, ¬ p entry)
    {k : Nat} {a b : String × E} (pa : p a) (pb : ¬ p b)
    (passed : a ∈ (ranked query (old ++ later)).drop k)
    (chosen : b ∈ (ranked query (old ++ later)).take k) : overlap query a < overlap query b := by
  have := (byOverlap (E := E) query).trans
  rw [ranked, List.filter_append] at passed chosen
  have top := Sieve.keepsTop_sortBy (byOverlap query) k
    ((old.filter fun entry => Matches query entry) ++
      later.filter fun entry => Matches query entry)
  have behind := top.displaced (fun entry mem => hold entry (List.mem_of_mem_filter mem))
    (fun entry mem => hlater entry (List.mem_of_mem_filter mem)) passed pa chosen pb
  exact compare_lt_iff_lt.mp behind

theorem step_retrieveSimilar {s : Recorded ι E ℚ}
    (unlocked : s.store.poisoned = false) (client : ι) (query : String) (k : Nat) :
    s.step (.request client (.call (.retrieveSimilar query k))) =
      some
        { s with
          history := s.history ++ [.returned client (.call (.retrieveSimilar query k))
            (.answer (.retrieved (.ok
              (((ranked query s.store.episodes).take k).map (hitOf query)))))] } := by
  obtain ⟨⟨nextKey, episodes, poisoned⟩, history⟩ := s
  obtain rfl : poisoned = false := unlocked
  simp only [Recorded.step, serve, perform, retrieveSimilar_eq]

theorem Answers.hits_eq {log : EpisodeLog E} {query : String} {k : Nat}
    {hits : List (InMemoryHit E ℚ)}
    (h : Answers log (.call (.retrieveSimilar query k)) (.answer (.retrieved (.ok hits)))) :
    hits = ((ranked query (numbered log.episodes)).take k).map (hitOf query) := by
  generalize reply : Reply.answer (.retrieved (.ok hits)) = r at h
  cases h with
  | retrieved order k =>
    rw [order.eq_ranked] at reply
    exact Except.ok.inj (Answer.retrieved.inj (Reply.answer.inj reply))
  | refused used => exact nomatch Answer.retrieved.inj (Reply.answer.inj reply)
  | retrievedNone => exact Except.ok.inj (Answer.retrieved.inj (Reply.answer.inj reply))

/-- To ask again, with any requests of any clients in between, finds the hits of the first time
without those at the end, and newer episodes among them; what is lost scored strictly less than
each newer hit. -/
theorem retrieved_again {s : Recorded ι E ℚ} (run : Free Recorded.step ({} : Recorded ι E ℚ) s)
    {before mid after : List (LogEvent ι E ℚ)} {client client' : ι} {query : String} {k : Nat}
    {hits hits' : List (InMemoryHit E ℚ)}
    (h : s.history = before ++
      .returned client (.call (.retrieveSimilar query k)) (.answer (.retrieved (.ok hits))) ::
      (mid ++
        .returned client' (.call (.retrieveSimilar query k)) (.answer (.retrieved (.ok hits'))) ::
        after))
    (room : (logOf before).episodes.length < 2 ^ 64 - 1) :
    let old := fun hit : InMemoryHit E ℚ => Issued (logOf before).episodes hit.key
    hits'.filter (fun hit => old hit) <+: hits ∧
      ∀ hit ∈ hits, hit ∉ hits' → hits'.length = k ∧
        ∀ hit' ∈ hits', ¬ old hit' → hit.score < hit'.score := by
  intro old
  have answered := (answers_of_run run).answered
  have first : hits = _ := (answered _ _ _ h).hits_eq
  rw [← List.cons_append, ← List.append_assoc] at h
  have second : hits' = _ := (answered _ _ _ h).hits_eq
  obtain ⟨new, grown⟩ : ∃ new, (logOf (before ++ .returned client (.call (.retrieveSimilar query k))
      (.answer (.retrieved (.ok hits))) :: mid)).episodes = (logOf before).episodes ++ new :=
    ⟨_, List.filterMap_append⟩
  obtain ⟨later, numbers, fresh⟩ := exists_numbered_append room new
  rw [grown, numbers] at second
  have known : ∀ entry ∈ numbered (logOf before).episodes, Issued (logOf before).episodes entry.1 :=
    fun entry mem => List.mem_map_of_mem mem
  have older := filter_ranked query known fresh
  constructor
  · rw [second, first, List.filter_map, ← older]
    exact (filter_take_isPrefix _ _ k).map _
  · intro hit mem lost
    rw [first] at mem
    rw [second] at lost ⊢
    obtain ⟨entry, place, rfl⟩ := List.mem_map.mp mem
    have found := List.mem_of_mem_take place
    rw [← older, List.mem_filter] at found
    have passed : entry ∈ (ranked query (numbered (logOf before).episodes ++ later)).drop k := by
      have whole := found.1
      rw [← List.take_append_drop k (ranked query _)] at whole
      exact (List.mem_append.mp whole).resolve_left fun kept => lost (List.mem_map_of_mem kept)
    constructor
    · have := List.length_pos_of_mem passed
      rw [List.length_drop] at this
      rw [List.length_map, List.length_take]
      omega
    · intro hit' chosen newer
      obtain ⟨entry', place', rfl⟩ := List.mem_map.mp chosen
      apply score_lt_score
      exact overlap_lt_of_displaced known fresh (of_decide_eq_true found.2) newer passed place'

end Retrieval

/-- A better match is appended between two requests for the best one. -/
theorem retrieved_again_better :
    let _ : Unicode := asciiTables
    let query := "alpha bravo"
    let hits := ((ranked query (numbered ["alpha"])).take 1).map (hitOf query)
    let hits' := ((ranked query (numbered ["alpha", query])).take 1).map (hitOf query)
    hits'.filter (fun hit => Issued ["alpha"] hit.key) <+: hits := by
  intro tables query hits hits'
  have appended : Free Recorded.step ({} : Recorded Bool String ℚ) _ :=
    .next .refl (a := .request true (.call (.append "alpha"))) trivial rfl
  have asked := appended.next trivial (step_retrieveSimilar rfl false query 1)
  have better := asked.next (a := .request true (.call (.append query))) trivial rfl
  have again := better.next trivial (step_retrieveSimilar rfl false query 1)
  exact (@retrieved_again Bool String _ _ _ again [_] [_] [] false false query 1 hits hits' rfl
    (by decide)).1

end InMemoryStore

end MemoryPolicy

import MemoryPolicy.InMemory.Exact
import MemoryPolicy.Sieve.Top
import Mathlib.Tactic.Positivity

/-! Retrieval from the in-memory store, with exact scores.  The hits are the first entries of the
matching episodes, ranked by the number of query tokens that their summaries have. -/

namespace MemoryPolicy

open StableSort Text

variable {E : Type} [Unicode] [Episode E]

/-- The number of normalized query tokens that are in the summary. -/
def overlap (query : String) (entry : String × E) : Nat :=
  (normalizedTokens query ∩ normalizedTokens (Episode.summary entry.2)).card

/-- The summary shares a normalized token with the query. -/
def Matches (query : String) (entry : String × E) : Prop :=
  ∃ token ∈ normalizedTokens query, token ∈ normalizedTokens (Episode.summary entry.2)

instance (query : String) (entry : String × E) : Decidable (Matches query entry) :=
  inferInstanceAs <| Decidable <|
    ∃ token ∈ normalizedTokens query, token ∈ normalizedTokens (Episode.summary entry.2)

def score (query : String) (entry : String × E) : ℚ :=
  overlap query entry / (normalizedTokens query).card

def hitOf (query : String) (entry : String × E) : InMemoryHit E ℚ :=
  ⟨entry.2, score query entry, entry.1⟩

theorem overlap_pos_iff {query : String} {entry : String × E} :
    0 < overlap query entry ↔ Matches query entry := by
  rw [overlap, Finset.card_pos, Finset.Nonempty]
  simp only [Finset.mem_inter]
  rfl

theorem overlap_le (query : String) (entry : String × E) :
    overlap query entry ≤ (normalizedTokens query).card :=
  Finset.card_le_card Finset.inter_subset_left

theorem card_pos_of_matches {query : String} {entry : String × E} (h : Matches query entry) :
    0 < (normalizedTokens query).card :=
  (overlap_pos_iff.mpr h).trans_le (overlap_le query entry)

theorem lexicalScore_eq (query : String) (entry : String × E) :
    lexicalScore query (Episode.summary entry.2) = score query entry := by
  simp only [lexicalScore]
  split
  · rename_i none
    have : (normalizedTokens query).card = 0 := none
    rw [score, this, Nat.cast_zero, div_zero]
    rfl
  · rfl

theorem score_pos_iff {query : String} {entry : String × E} :
    0 < score query entry ↔ Matches query entry := by
  rw [← overlap_pos_iff, score]
  constructor
  · intro h
    by_contra none
    rw [Nat.eq_zero_of_not_pos none, Nat.cast_zero, zero_div] at h
    exact lt_irrefl _ h
  · intro h
    have := card_pos_of_matches (overlap_pos_iff.mp h)
    positivity

theorem score_le_one (query : String) (entry : String × E) : score query entry ≤ 1 :=
  div_le_one_of_le₀ (by exact_mod_cast overlap_le query entry) (by positivity)

theorem score_le_score {query : String} {a b : String × E}
    (h : overlap query a ≤ overlap query b) : score query a ≤ score query b := by
  unfold score
  gcongr

theorem score_lt_score {query : String} {a b : String × E}
    (h : overlap query a < overlap query b) : score query a < score query b := by
  have : 0 < (normalizedTokens query).card :=
    (Nat.zero_le _).trans_lt (h.trans_le (overlap_le query b))
  unfold score
  gcongr

theorem compare_score (query : String) (a b : String × E) :
    compare (score query a) (score query b) = compare (overlap query a) (overlap query b) := by
  rcases lt_trichotomy (overlap query a) (overlap query b) with before | same | behind
  · rw [compare_lt_iff_lt.mpr before, compare_lt_iff_lt.mpr (score_lt_score before)]
  · rw [compare_eq_iff_eq.mpr same, compare_eq_iff_eq.mpr (by rw [score, score, same])]
  · rw [compare_gt_iff_gt.mpr behind, compare_gt_iff_gt.mpr (score_lt_score behind)]

/-! ### The ranking -/

/-- Larger overlaps first. -/
def byOverlap (query : String) : Sieve.Ranking (String × E) where
  cmp a b := compare (overlap query b) (overlap query a)
  trans := inferInstanceAs <| Std.TransCmp fun a b => compareOn (overlap query) b a

/-- The matching episodes by decreasing overlap, ties in insertion order. -/
structure RankedBy (query : String) (episodes ranked : List (String × E)) : Prop where
  perm : ranked.Perm (episodes.filter fun entry => Matches query entry)
  decreasing : ranked.Pairwise fun a b => overlap query b ≤ overlap query a
  insertion : ∀ n, (ranked.filter fun entry => overlap query entry = n) =
    (episodes.filter fun entry => Matches query entry).filter fun entry => overlap query entry = n

def ranked (query : String) (episodes : List (String × E)) : List (String × E) :=
  sortBy (byOverlap query).cmp (episodes.filter fun entry => Matches query entry)

theorem atOrBefore_byOverlap {query : String} {a b : String × E} :
    AtOrBefore (byOverlap query).cmp a b ↔ overlap query b ≤ overlap query a := by
  rw [AtOrBefore, Ordering.isLE_iff_ne_gt]
  exact compare_le_iff_le

theorem rankedBy_ranked (query : String) (episodes : List (String × E)) :
    RankedBy query episodes (ranked query episodes) := by
  have := (byOverlap (E := E) query).trans
  refine ⟨sortBy_perm _ _, ?_, fun n => ?_⟩
  · exact (sortBy_pairwise (byOverlap query).cmp _).imp atOrBefore_byOverlap.mp
  · rw [ranked, sortBy_filter]
    apply sortBy_of_pairwise
    apply List.pairwise_of_forall_mem_list
    intro a ha b hb
    have ha : overlap query a = n := by simpa using (List.mem_filter.mp ha).2
    have hb : overlap query b = n := by simpa using (List.mem_filter.mp hb).2
    rw [atOrBefore_byOverlap, ha, hb]

theorem mem_ranked {query : String} {episodes : List (String × E)} {entry : String × E}
    (h : entry ∈ ranked query episodes) : Matches query entry := by
  simpa using (List.mem_filter.mp ((sortBy_perm _ _).subset h)).2

theorem length_ranked (query : String) (episodes : List (String × E)) :
    (ranked query episodes).length = episodes.countP fun entry => Matches query entry := by
  rw [ranked, (sortBy_perm _ _).length_eq, List.countP_eq_length_filter]

/-! ### Words of the query -/

/-- `dressed` is `word` with other than alphanumeric characters around it. -/
def Dressed (word dressed : String) : Prop :=
  ∃ front back : List Char, dressed.toList = front ++ word.toList ++ back ∧
    ∀ ch ∈ front ++ back, Unicode.isAlphanumeric ch = false

/-- The words of `query'` are those of `query`, in any order and number, each with punctuation
around it; punctuation may also stand alone. -/
structure Reworded (query query' : String) : Prop where
  known : ∀ word' ∈ splitWhitespace query', ∃ word ∈ "" :: splitWhitespace query,
    Dressed word word'
  kept : ∀ word ∈ splitWhitespace query, ∃ word' ∈ splitWhitespace query', Dressed word word'

def core (word : String) : String := trimMatches (fun ch => !Unicode.isAlphanumeric ch) word

theorem Dressed.core_eq {word dressed : String} (h : Dressed word dressed) :
    core dressed = core word := by
  obtain ⟨front, back, text, punctuation⟩ := h
  rw [core, core, trimMatches, trimMatches, text, trimBy_append]
  · intro ch hch
    simp [punctuation ch (List.mem_append_left _ hch)]
  · intro ch hch
    simp [punctuation ch (List.mem_append_right _ hch)]

theorem mem_normalizedTokens {query token : String} :
    token ∈ normalizedTokens query ↔
      ∃ word ∈ splitWhitespace query, core word ≠ "" ∧ Unicode.toLowercase (core word) = token := by
  simp [normalizedTokens, core, and_assoc]

theorem normalizedTokens_of_reworded {query query' : String} (h : Reworded query query') :
    normalizedTokens query' = normalizedTokens query := by
  ext token
  rw [mem_normalizedTokens, mem_normalizedTokens]
  constructor
  · rintro ⟨word', mem', used, lower⟩
    obtain ⟨word, mem, dressed⟩ := h.known word' mem'
    rw [dressed.core_eq] at used lower
    rcases List.mem_cons.mp mem with rfl | mem
    · exact absurd rfl used
    · exact ⟨word, mem, used, lower⟩
  · rintro ⟨word, mem, used, lower⟩
    obtain ⟨word', mem', dressed⟩ := h.kept word mem
    rw [← dressed.core_eq] at used lower
    exact ⟨word', mem', used, lower⟩

example : @Reworded asciiTables "fish" "(fish) -" := by
  let _ : Unicode := asciiTables
  have words : splitWhitespace "fish" = ["fish"] := by decide
  have words' : splitWhitespace "(fish) -" = ["(fish)", "-"] := by decide
  have dressed : Dressed "fish" "(fish)" := ⟨['('], [')'], rfl, by simp; decide⟩
  have alone : Dressed "" "-" := ⟨['-'], [], rfl, by simp; decide⟩
  refine ⟨?_, ?_⟩
  · rw [words, words']
    simpa using ⟨.inr dressed, .inl alone⟩
  · rw [words, words']
    simpa using .inl dressed

theorem lexicalScore_of_reworded {F : Type} [ScoreOps F] {query query' : String}
    (h : Reworded query query') (summary : String) :
    lexicalScore (F := F) query' summary = lexicalScore query summary := by
  rw [lexicalScore, lexicalScore, normalizedTokens_of_reworded h]

/-! ### Retrieval -/

namespace InMemoryStore

/-- A hit for each matching episode. -/
theorem hit_eq (query : String) (entry : String × E) :
    (if ScoreOps.gt (lexicalScore (F := ℚ) query (Episode.summary entry.2)) ScoreOps.zero
      then some (⟨entry.2, lexicalScore query (Episode.summary entry.2), entry.1⟩ :
        InMemoryHit E ℚ)
      else none) = if Matches query entry then some (hitOf query entry) else none := by
  have positive : ScoreOps.gt (score query entry) ScoreOps.zero = true ↔ Matches query entry :=
    decide_eq_true_iff.trans score_pos_iff
  simp only [lexicalScore_eq, positive, hitOf]

theorem cmp_hitOf (query : String) :
    (fun a b : String × E =>
      (ScoreOps.partialCmp (hitOf query b).score (hitOf query a).score).getD .eq) =
    (byOverlap query).cmp := by
  funext a b
  exact compare_score query b a

theorem sortBy_hits (query : String) (entries : List (String × E)) :
    sortBy (fun a b => (ScoreOps.partialCmp b.score a.score).getD .eq)
        (entries.map (hitOf query)) =
      (sortBy (byOverlap query).cmp entries).map (hitOf query) := by
  rw [sortBy_map, cmp_hitOf]

/-- The hits are the first of the ranked episodes. -/
theorem retrieveSimilar_eq (nextKey : UInt64) (episodes : List (String × E)) (query : String)
    (k : Nat) :
    (⟨nextKey, episodes, false⟩ : InMemoryStore E).retrieveSimilar query k =
      .ok (((ranked query episodes).take k).map (hitOf query)) := by
  rw [retrieveSimilar]
  split
  · rename_i none
    rw [none]
    rfl
  · rw [ranked, List.map_take, ← sortBy_hits, ← List.filterMap_eq_map', List.filterMap_filter]
    simp only [Bool.false_eq_true, if_false, hit_eq, decide_eq_true_eq]

theorem retrieveSimilar_of_reworded {F : Type} [ScoreOps F] {query query' : String}
    (h : Reworded query query') (self : InMemoryStore E) (k : Nat) :
    self.retrieveSimilar (F := F) query' k = self.retrieveSimilar query k := by
  simp only [retrieveSimilar, lexicalScore_of_reworded h]

/-- The hits are the first of the matching episodes, ranked by the number of distinct query tokens
in their summaries and then by age.  So there are as many as `k` and the matches allow, each scores
above zero and at most one, what is left out scores no more, a larger `k` only adds hits at the end,
and other writings of the same query words find the same. -/
theorem retrieveSimilar_ranked (nextKey : UInt64) (episodes : List (String × E))
    (query : String) :
    let store : InMemoryStore E := ⟨nextKey, episodes, false⟩
    ∃ ranked, RankedBy query episodes ranked ∧ ∀ k, ∃ hits : List (InMemoryHit E ℚ),
      store.retrieveSimilar query k = .ok hits ∧
      hits = (ranked.take k).map (hitOf query) ∧
      hits.length = min k (episodes.countP fun entry => Matches query entry) ∧
      (∀ hit ∈ hits, 0 < hit.score ∧ hit.score ≤ 1) ∧
      (∀ hit ∈ hits, ∀ entry ∈ ranked.drop k, score query entry ≤ hit.score) ∧
      (∀ k' ≥ k, ∃ more, store.retrieveSimilar query k' = .ok more ∧ hits <+: more) ∧
      ∀ query', Reworded query query' → store.retrieveSimilar query' k = .ok hits := by
  intro store
  refine ⟨ranked query episodes, rankedBy_ranked query episodes, fun k => ?_⟩
  have retrieved := retrieveSimilar_eq nextKey episodes query
  refine ⟨_, retrieved k, rfl, ?_, ?_, ?_, ?_, ?_⟩
  · rw [List.length_map, List.length_take, length_ranked]
  · intro hit hhit
    obtain ⟨entry, mem, rfl⟩ := List.mem_map.mp hhit
    exact ⟨score_pos_iff.mpr (mem_ranked (List.mem_of_mem_take mem)), score_le_one query entry⟩
  · intro hit hhit entry left
    obtain ⟨first, mem, rfl⟩ := List.mem_map.mp hhit
    have first_before : AtOrBefore (byOverlap query).cmp first entry :=
      (Sieve.keepsTop_sortBy (byOverlap query) k _).above first mem entry left
    exact score_le_score (atOrBefore_byOverlap.mp first_before)
  · intro k' hk
    exact ⟨_, retrieved k', (List.take_prefix_take_left hk).map (hitOf query)⟩
  · intro query' reworded
    rw [retrieveSimilar_of_reworded reworded]
    exact retrieved k

end InMemoryStore

end MemoryPolicy

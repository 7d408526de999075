import MemoryPolicy.Fusion.Unanimity

/-! How the fused order answers to changes of the lists.  A list that ranks an item higher, or finds
it when it did not, never makes it fall behind an item that it led, under any rounding that is
weakly monotone; and lists that rank neither of two items do not touch their order at all. -/

namespace MemoryPolicy.Fusion

open FirstSeen StableSort

variable {T F : Type}

theorem exists_longest {ranked : List T} {lists : List (List T)} (some : lists ≠ [])
    (cut : ∀ list ∈ lists, list <+: ranked) :
    ∃ longest ∈ lists, ∀ list ∈ lists, list <+: longest := by
  induction lists with
  | nil => exact absurd rfl some
  | cons list lists ih =>
    by_cases rest : lists = []
    · exact ⟨list, by simp, by simp [rest]⟩
    · obtain ⟨longest, mem, all⟩ := ih rest fun l h => cut l (by simp [h])
      rcases List.prefix_or_prefix_of_prefix (cut list (by simp)) (cut longest (by simp [mem]))
        with shorter | longer
      · refine ⟨longest, by simp [mem], ?_⟩
        intro l h
        rcases List.mem_cons.mp h with rfl | h
        · exact shorter
        · exact all l h
      · refine ⟨list, by simp, ?_⟩
        intro l h
        rcases List.mem_cons.mp h with rfl | h
        · exact List.prefix_refl l
        · exact (all l h).trans longer

variable [DecidableEq T]

/-! ### Changes of one list -/

/-- `list'` is `list` with `a` moved up, or put in. -/
structure Raised (a : T) (list list' : List T) : Prop where
  places : ∃ front mid back, list' = front ++ a :: (mid ++ back) ∧
    (list = front ++ (mid ++ a :: back) ∨ list = front ++ (mid ++ back))

/-- `list'` is as good to `a` as `list`, and no better to `b`. -/
structure Favours (a b : T) (list list' : List T) : Prop where
  up : a ∈ list → a ∈ list' ∧ list'.idxOf a ≤ list.idxOf a
  down : b ∈ list' → b ∈ list ∧ list.idxOf b ≤ list'.idxOf b
  kept : b ∈ list → b ∈ list'

theorem Favours.refl (a b : T) (list : List T) : Favours a b list list :=
  ⟨fun h => ⟨h, Nat.le_refl _⟩, fun h => ⟨h, Nat.le_refl _⟩, id⟩

theorem Raised.favours {a b : T} (differ : b ≠ a) {list list' : List T} (h : Raised a list list') :
    Favours a b list list' := by
  obtain ⟨front, mid, back, rfl, places⟩ := h.places
  have same : b ∈ list ↔ b ∈ front ++ a :: (mid ++ back) := by
    rcases places with rfl | rfl <;> simp [differ]
  refine ⟨fun mem => ⟨by simp, ?_⟩, fun mem => ⟨same.mpr mem, ?_⟩, same.mp⟩
  · rcases places with rfl | rfl
    · grind
    · grind
  · rcases places with rfl | rfl
    · grind
    · grind

/-! ### Scores

A change of a family of lists is given by the pairs of the old and the new list. -/

section Scores

variable [FusionOps F] {k : F} {S : Set F} (laws : WeaklyMonotone k S)

include laws

/-- An item that each new list has where the old one had it, and as high there, has no less of a
score. -/
theorem ahead_of_changes {γ : Type} (old new : γ → List T) {changes : List γ} {item : T}
    (distinct : ∀ c ∈ changes, (old c).Nodup ∧ (new c).Nodup)
    (up : ∀ c ∈ changes, item ∈ old c →
      item ∈ new c ∧ (new c).idxOf item ≤ (old c).idxOf item) :
    Ahead (contributions k ((changes.map new).map List.zipIdx).flatten item)
      (contributions k ((changes.map old).map List.zipIdx).flatten item) := by
  induction changes using List.reverseRecOn with
  | nil => exact .inl rfl
  | append_singleton changes c ih =>
    have ih := ih (fun c' mem => distinct c' (by simp [mem])) fun c' mem => up c' (by simp [mem])
    have memOld := mem_contributions laws ((changes.map old).map List.zipIdx).flatten item
    have memNew := mem_contributions laws ((changes.map new).map List.zipIdx).flatten item
    obtain ⟨once, once'⟩ := distinct c (by simp)
    have up := up c (by simp)
    simp only [List.map_append, List.map_singleton, List.flatten_append, List.flatten_singleton,
      contributions_append, contributions_zipIdx k once, contributions_zipIdx k once']
    by_cases was : item ∈ old c
    · obtain ⟨is, higher⟩ := up was
      rw [if_pos was, if_pos is]
      exact ih.concat_both laws memNew memOld higher
    · rw [if_neg was, List.append_nil]
      by_cases is : item ∈ new c
      · rw [if_pos is]
        exact ih.concat_left laws memNew _
      · rwa [if_neg is, List.append_nil]

end Scores

/-! ### First occurrences -/

theorem idxOf_flatten_lt_of_favours {a b : T} {changes : List (List T × List T)}
    (favours : ∀ c ∈ changes, Favours a b c.1 c.2)
    (earlier : (changes.map Prod.fst).flatten.idxOf a < (changes.map Prod.fst).flatten.idxOf b) :
    (changes.map Prod.snd).flatten.idxOf a < (changes.map Prod.snd).flatten.idxOf b := by
  induction changes with
  | nil => exact absurd earlier (Nat.lt_irrefl _)
  | cons c changes ih =>
    have ih := ih fun c' mem => favours c' (List.mem_cons_of_mem _ mem)
    have here := favours c List.mem_cons_self
    rw [List.map_cons, List.flatten_cons] at earlier ⊢
    by_cases hb : b ∈ c.2
    · have hb' := here.down hb
      rw [List.idxOf_append_of_mem hb'.1] at earlier
      have ha : a ∈ c.1 := by
        by_contra none
        rw [List.idxOf_append_of_notMem none] at earlier
        have := List.idxOf_lt_length_of_mem hb'.1
        omega
      have ha' := here.up ha
      rw [List.idxOf_append_of_mem ha] at earlier
      rw [List.idxOf_append_of_mem ha'.1, List.idxOf_append_of_mem hb]
      omega
    · have hb' : b ∉ c.1 := fun mem => hb (here.kept mem)
      rw [List.idxOf_append_of_notMem hb]
      by_cases ha : a ∈ c.2
      · rw [List.idxOf_append_of_mem ha]
        exact Nat.lt_add_right _ (List.idxOf_lt_length_of_mem ha)
      · have ha' : a ∉ c.1 := fun mem => ha (here.up mem).1
        rw [List.idxOf_append_of_notMem ha', List.idxOf_append_of_notMem hb'] at earlier
        rw [List.idxOf_append_of_notMem ha]
        omega

/-! ### The fused order -/

section Order

variable [FusionOps F] {k : F} {lists : List (List T)} {a b item : T}

theorem contributions_ne_nil (listed : item ∈ lists.flatten) :
    contributions k (lists.map List.zipIdx).flatten item ≠ [] := by
  intro none
  rw [contributions_eq_nil_iff, zipIdx_map_flatten] at none
  exact none listed

theorem listed_of_pair (h : [a, b].Sublist ((reciprocalRankFusion lists k).map Prod.fst)) :
    a ∈ lists.flatten ∧ b ∈ lists.flatten := by
  have listed : ∀ item ∈ [a, b], item ∈ lists.flatten := by
    intro item mem
    have mem := h.subset mem
    rwa [reciprocalRankFusion, map_fst_fuseVotes, (sortBy_perm _ _).mem_iff, candidates_zipIdx,
      List.mem_eraseDups] at mem
  exact ⟨listed a (by simp), listed b (by simp)⟩

theorem nodup_reciprocalRankFusion (k : F) (lists : List (List T)) :
    ((reciprocalRankFusion lists k).map Prod.fst).Nodup := by
  rw [reciprocalRankFusion, map_fst_fuseVotes, (sortBy_perm _ _).nodup_iff]
  exact nodup_candidates _

/-- The score with which an item is fused. -/
def fusedScore (k : F) (lists : List (List T)) (item : T) : F :=
  score (clamp k) (lists.map List.zipIdx).flatten item

/-- Two items are fused in the order of their scores, and of their first occurrences. -/
theorem pair_sublist_iff_score (hasA : a ∈ lists.flatten) (hasB : b ∈ lists.flatten) :
    [a, b].Sublist ((reciprocalRankFusion lists k).map Prod.fst) ↔
      FusionOps.totalCmp (fusedScore k lists b) (fusedScore k lists a) = .lt ∨
        FusionOps.totalCmp (fusedScore k lists b) (fusedScore k lists a) = .eq ∧
          lists.flatten.idxOf a < lists.flatten.idxOf b := by
  have seen : ∀ {item}, item ∈ lists.flatten →
      item ∈ candidates (lists.map List.zipIdx).flatten := by
    intro item mem
    rwa [candidates_zipIdx, List.mem_eraseDups]
  rw [reciprocalRankFusion, pair_sublist_fuseVotes_iff (seen hasA) (seen hasB), ranking,
    Ordering.then_eq_lt, compare_lt_iff_lt, candidates_zipIdx, idxOf_eraseDups_lt_iff hasA hasB]
  rfl

end Order

/-- An item that some lists rank higher, or find when they did not, stays before each item that it
was fused before. -/
theorem reciprocalRankFusion_raised [FusionOps F] {k : F} {S : Set F}
    (laws : WeaklyMonotone (clamp k) S) {changes : List (List T × List T)}
    (distinct : ∀ c ∈ changes, c.1.Nodup ∧ c.2.Nodup) {a b : T}
    (changed : ∀ c ∈ changes, c.2 = c.1 ∨ Raised a c.1 c.2)
    (led : [a, b].Sublist ((reciprocalRankFusion (changes.map Prod.fst) k).map Prod.fst)) :
    [a, b].Sublist ((reciprocalRankFusion (changes.map Prod.snd) k).map Prod.fst) := by
  have differ : b ≠ a := by
    have nodup := led.nodup (nodup_reciprocalRankFusion k _)
    simpa [eq_comm] using nodup
  have favours : ∀ c ∈ changes, Favours a b c.1 c.2 := by
    intro c mem
    rcases changed c mem with same | raised
    · rw [same]
      exact .refl a b c.1
    · exact raised.favours differ
  obtain ⟨hasA, hasB⟩ := listed_of_pair led
  have hasA' : a ∈ (changes.map Prod.snd).flatten := by
    obtain ⟨list, mem, ha⟩ := List.mem_flatten.mp hasA
    obtain ⟨c, hc, rfl⟩ := List.mem_map.mp mem
    exact List.mem_flatten.mpr ⟨c.2, List.mem_map_of_mem hc, ((favours c hc).up ha).1⟩
  have hasB' : b ∈ (changes.map Prod.snd).flatten := by
    obtain ⟨list, mem, hb⟩ := List.mem_flatten.mp hasB
    obtain ⟨c, hc, rfl⟩ := List.mem_map.mp mem
    exact List.mem_flatten.mpr ⟨c.2, List.mem_map_of_mem hc, (favours c hc).kept hb⟩
  have gains := ((ahead_of_changes laws Prod.fst Prod.snd distinct
    fun c mem => (favours c mem).up).resolve_left (contributions_ne_nil hasA)).2
  have loses := ((ahead_of_changes laws Prod.snd Prod.fst (fun c mem => (distinct c mem).symm)
    fun c mem => (favours c mem).down).resolve_left (contributions_ne_nil hasB')).2
  rw [pair_sublist_iff_score hasA hasB] at led
  rw [pair_sublist_iff_score hasA' hasB']
  rcases led with higher | ⟨tied, earlier⟩
  · exact .inl (Std.TransCmp.lt_of_isLE_of_lt loses (Std.TransCmp.lt_of_lt_of_isLE higher gains))
  · have first := idxOf_flatten_lt_of_favours favours earlier
    have no_less := loses.trans (.trans (Ordering.isLE_of_eq_eq tied) gains)
    exact (Ordering.isLE_iff_eq_lt_or_eq_eq.mp no_less).imp_right fun tied => ⟨tied, first⟩

/-- The second list moves "d" before "c". -/
theorem reciprocalRankFusion_raised_second :
    ["d", "b"].Sublist
      ((reciprocalRankFusion [["a", "d"], ["b", "d", "c"]] (60 : ℚ)).map Prod.fst) := by
  have changed : ∀ c ∈ [(["a", "d"], ["a", "d"]), (["b", "c", "d"], ["b", "d", "c"])],
      c.2 = c.1 ∨ Raised "d" c.1 c.2 := by
    intro c mem
    rcases List.mem_pair.mp mem with rfl | rfl
    · exact .inl rfl
    · exact .inr ⟨["b"], ["c"], [], rfl, .inl rfl⟩
  exact reciprocalRankFusion_raised (weaklyMonotone_rat 60) (by decide) changed (by decide +kernel)

/-! ### Lists that do not matter -/

section Irrelevant

variable {a b : T}

/-- The lists that rank one of the two items. -/
def relevant (a b : T) (lists : List (List T)) : List (List T) :=
  lists.filter fun list => a ∈ list ∨ b ∈ list

theorem mem_flatten_relevant {item : T} (lists : List (List T)) (own : item = a ∨ item = b) :
    item ∈ (relevant a b lists).flatten ↔ item ∈ lists.flatten := by
  simp only [relevant, List.mem_flatten, List.mem_filter, decide_eq_true_eq]
  constructor
  · rintro ⟨list, ⟨mem, -⟩, here⟩
    exact ⟨list, mem, here⟩
  · rintro ⟨list, mem, here⟩
    refine ⟨list, ⟨mem, ?_⟩, here⟩
    rcases own with rfl | rfl
    · exact .inl here
    · exact .inr here

theorem contributions_relevant [FusionOps F] (k : F) {item : T} (lists : List (List T))
    (own : item = a ∨ item = b) :
    contributions k ((relevant a b lists).map List.zipIdx).flatten item =
      contributions k (lists.map List.zipIdx).flatten item := by
  induction lists with
  | nil => rfl
  | cons list lists ih =>
    rw [relevant, List.filter_cons]
    split
    · rw [List.map_cons, List.map_cons, List.flatten_cons, List.flatten_cons, contributions_append,
        contributions_append, ← ih, relevant]
    · rename_i neither
      have silent : contributions k list.zipIdx item = [] := by
        rw [contributions_eq_nil_iff, List.zipIdx_map_fst]
        intro mem
        rcases own with rfl | rfl <;> simp [mem] at neither
      rw [List.map_cons, List.flatten_cons, contributions_append, silent, List.nil_append, ← ih,
        relevant]

theorem idxOf_flatten_relevant_lt_iff (lists : List (List T)) :
    (relevant a b lists).flatten.idxOf a < (relevant a b lists).flatten.idxOf b ↔
      lists.flatten.idxOf a < lists.flatten.idxOf b := by
  induction lists with
  | nil => rfl
  | cons list lists ih =>
    rw [relevant, List.filter_cons]
    rw [relevant] at ih
    split
    · rw [List.flatten_cons, List.flatten_cons]
      grind
    · rename_i neither
      simp only [decide_eq_true_eq, not_or] at neither
      rw [List.flatten_cons, List.idxOf_append_of_notMem neither.1,
        List.idxOf_append_of_notMem neither.2, ih, Nat.add_lt_add_iff_left]

/-- Lists that rank neither of two items do not touch their order, whatever the arithmetic. -/
theorem reciprocalRankFusion_relevant [FusionOps F] (k : F) (lists : List (List T)) (a b : T) :
    [a, b].Sublist ((reciprocalRankFusion (relevant a b lists) k).map Prod.fst) ↔
      [a, b].Sublist ((reciprocalRankFusion lists k).map Prod.fst) := by
  have listedA := mem_flatten_relevant lists (.inl rfl : a = a ∨ a = b)
  have listedB := mem_flatten_relevant lists (.inr rfl : b = a ∨ b = b)
  by_cases both : a ∈ lists.flatten ∧ b ∈ lists.flatten
  · rw [pair_sublist_iff_score both.1 both.2,
      pair_sublist_iff_score (listedA.mpr both.1) (listedB.mpr both.2),
      idxOf_flatten_relevant_lt_iff]
    simp only [fusedScore, score, contributions_relevant (clamp k) lists (.inl rfl : a = a ∨ a = b),
      contributions_relevant (clamp k) lists (.inr rfl : b = a ∨ b = b)]
  · constructor
    · intro h
      have listed := listed_of_pair h
      exact absurd ⟨listedA.mp listed.1, listedB.mp listed.2⟩ both
    · intro h
      exact absurd (listed_of_pair h) both

end Irrelevant

/-! ### Prefixes of one ranking -/

theorem idxOf_lt_of_isPrefix {list whole : List T} (cut : list <+: whole) {a b : T}
    (hb : b ∈ list) (before : whole.idxOf a < whole.idxOf b) :
    a ∈ list ∧ list.idxOf a < list.idxOf b := by
  obtain ⟨rest, rfl⟩ := cut
  rw [List.idxOf_append_of_mem hb] at before
  have ha : a ∈ list := by
    by_contra none
    rw [List.idxOf_append_of_notMem none] at before
    have := List.idxOf_lt_length_of_mem hb
    omega
  rw [List.idxOf_append_of_mem ha] at before
  exact ⟨ha, before⟩

/-- Lists that cut one ranking at different depths are fused to the longest of them, even where the
scores tie by rounding. -/
theorem reciprocalRankFusion_prefixes [FusionOps F] {k : F} {S : Set F}
    (laws : WeaklyMonotone (clamp k) S) {ranked : List T} (nodup : ranked.Nodup)
    {lists : List (List T)} (some : lists ≠ []) (cut : ∀ list ∈ lists, list <+: ranked) :
    let fused := (reciprocalRankFusion lists k).map Prod.fst
    fused ∈ lists ∧ ∀ list ∈ lists, list <+: fused := by
  intro fused
  obtain ⟨longest, mem, all⟩ := exists_longest some cut
  have distinct : ∀ list ∈ lists, list.Nodup := fun list h => nodup.sublist (cut list h).sublist
  have listed : ∀ {item}, item ∈ lists.flatten ↔ item ∈ longest := by
    intro item
    rw [List.mem_flatten]
    exact ⟨fun ⟨list, h, here⟩ => (all list h).subset here, fun here => ⟨longest, mem, here⟩⟩
  have before : ∀ a ∈ longest, ∀ b ∈ longest, longest.idxOf a < longest.idxOf b →
      [a, b].Sublist fused := by
    intro a ha b hb earlier
    have each : ∀ list ∈ lists, b ∈ list → a ∈ list ∧ list.idxOf a < list.idxOf b :=
      fun list h here => idxOf_lt_of_isPrefix (all list h) here earlier
    have no_less := ((ahead_of_before laws lists distinct each).resolve_left
      (contributions_ne_nil (listed.mpr hb))).2
    rw [pair_sublist_iff_score (listed.mpr ha) (listed.mpr hb)]
    have first := idxOf_flatten_lt each (listed.mpr hb)
    exact (Ordering.isLE_iff_eq_lt_or_eq_eq.mp no_less).imp_right fun tied => ⟨tied, first⟩
  have perm : fused.Perm longest := by
    rw [List.perm_ext_iff_of_nodup (nodup_reciprocalRankFusion k lists) (distinct longest mem)]
    intro item
    rw [← listed]
    show item ∈ (reciprocalRankFusion lists k).map Prod.fst ↔ _
    rw [reciprocalRankFusion, map_fst_fuseVotes, (sortBy_perm _ _).mem_iff, candidates_zipIdx,
      List.mem_eraseDups]
  have same : fused = longest := eq_of_perm_of_pairs perm (distinct longest mem) before
  rw [same]
  exact ⟨mem, all⟩

/-- A ranking cut after one item and after three. -/
theorem reciprocalRankFusion_prefixes_two :
    let fused := (reciprocalRankFusion [["a"], ["a", "b", "c"]] (60 : ℚ)).map Prod.fst
    fused ∈ [["a"], ["a", "b", "c"]] ∧ ∀ list ∈ [["a"], ["a", "b", "c"]], list <+: fused := by
  have nodup : ["a", "b", "c"].Nodup := by decide
  exact reciprocalRankFusion_prefixes (weaklyMonotone_rat 60) nodup (by decide) (by decide)

end MemoryPolicy.Fusion

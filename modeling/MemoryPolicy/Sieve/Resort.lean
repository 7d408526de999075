import MemoryPolicy.Sieve.Shrink

/-! A sieve on what it has chosen.  The chosen entries are listed as they were settled, so another
pass sorts them anew.  A pass sorts its pool by the rankings of its stages in turn, and each stage
lists what it settles in the order that these sorts have left, so sorting again changes nothing. -/

namespace Sieve

open StableSort

variable {α δ : Type*} {k : δ}

/-- By `first`, and then by `second`. -/
def Ranking.lex (first second : Ranking α) : Ranking α where
  cmp := compareLex first.cmp second.cmp
  trans :=
    have := first.trans
    have := second.trans
    inferInstance

/-- Larger values first. -/
def Ranking.largest (cmp : α → α → Ordering) [Std.TransCmp cmp] : Ranking α where
  cmp a b := cmp b a
  trans := inferInstance

/-- The ranking without preferences. -/
def Ranking.flat : Ranking α where
  cmp _ _ := .eq
  trans := { eq_swap := rfl, isLE_trans := fun _ _ => rfl }

/-- To sort a sorted pool is to sort it by both rankings. -/
theorem sortBy_lex (q : Ranking α) {r : Ranking α} {pool : List α}
    (sorted : pool.Pairwise (AtOrBefore r.cmp)) :
    sortBy q.cmp pool = sortBy (q.lex r).cmp pool := by
  have := q.trans
  have := r.trans
  conv_lhs => rw [← sortBy_of_pairwise sorted, sortBy_sortBy]
  rfl

namespace Stage

theorem settled_filter_isSome (verdict : α → Option δ) (pool : List α) :
    (each verdict).settled (pool.filter fun a => (verdict a).isSome) =
      (each verdict).settled pool := by
  rw [settled, settled, List.filterMap_filter]
  congr 1
  funext a
  cases verdict a <;> rfl

/-- A `top` stage on sorted entries: those that it settled from a sorted pool, and others that it
passed on. -/
theorem top_sortBy {q r : Ranking α} {count : Nat} {d : δ} {pool rest : List α}
    (sorted : pool.Pairwise (AtOrBefore r.cmp))
    (passes : ∀ a ∈ rest, a ∈ (top q count d).passed pool) :
    let front := (sortBy q.cmp pool).take count
    (top q count d).settled (sortBy r.cmp (front ++ rest)) = front.map (fun a => (a, d)) ∧
      (top q count d).passed (sortBy r.cmp (front ++ rest)) = sortBy (q.lex r).cmp rest := by
  intro front
  have := q.trans
  have := r.trans
  have := (q.lex r).trans
  have whole : (front ++ (top q count d).passed pool).Pairwise (AtOrBefore (q.lex r).cmp) := by
    rw [passed, List.take_append_drop, sortBy_lex q sorted]
    exact sortBy_pairwise _ _
  obtain ⟨ordered, -, across⟩ := List.pairwise_append.mp whole
  have sorts : sortBy q.cmp (sortBy r.cmp (front ++ rest)) =
      front ++ sortBy (q.lex r).cmp rest := by
    rw [sortBy_sortBy]
    exact sortBy_append_of_forall ordered fun a ha b hb => across a ha b (passes b hb)
  by_cases full : count ≤ pool.length
  · have length : front.length = count := by
      rw [List.length_take_of_le]
      rwa [(sortBy_perm _ _).length_eq]
    rw [settled, passed, sorts, List.take_left' length, List.drop_left' length]
    exact ⟨rfl, rfl⟩
  · have none : rest = [] := by
      apply List.eq_nil_iff_forall_not_mem.mpr
      intro a ha
      have behind := passes a ha
      rw [passed, List.drop_eq_nil_of_le] at behind
      · exact absurd behind List.not_mem_nil
      · rw [(sortBy_perm _ _).length_eq]
        omega
    have length : front.length ≤ count := by
      rw [List.length_take]
      exact Nat.min_le_left _ _
    subst none
    rw [settled, passed, sorts, sortBy_nil, List.append_nil, List.take_of_length_le length,
      List.drop_eq_nil_of_le length]
    exact ⟨rfl, rfl⟩

end Stage

variable [DecidableEq δ]

/-- The entries with verdict `k`, in the order settled. -/
def chosen (k : δ) (verdicts : List (α × δ)) : List α :=
  (verdicts.filter fun v => v.2 = k).map Prod.fst

theorem chosen_append (k : δ) (xs ys : List (α × δ)) :
    chosen k (xs ++ ys) = chosen k xs ++ chosen k ys := by
  rw [chosen, List.filter_append, List.map_append]
  rfl

theorem chosen_map (k d : δ) (xs : List α) :
    chosen k (xs.map fun a => (a, d)) = if d = k then xs else [] := by
  by_cases h : d = k <;> simp [chosen, List.filter_map, Function.comp_def, h]

theorem mem_chosen {verdicts : List (α × δ)} {a : α} :
    a ∈ chosen k verdicts ↔ (a, k) ∈ verdicts := by
  simp [chosen]

namespace Stage

theorem chosen_settled_each (verdict : α → Option δ) (pool : List α) :
    chosen k ((Stage.each verdict).settled pool) = pool.filter fun a => verdict a = some k := by
  induction pool with
  | nil => rfl
  | cons a pool ih =>
    rw [chosen, settled] at ih ⊢
    cases h : verdict a with
    | none => simpa [h] using ih
    | some d => by_cases hd : d = k <;> simpa [h, hd] using ih

/-- An `each` stage on sorted entries: those that it chose from a sorted pool, and undecided
ones. -/
theorem each_sortBy {verdict : α → Option δ} (r : Ranking α) {pool rest : List α}
    (sorted : pool.Pairwise (AtOrBefore r.cmp)) (undecided : ∀ a ∈ rest, verdict a = none) :
    let front := chosen k ((each verdict).settled pool)
    (each verdict).settled (sortBy r.cmp (front ++ rest)) = front.map (fun a => (a, k)) ∧
      (each verdict).passed (sortBy r.cmp (front ++ rest)) = sortBy r.cmp rest := by
  intro front
  have := r.trans
  have decided : ∀ a ∈ front, verdict a = some k := by
    intro a ha
    exact (mem_settled_each.mp (mem_chosen.mp ha)).2
  have ordered : sortBy r.cmp front = front := by
    apply sortBy_of_pairwise
    show (chosen k _).Pairwise _
    rw [chosen_settled_each]
    exact sorted.filter _
  constructor
  · have some_front : (front.filter fun a => (verdict a).isSome) = front :=
      List.filter_eq_self.mpr fun a ha => by rw [decided a ha]; rfl
    have some_rest : (rest.filter fun a => (verdict a).isSome) = [] :=
      List.filter_eq_nil_iff.mpr fun a ha => by simp [undecided a ha]
    rw [← settled_filter_isSome, sortBy_filter, List.filter_append, some_front, some_rest,
      List.append_nil, ordered, settled, ← List.filterMap_eq_map]
    exact List.filterMap_congr fun a ha => by rw [decided a ha]; rfl
  · have none_front : (front.filter fun a => (verdict a).isNone) = [] :=
      List.filter_eq_nil_iff.mpr fun a ha => by simp [decided a ha]
    have none_rest : (rest.filter fun a => (verdict a).isNone) = rest :=
      List.filter_eq_self.mpr fun a ha => by rw [undecided a ha]; rfl
    rw [passed, sortBy_filter, List.filter_append, none_front, none_rest, List.nil_append]

end Stage

/-- The chosen entries of a sorted pool, sorted again, are chosen again and in the same order. -/
theorem verdicts_sortBy_chosen {stages : List (Stage α δ)} (hk : ∀ s ∈ stages, s.TopVerdict k)
    {default : δ} (r : Ranking α) {pool : List α} (sorted : pool.Pairwise (AtOrBefore r.cmp)) :
    verdicts stages default (sortBy r.cmp (chosen k (verdicts stages default pool))) =
      (chosen k (verdicts stages default pool)).map fun a => (a, k) := by
  induction stages generalizing pool r with
  | nil =>
    have all : verdicts [] default pool = pool.map fun a => (a, default) := rfl
    rw [all, chosen_map]
    by_cases h : default = k
    · rw [if_pos h, sortBy_of_pairwise sorted, all, h]
    · rw [if_neg h]
      rfl
  | cons s stages ih =>
    have := r.trans
    have ranks : ∀ t ∈ stages, t.TopVerdict k := fun t ht => hk t (by simp [ht])
    rw [verdicts_cons, verdicts_cons, chosen_append]
    have below : ∀ a ∈ chosen k (verdicts stages default (s.passed pool)), a ∈ s.passed pool :=
      fun a ha => mem_of_mem_verdicts (mem_chosen.mp ha)
    cases s with
    | each verdict =>
      obtain ⟨settles, passes⟩ := Stage.each_sortBy (k := k) r sorted
        fun a ha => (Stage.mem_passed_each.mp (below a ha)).2
      have next : ((Stage.each verdict).passed pool).Pairwise (AtOrBefore r.cmp) :=
        sorted.filter _
      rw [settles, passes, ih ranks r next, List.map_append]
    | top q count d =>
      obtain rfl : d = k := hk _ List.mem_cons_self
      have := q.trans
      have := (q.lex r).trans
      obtain ⟨settles, passes⟩ := Stage.top_sortBy (d := d) sorted below
      have front : chosen d ((Stage.top q count d).settled pool) =
          (sortBy q.cmp pool).take count := by
        rw [Stage.settled, chosen_map, if_pos rfl]
      have next : ((Stage.top q count d).passed pool).Pairwise (AtOrBefore (q.lex r).cmp) := by
        rw [Stage.passed, sortBy_lex q sorted]
        exact (sortBy_pairwise _ _).sublist (List.drop_sublist _ _)
      rw [front, settles, passes, ih ranks (q.lex r) next, List.map_append]

/-- What a sieve has chosen, in the order settled, it chooses again and in the same order. -/
theorem verdicts_chosen {stages : List (Stage α δ)} (hk : ∀ s ∈ stages, s.TopVerdict k)
    (default : δ) (pool : List α) :
    verdicts stages default (chosen k (verdicts stages default pool)) =
      (chosen k (verdicts stages default pool)).map fun a => (a, k) := by
  have flat : ∀ xs : List α, xs.Pairwise (AtOrBefore Ranking.flat.cmp) :=
    fun xs => List.pairwise_of_forall fun _ _ => rfl
  have again := @verdicts_sortBy_chosen α δ k _ stages hk default Ranking.flat pool (flat pool)
  rwa [sortBy_of_pairwise (flat _)] at again

end Sieve

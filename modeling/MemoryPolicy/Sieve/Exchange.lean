import MemoryPolicy.Sieve.Basic
import Mathlib.Data.List.Perm.Subperm

/-! What one more entry in the pool changes.  A stage either settles the extra entry beside the
others, or passes on one entry more: the extra entry, or one that it displaces from a `top` stage.
So along the stages the two pools differ by at most one entry, and the verdicts by one exchange. -/

namespace Sieve

open StableSort

variable {α δ : Type*}

/-- `pool'` has the entries of `pool`, in the same order, and the entry `e`. -/
structure Extra (e : α) (pool pool' : List α) : Prop where
  sublist : pool.Sublist pool'
  perm : pool'.Perm (e :: pool)

theorem Extra.insert (e : α) (front back : List α) :
    Extra e (front ++ back) (front ++ e :: back) :=
  ⟨(List.sublist_cons_self e back).append_left front, List.perm_middle⟩

theorem Extra.length {e : α} {pool pool' : List α} (h : Extra e pool pool') :
    pool'.length = pool.length + 1 := by
  simpa using h.perm.length_eq

theorem exists_extra {pool pool' : List α} (h : pool.Sublist pool')
    (length : pool'.length = pool.length + 1) : ∃ e, Extra e pool pool' := by
  obtain ⟨rest, hrest⟩ := h.exists_perm_append
  have one : rest.length = 1 := by
    have := hrest.length_eq
    rw [List.length_append] at this
    omega
  obtain ⟨e, rfl⟩ := List.length_eq_one_iff.mp one
  exact ⟨e, h, hrest.trans List.perm_append_comm⟩

theorem Extra.sortBy {r : Ranking α} {e : α} {pool pool' : List α} (h : Extra e pool pool') :
    Extra e (sortBy r.cmp pool) (sortBy r.cmp pool') := by
  have := r.trans
  exact ⟨sortBy_sublist h.sublist,
    ((sortBy_perm _ _).trans h.perm).trans ((sortBy_perm _ _).symm.cons e)⟩

/-- The two outcomes of an extra entry `e` after some stages: both pools are the same and `e`
has displaced the verdict `k` of an entry that now has the verdict `d`, or the pool has one entry
more, whose verdict `k` has gone to `e`. -/
inductive Outcome (k : δ) (e : α) (settled settled' : List (α × δ)) (pool pool' : List α) : Prop
  | done (f : α) (d : δ) (same : pool' = pool)
      (exchange : ((f, k) :: settled').Perm ((e, k) :: (f, d) :: settled))
  | more (f : α) (extra : Extra f pool pool')
      (exchange : ((f, k) :: settled').Perm ((e, k) :: settled))

theorem each_outcome (k : δ) (verdict : α → Option δ) {e : α} {pool pool' : List α}
    (h : Extra e pool pool') :
    Outcome k e ((Stage.each verdict).settled pool) ((Stage.each verdict).settled pool')
      ((Stage.each verdict).passed pool) ((Stage.each verdict).passed pool') := by
  have settles := h.perm.filterMap fun a => (verdict a).map fun d => (a, d)
  have passes := h.perm.filter fun a => (verdict a).isNone
  cases hv : verdict e with
  | none =>
    simp only [List.filterMap_cons, List.filter_cons, hv, Option.map_none, Option.isNone_none,
      if_true] at settles passes
    exact .more e ⟨h.sublist.filter _, passes⟩ (settles.cons _)
  | some d =>
    simp only [List.filterMap_cons, List.filter_cons, hv, Option.map_some, Option.isNone_some,
      Bool.false_eq_true, if_false] at settles passes
    exact .done e d ((h.sublist.filter _).eq_of_length passes.length_eq.symm).symm (settles.cons _)

theorem top_outcome (r : Ranking α) (count : Nat) (k : δ) {e : α} {pool pool' : List α}
    (h : Extra e pool pool') :
    Outcome k e ((Stage.top r count k).settled pool) ((Stage.top r count k).settled pool')
      ((Stage.top r count k).passed pool) ((Stage.top r count k).passed pool') := by
  have sorted := h.sortBy (r := r)
  have length := sorted.length
  simp only [Stage.settled, Stage.passed]
  generalize sortBy r.cmp pool = xs at sorted length ⊢
  generalize sortBy r.cmp pool' = ys at sorted length ⊢
  by_cases room : xs.length < count
  · rw [List.drop_eq_nil_of_le (by omega), List.drop_eq_nil_of_le (by omega),
      List.take_of_length_le (by omega), List.take_of_length_le (by omega)]
    exact .done e k rfl ((sorted.perm.map fun a => (a, k)).cons (e, k))
  · obtain ⟨f, hf⟩ := exists_extra (sorted.sublist.drop count)
      (by rw [List.length_drop, List.length_drop]; omega)
    refine .more f hf ?_
    have whole : (f :: ys.take count ++ xs.drop count).Perm (e :: xs.take count ++ xs.drop count) :=
      calc (f :: ys.take count ++ xs.drop count).Perm (ys.take count ++ f :: xs.drop count) :=
            List.perm_middle.symm
        _ |>.Perm (ys.take count ++ ys.drop count) := hf.perm.symm.append_left _
        _ |>.Perm (e :: (xs.take count ++ xs.drop count)) := by
            rw [List.take_append_drop, List.take_append_drop]
            exact sorted.perm
    exact ((List.perm_append_right_iff _).mp whole).map fun a => (a, k)

theorem Stage.outcome {k : δ} {s : Stage α δ} (hk : s.TopVerdict k) {e : α} {pool pool' : List α}
    (h : Extra e pool pool') :
    Outcome k e (s.settled pool) (s.settled pool') (s.passed pool) (s.passed pool') := by
  cases s with
  | each verdict => exact each_outcome k verdict h
  | top r count d =>
    obtain rfl : d = k := hk
    exact top_outcome r count d h

theorem exchange_append {a x y : α} {s s' r r' : List α} (first : (x :: s').Perm (a :: s))
    (second : (y :: r').Perm (x :: r)) : (y :: (s' ++ r')).Perm (a :: (s ++ r)) :=
  calc (y :: (s' ++ r')).Perm (s' ++ y :: r') := List.perm_middle.symm
    _ |>.Perm (s' ++ x :: r) := second.append_left s'
    _ |>.Perm (x :: s' ++ r) := List.perm_middle
    _ |>.Perm (a :: s ++ r) := first.append_right r

theorem outcome {k : δ} {stages : List (Stage α δ)} (hk : ∀ s ∈ stages, s.TopVerdict k) {e : α}
    {pool pool' : List α} (h : Extra e pool pool') :
    Outcome k e (settled stages pool) (settled stages pool') (passed stages pool)
      (passed stages pool') := by
  induction stages generalizing e pool pool' with
  | nil => exact .more e h (List.Perm.refl _)
  | cons s stages ih =>
    simp only [settled, passed]
    rcases s.outcome (hk s (by simp)) h with ⟨f, d, same, exchange⟩ | ⟨f, extra, exchange⟩
    · rw [same]
      exact .done f d rfl (exchange.append_right _)
    · rcases ih (fun t ht => hk t (by simp [ht])) extra with ⟨g, d, same, rest⟩ | ⟨g, extra, rest⟩
      · exact .done g d same ((exchange_append exchange rest).trans (List.perm_middle.cons _))
      · exact .more g extra (exchange_append exchange rest)

/-- One more entry `e` in the pool changes the verdicts by one exchange: some entry `f`, which is
`e` or had the verdict `k`, has the verdict `d` instead, and `e` has the verdict `k`. -/
theorem verdicts_exchange {k : δ} {stages : List (Stage α δ)}
    (hk : ∀ s ∈ stages, s.TopVerdict k) (default : δ) {e : α} {pool pool' : List α}
    (h : Extra e pool pool') :
    ∃ f d, ((f, k) :: verdicts stages default pool').Perm
      ((e, k) :: (f, d) :: verdicts stages default pool) := by
  rcases outcome hk h with ⟨f, d, same, exchange⟩ | ⟨f, extra, exchange⟩
  · exact ⟨f, d, by simpa [verdicts, same] using exchange.append_right _⟩
  · refine ⟨f, default, ?_⟩
    have rest := extra.perm.map fun a => (a, default)
    calc ((f, k) :: verdicts stages default pool').Perm
          ((e, k) :: settled stages pool ++ (passed stages pool').map fun a => (a, default)) :=
          exchange.append_right _
      _ |>.Perm ((e, k) :: settled stages pool ++
            (f :: passed stages pool).map fun a => (a, default)) := rest.append_left _
      _ |>.Perm ((e, k) :: (f, default) :: verdicts stages default pool) :=
          List.perm_middle.cons (e, k)

/-- With distinct entries, at most one entry of the pool has another verdict beside an extra
entry, and only a verdict `k` gives way. -/
theorem verdicts_disturbed {k : δ} {stages : List (Stage α δ)}
    (hk : ∀ s ∈ stages, s.TopVerdict k) (default : δ) {e : α} {pool pool' : List α}
    (h : Extra e pool pool') (distinct : pool'.Nodup) :
    ∃ f, ∀ a ∈ pool, ∀ d d', (a, d) ∈ verdicts stages default pool →
      (a, d') ∈ verdicts stages default pool' → d ≠ d' → a = f ∧ d = k := by
  obtain ⟨f, c, exchange⟩ := verdicts_exchange hk default h
  refine ⟨f, ?_⟩
  intro a ha d d' hd hd' hne
  have fresh : e ∉ pool := (List.nodup_cons.mp (h.perm.nodup_iff.mp distinct)).1
  have hae : a ≠ e := fun he => fresh (he ▸ ha)
  have unique : ∀ {b : δ}, (a, b) ∈ verdicts stages default pool' → b = d' := by
    intro b hb
    have nodup : ((verdicts stages default pool').map Prod.fst).Nodup :=
      (verdicts_perm stages default pool').nodup_iff.mpr distinct
    exact congrArg Prod.snd (List.inj_on_of_nodup_map nodup hb hd' rfl)
  have moved : (a, d) ∈ (f, k) :: verdicts stages default pool' :=
    exchange.symm.subset (List.mem_cons_of_mem _ (List.mem_cons_of_mem _ hd))
  rcases List.mem_cons.mp moved with same | stayed
  · exact ⟨congrArg Prod.fst same, congrArg Prod.snd same⟩
  · exact absurd (unique stayed) hne

end Sieve

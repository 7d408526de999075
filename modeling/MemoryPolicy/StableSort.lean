import Mathlib.Data.List.Pairwise
import Mathlib.Data.List.Sort
import Mathlib.Order.Compare

/-! Stable sorting by a comparator, for any total preorder given as a three-way comparison.
`sortBy` is the only permutation of its input that is sorted and keeps tied entries in order, so
its laws hold for every stable sorting algorithm: it commutes with maps, filters and sublists. -/

namespace StableSort

variable {α β : Type*}

abbrev AtOrBefore (cmp : α → α → Ordering) (a b : α) : Prop := (cmp a b).isLE = true

/-- The list sorted by the comparator `cmp`, tied entries in their input order. -/
def sortBy (cmp : α → α → Ordering) (xs : List α) : List α :=
  xs.insertionSort (AtOrBefore cmp)

@[simp] theorem sortBy_nil (cmp : α → α → Ordering) : sortBy cmp [] = [] := rfl

theorem sortBy_cons (cmp : α → α → Ordering) (a : α) (xs : List α) :
    sortBy cmp (a :: xs) = (sortBy cmp xs).orderedInsert (AtOrBefore cmp) a := rfl

theorem sortBy_perm (cmp : α → α → Ordering) (xs : List α) : (sortBy cmp xs).Perm xs :=
  List.perm_insertionSort _ xs

theorem sortBy_map (cmp : β → β → Ordering) (f : α → β) (xs : List α) :
    sortBy cmp (xs.map f) = (sortBy (fun a b => cmp (f a) (f b)) xs).map f :=
  (List.map_insertionSort (AtOrBefore fun a b => cmp (f a) (f b)) (AtOrBefore cmp) f xs
    fun _ _ _ _ => Iff.rfl).symm

theorem sortBy_of_pairwise {cmp : α → α → Ordering} {xs : List α}
    (h : xs.Pairwise (AtOrBefore cmp)) : sortBy cmp xs = xs :=
  h.insertionSort_eq

theorem orderedInsert_of_forall {cmp : α → α → Ordering} {a : α} {xs : List α}
    (h : ∀ b ∈ xs, AtOrBefore cmp a b) : xs.orderedInsert (AtOrBefore cmp) a = a :: xs := by
  cases xs with
  | nil => rfl
  | cons b xs => exact List.orderedInsert_cons_of_le _ _ (h b (by simp))

theorem sortBy_append_of_forall {cmp : α → α → Ordering} {xs ys : List α}
    (sorted : xs.Pairwise (AtOrBefore cmp)) (before : ∀ a ∈ xs, ∀ b ∈ ys, AtOrBefore cmp a b) :
    sortBy cmp (xs ++ ys) = xs ++ sortBy cmp ys := by
  induction xs with
  | nil => rfl
  | cons a xs ih =>
    obtain ⟨first, sorted⟩ := List.pairwise_cons.mp sorted
    rw [List.cons_append, sortBy_cons, ih sorted fun b hb => before b (by simp [hb])]
    apply orderedInsert_of_forall
    intro b hb
    rcases List.mem_append.mp hb with hb | hb
    · exact first b hb
    · exact before a (by simp) b ((sortBy_perm cmp ys).subset hb)

theorem orderedInsert_congr {cmp cmp' : α → α → Ordering} {a : α} {xs : List α}
    (h : ∀ b ∈ xs, cmp a b = cmp' a b) :
    xs.orderedInsert (AtOrBefore cmp) a = xs.orderedInsert (AtOrBefore cmp') a := by
  induction xs with
  | nil => rfl
  | cons b xs ih =>
    simp only [List.orderedInsert, AtOrBefore, h b (by simp)]
    rw [ih fun c hc => h c (by simp [hc])]

/-- Comparators that agree on the entries sort them alike. -/
theorem sortBy_congr {cmp cmp' : α → α → Ordering} {xs : List α}
    (h : ∀ a ∈ xs, ∀ b ∈ xs, cmp a b = cmp' a b) : sortBy cmp xs = sortBy cmp' xs := by
  induction xs with
  | nil => rfl
  | cons a xs ih =>
    rw [sortBy_cons, sortBy_cons, ← ih fun b hb c hc => h b (by simp [hb]) c (by simp [hc])]
    apply orderedInsert_congr
    intro b hb
    exact h a (by simp) b (by simp [(sortBy_perm cmp xs).subset hb])

/-- No two entries are tied. -/
def Untied (cmp : α → α → Ordering) (xs : List α) : Prop := xs.Pairwise fun a b => cmp a b ≠ .eq

theorem Untied.sublist {cmp : α → α → Ordering} {xs ys : List α} (h : Untied cmp ys)
    (sub : xs.Sublist ys) : Untied cmp xs :=
  List.Pairwise.sublist sub h

/-- In a strictly ordered list, one entry comes before another as they are ordered. -/
theorem pair_sublist_iff {R : α → α → Prop} (asymm : ∀ a b, R a b → ¬ R b a) {xs : List α}
    (sorted : xs.Pairwise R) {a b : α} (ha : a ∈ xs) (hb : b ∈ xs) :
    [a, b].Sublist xs ↔ R a b := by
  refine ⟨fun h => sorted.forall_sublist h, fun h => ?_⟩
  obtain ⟨front, back, rfl⟩ := List.append_of_mem ha
  rw [List.pairwise_append, List.pairwise_cons] at sorted
  rcases List.mem_append.mp hb with hb | hb
  · exact absurd h (asymm b a (sorted.2.2 b hb a (by simp)))
  · rcases List.mem_cons.mp hb with rfl | hb
    · exact absurd h (asymm b b h)
    · apply List.Sublist.trans _ (List.sublist_append_right front _)
      exact (List.singleton_sublist.mpr hb).cons_cons a

section TotalPreorder

variable (cmp : α → α → Ordering) [Std.TransCmp cmp]

instance : IsTrans α (AtOrBefore cmp) := ⟨fun _ _ _ => Std.TransCmp.isLE_trans⟩

instance : Std.Total (AtOrBefore cmp) where
  total a b := by
    rw [AtOrBefore, AtOrBefore, ← Std.OrientedCmp.isGE_eq_isLE (a := a) (b := b)]
    cases cmp a b <;> simp

theorem sortBy_pairwise (xs : List α) : (sortBy cmp xs).Pairwise (AtOrBefore cmp) :=
  List.pairwise_insertionSort _ xs

variable {cmp}

/-- Sorting keeps sublists: entries that are in both lists are in the same order in both sorts. -/
theorem sortBy_sublist {xs ys : List α} (h : xs.Sublist ys) :
    (sortBy cmp xs).Sublist (sortBy cmp ys) := by
  induction h with
  | slnil => exact List.Sublist.refl _
  | cons a _ ih => exact ih.trans (List.sublist_orderedInsert _ _)
  | cons_cons a _ ih => exact ih.orderedInsert_sublist a (sortBy_pairwise cmp _)

theorem filter_orderedInsert (p : α → Bool) (a : α) {xs : List α}
    (h : xs.Pairwise (AtOrBefore cmp)) :
    (xs.orderedInsert (AtOrBefore cmp) a).filter p =
      if p a then (xs.filter p).orderedInsert (AtOrBefore cmp) a else xs.filter p := by
  induction xs with
  | nil => by_cases ha : p a <;> simp [ha]
  | cons b xs ih =>
    obtain ⟨hb, hxs⟩ := List.pairwise_cons.mp h
    by_cases hab : AtOrBefore cmp a b
    · have front : ∀ c ∈ (b :: xs).filter p, AtOrBefore cmp a c := by
        intro c hc
        rcases List.mem_cons.mp (List.mem_filter.mp hc).1 with rfl | hc
        · exact hab
        · exact Std.TransCmp.isLE_trans hab (hb c hc)
      rw [List.orderedInsert_cons_of_le _ _ hab, List.filter_cons, orderedInsert_of_forall front]
    · rw [List.orderedInsert_of_not_le _ _ hab, List.filter_cons, List.filter_cons, ih hxs]
      by_cases ha : p a <;> by_cases hpb : p b <;> simp [ha, hpb, hab]

theorem sortBy_filter (p : α → Bool) (xs : List α) :
    (sortBy cmp xs).filter p = sortBy cmp (xs.filter p) := by
  induction xs with
  | nil => rfl
  | cons a xs ih =>
    rw [sortBy_cons, filter_orderedInsert p a (sortBy_pairwise cmp xs), ih, List.filter_cons]
    split <;> rfl

theorem atOrBefore_refl (a : α) : AtOrBefore cmp a a := by
  rw [AtOrBefore, show cmp a a = .eq from Std.ReflCmp.compare_self]
  rfl

def ties (cmp : α → α → Ordering) (a : α) (xs : List α) : List α :=
  xs.filter fun b => cmp a b == .eq

theorem mem_ties_self {a : α} {xs : List α} : a ∈ ties cmp a xs ↔ a ∈ xs := by
  simp [ties, Std.ReflCmp.compare_self]

/-- Tied entries keep their input order. -/
theorem ties_sortBy (a : α) (xs : List α) : ties cmp a (sortBy cmp xs) = ties cmp a xs := by
  rw [ties, sortBy_filter]
  apply sortBy_of_pairwise
  apply List.pairwise_of_forall_mem_list
  intro b hb c hc
  have hab : cmp a b = .eq := by simpa using (List.mem_filter.mp hb).2
  have hac : cmp a c = .eq := by simpa using (List.mem_filter.mp hc).2
  rw [AtOrBefore, Std.TransCmp.eq_trans (Std.OrientedCmp.eq_symm hab) hac]
  rfl

theorem head_atOrBefore {x y : α} {xs : List α} (sorted : (x :: xs).Pairwise (AtOrBefore cmp))
    (h : y ∈ x :: xs) : AtOrBefore cmp x y := by
  rcases List.mem_cons.mp h with rfl | h
  · exact atOrBefore_refl y
  · exact (List.pairwise_cons.mp sorted).1 y h

theorem mem_iff_of_ties {xs ys : List α} (h : ∀ a, ties cmp a xs = ties cmp a ys) (a : α) :
    a ∈ xs ↔ a ∈ ys :=
  calc a ∈ xs ↔ a ∈ ties cmp a xs := mem_ties_self.symm
    _ ↔ a ∈ ties cmp a ys := by rw [h]
    _ ↔ a ∈ ys := mem_ties_self

theorem eq_of_ties {xs ys : List α} (hx : xs.Pairwise (AtOrBefore cmp))
    (hy : ys.Pairwise (AtOrBefore cmp)) (h : ∀ a, ties cmp a xs = ties cmp a ys) : xs = ys := by
  have mem_iff := mem_iff_of_ties h
  induction xs generalizing ys with
  | nil => exact (List.eq_nil_iff_forall_not_mem.mpr fun a => by simp [← mem_iff]).symm
  | cons x xs ih =>
    cases ys with
    | nil => exact absurd ((mem_iff x).mp (by simp)) (by simp)
    | cons y ys =>
      have tied : cmp x y = .eq := Std.OrientedCmp.isLE_antisymm
        (head_atOrBefore hx ((mem_iff y).mpr (by simp)))
        (head_atOrBefore hy ((mem_iff x).mp (by simp)))
      obtain rfl : x = y := by
        have heads := h x
        simp only [ties, List.filter_cons, tied, Std.ReflCmp.compare_self, beq_self_eq_true,
          if_true] at heads
        exact (List.cons.inj heads).1
      have tails : ∀ a, ties cmp a xs = ties cmp a ys := fun a => by
        have := h a
        simp only [ties, List.filter_cons] at this ⊢
        split at this
        · exact (List.cons.inj this).2
        · exact this
      rw [ih hx.of_cons hy.of_cons tails (mem_iff_of_ties tails)]

/-- Every stable sort of `xs` is `sortBy cmp xs`. -/
theorem eq_sortBy_of_stable {xs ys : List α} (sorted : ys.Pairwise (AtOrBefore cmp))
    (stable : ∀ a, ties cmp a ys = ties cmp a xs) : ys = sortBy cmp xs :=
  eq_of_ties sorted (sortBy_pairwise cmp xs) fun a => (stable a).trans (ties_sortBy a xs).symm

theorem untied_symm {a b : α} (h : cmp a b ≠ .eq) : cmp b a ≠ .eq :=
  fun he => h (Std.OrientedCmp.eq_symm he)

instance symm_untied : Std.Symm fun a b : α => cmp a b ≠ .eq := ⟨fun _ _ => untied_symm⟩

theorem Untied.perm {xs ys : List α} (h : Untied cmp xs) (perm : xs.Perm ys) : Untied cmp ys :=
  (perm.pairwise_iff untied_symm).mp h

/-- Without ties, the order of the input does not matter. -/
theorem sortBy_eq_of_perm {xs ys : List α} (untied : Untied cmp xs) (perm : xs.Perm ys) :
    sortBy cmp xs = sortBy cmp ys := by
  have sorts := ((sortBy_perm cmp xs).trans perm).trans (sortBy_perm cmp ys).symm
  refine sorts.eq_of_pairwise ?_ (sortBy_pairwise cmp xs) (sortBy_pairwise cmp ys)
  intro a b ha hb hab hba
  have ha : a ∈ xs := (sortBy_perm cmp xs).subset ha
  have hb : b ∈ xs := perm.symm.subset ((sortBy_perm cmp ys).subset hb)
  by_contra hne
  exact List.Pairwise.forall untied ha hb hne (Std.OrientedCmp.isLE_antisymm hab hba)

/-- Without ties, the sorted list is strictly ordered. -/
theorem sortBy_strict {xs : List α} (untied : Untied cmp xs) :
    (sortBy cmp xs).Pairwise fun a b => cmp a b = .lt := by
  have apart : Untied cmp (sortBy cmp xs) := untied.perm (sortBy_perm cmp xs).symm
  refine ((sortBy_pairwise cmp xs).and apart).imp ?_
  rintro a b ⟨before, different⟩
  exact (Ordering.isLE_iff_eq_lt_or_eq_eq.mp before).resolve_right different

theorem pair_sublist_sortBy_iff {xs : List α} (untied : Untied cmp xs) {a b : α} (ha : a ∈ xs)
    (hb : b ∈ xs) : [a, b].Sublist (sortBy cmp xs) ↔ cmp a b = .lt := by
  apply pair_sublist_iff _ (sortBy_strict untied) ((sortBy_perm cmp xs).mem_iff.mpr ha)
    ((sortBy_perm cmp xs).mem_iff.mpr hb)
  intro a b before after
  rw [Std.OrientedCmp.gt_of_lt before] at after
  exact absurd after (by decide)

end TotalPreorder

/-! ### Two sorts in turn -/

section Twice

variable {cmp next : α → α → Ordering}

theorem ties_compareLex (a : α) (xs : List α) :
    ties (compareLex next cmp) a xs = ties cmp a (ties next a xs) := by
  rw [ties, ties, ties, List.filter_filter]
  apply List.filter_congr
  intro b _
  rw [compareLex]
  cases next a b <;> cases cmp a b <;> rfl

variable [Std.TransCmp cmp] [Std.TransCmp next]

/-- A stable sort of a sorted list sorts by both comparators, the later one first. -/
theorem sortBy_sortBy (xs : List α) :
    sortBy next (sortBy cmp xs) = sortBy (compareLex next cmp) xs := by
  apply eq_sortBy_of_stable
  · rw [List.pairwise_iff_forall_sublist]
    intro a b sub
    have outer : AtOrBefore next a b := (sortBy_pairwise next _).forall_sublist sub
    rw [AtOrBefore, compareLex]
    cases h : next a b with
    | lt => rfl
    | gt => simp [AtOrBefore, h] at outer
    | eq =>
      have tied := sub.filter fun c => next a c == .eq
      rw [List.filter_eq_self.mpr (by simp [h, Std.ReflCmp.compare_self]), ← ties, ties_sortBy]
        at tied
      exact (sortBy_pairwise cmp xs).forall_sublist (tied.trans List.filter_sublist)
  · intro a
    calc ties (compareLex next cmp) a (sortBy next (sortBy cmp xs))
        = ties cmp a (ties next a (sortBy cmp xs)) := by rw [ties_compareLex, ties_sortBy]
      _ = ties next a (ties cmp a (sortBy cmp xs)) := List.filter_comm ..
      _ = ties next a (ties cmp a xs) := by rw [ties_sortBy]
      _ = ties (compareLex next cmp) a xs := by rw [ties_compareLex]; exact List.filter_comm ..

end Twice

end StableSort

import Mathlib.Data.List.Induction
import Mathlib.Data.List.Nodup

/-! First occurrences.  `eraseDups` lists the elements of a list in the order in which they are
first seen; it can be kept up element by element, from the front of the list to its end. -/

namespace FirstSeen

variable {α : Type*} [DecidableEq α]

theorem eraseDups_concat (xs : List α) (x : α) :
    (xs ++ [x]).eraseDups = if x ∈ xs then xs.eraseDups else xs.eraseDups ++ [x] := by
  rw [List.eraseDups_append]
  by_cases h : x ∈ xs <;> simp [List.removeAll, List.eraseDups_cons, h]

theorem eraseDups_concat_of_mem {xs : List α} {x : α} (h : x ∈ xs) :
    (xs ++ [x]).eraseDups = xs.eraseDups := by
  rw [eraseDups_concat, if_pos h]

theorem eraseDups_concat_of_not_mem {xs : List α} {x : α} (h : x ∉ xs) :
    (xs ++ [x]).eraseDups = xs.eraseDups ++ [x] := by
  rw [eraseDups_concat, if_neg h]

theorem nodup_eraseDups (xs : List α) : xs.eraseDups.Nodup := by
  induction xs using List.reverseRecOn with
  | nil => exact List.nodup_nil
  | append_singleton xs x ih =>
    by_cases h : x ∈ xs
    · rwa [eraseDups_concat_of_mem h]
    · rw [eraseDups_concat_of_not_mem h, ← List.concat_eq_append]
      exact ih.concat fun hx => h (List.mem_eraseDups.mp hx)

theorem pairwise_idxOf {xs : List α} (nodup : xs.Nodup) :
    xs.Pairwise fun a b => xs.idxOf a < xs.idxOf b := by
  rw [List.pairwise_iff_getElem]
  intro i j hi hj before
  rwa [nodup.idxOf_getElem i hi, nodup.idxOf_getElem j hj]

/-- Distinct elements in another order, in which each element still comes before those that it came
before, are in the same order. -/
theorem eq_of_perm_of_pairs {xs ys : List α} (perm : xs.Perm ys) (nodup : ys.Nodup)
    (pairs : ∀ a ∈ ys, ∀ b ∈ ys, ys.idxOf a < ys.idxOf b → [a, b].Sublist xs) : xs = ys := by
  have once : xs.Nodup := perm.nodup_iff.mpr nodup
  have ordered : xs.Pairwise fun a b => ys.idxOf a < ys.idxOf b := by
    refine (pairwise_idxOf once).imp_of_mem ?_
    intro a b ha hb earlier
    have ha := perm.subset ha
    have hb := perm.subset hb
    rcases Nat.lt_trichotomy (ys.idxOf a) (ys.idxOf b) with before | same | after
    · exact before
    · obtain rfl := (List.idxOf_inj ha).mp same
      exact absurd earlier (Nat.lt_irrefl _)
    · have later := (pairwise_idxOf once).forall_sublist (pairs b hb a ha after)
      exact absurd earlier (Nat.lt_asymm later)
  exact perm.eq_of_pairwise (fun a b _ _ h h' => absurd h (Nat.lt_asymm h')) ordered
    (pairwise_idxOf nodup)

/-- First occurrences keep their order. -/
theorem pairwise_idxOf_eraseDups (xs : List α) :
    xs.eraseDups.Pairwise fun a b => xs.idxOf a < xs.idxOf b := by
  induction xs using List.reverseRecOn with
  | nil => exact List.Pairwise.nil
  | append_singleton xs x ih =>
    have kept : xs.eraseDups.Pairwise fun a b =>
        (xs ++ [x]).idxOf a < (xs ++ [x]).idxOf b := by
      apply ih.imp_of_mem
      intro a b ha hb before
      rwa [List.idxOf_append_of_mem (List.mem_eraseDups.mp ha),
        List.idxOf_append_of_mem (List.mem_eraseDups.mp hb)]
    by_cases h : x ∈ xs
    · rwa [eraseDups_concat_of_mem h]
    · rw [eraseDups_concat_of_not_mem h, List.pairwise_append]
      refine ⟨kept, List.pairwise_singleton _ _, ?_⟩
      intro a ha b hb
      obtain rfl := List.mem_singleton.mp hb
      have ha := List.mem_eraseDups.mp ha
      rw [List.idxOf_append_of_mem ha, List.idxOf_append_of_notMem h]
      exact Nat.lt_of_lt_of_le (List.idxOf_lt_length_of_mem ha) (Nat.le_add_right _ _)

theorem idxOf_lt_of_idxOf_eraseDups_lt {xs : List α} {a b : α} (hb : b ∈ xs)
    (h : xs.eraseDups.idxOf a < xs.eraseDups.idxOf b) : xs.idxOf a < xs.idxOf b := by
  have placeB : xs.eraseDups.idxOf b < xs.eraseDups.length :=
    List.idxOf_lt_length_of_mem (List.mem_eraseDups.mpr hb)
  have placeA : xs.eraseDups.idxOf a < xs.eraseDups.length := Nat.lt_trans h placeB
  have ordered := List.pairwise_iff_getElem.mp (pairwise_idxOf_eraseDups xs) _ _ placeA placeB h
  rwa [List.getElem_idxOf, List.getElem_idxOf] at ordered

theorem idxOf_eraseDups_lt_iff {xs : List α} {a b : α} (ha : a ∈ xs) (hb : b ∈ xs) :
    xs.eraseDups.idxOf a < xs.eraseDups.idxOf b ↔ xs.idxOf a < xs.idxOf b := by
  refine ⟨idxOf_lt_of_idxOf_eraseDups_lt hb, fun h => ?_⟩
  rcases Nat.lt_trichotomy (xs.eraseDups.idxOf a) (xs.eraseDups.idxOf b) with before | same | after
  · exact before
  · obtain rfl := (List.idxOf_inj (List.mem_eraseDups.mpr ha)).mp same
    exact absurd h (Nat.lt_irrefl _)
  · exact absurd (idxOf_lt_of_idxOf_eraseDups_lt ha after) (Nat.lt_asymm h)

/-- Among distinct elements, numbering is looking up the place. -/
theorem zipIdx_eq_map_idxOf {xs : List α} (nodup : xs.Nodup) :
    xs.zipIdx = xs.map fun x => (x, xs.idxOf x) := by
  apply List.ext_getElem (by simp)
  intro i hi hi'
  have h : i < xs.length := by simpa using hi
  simp [nodup.idxOf_getElem i h]

theorem modify_map_idxOf {β : Type*} {xs : List α} (nodup : xs.Nodup) (f : α → β) (g : β → β)
    (a : α) :
    (xs.map f).modify (xs.idxOf a) g = xs.map fun x => if x = a then g (f x) else f x := by
  apply List.ext_getElem (by simp)
  intro i hi hi'
  have h : i < xs.length := by simpa using hi'
  rw [List.getElem_modify, List.getElem_map, List.getElem_map]
  have place : xs.idxOf a = i ↔ xs[i] = a := by
    constructor
    · rintro rfl
      exact List.getElem_idxOf h
    · rintro rfl
      exact nodup.idxOf_getElem i h
  simp only [place]

end FirstSeen

import Mathlib.Tactic.Common

/-! Lookups in ordered maps that are built from another map, by a filter on the keys or by a loop
over the entries. -/

namespace TreeMap

open Std

variable {α β γ : Type*} {cmp : α → α → Ordering} [TransCmp cmp] [LawfulEqCmp cmp]

theorem getElem?_filter_key (p : α → Bool) (t : ExtTreeMap α β cmp) (k : α) :
    (t.filter fun k _ => p k)[k]? = if p k then t[k]? else none := by
  rw [ExtTreeMap.getElem?_filter']
  cases p k <;> cases t[k]? <;> rfl

variable [BEq α] [LawfulBEqCmp cmp]

/-- A loop that inserts a value for each entry maps the values. -/
theorem getElem?_foldl_insert (f : α → β → γ) (t : ExtTreeMap α β cmp) (k : α) :
    (t.foldl (fun u k v => u.insert k (f k v)) (∅ : ExtTreeMap α γ cmp))[k]? = t[k]?.map (f k) := by
  have loop : t.foldl (fun u k v => u.insert k (f k v)) (∅ : ExtTreeMap α γ cmp) =
      ExtTreeMap.ofList (t.toList.map fun e => (e.1, f e.1 e.2)) cmp := by
    rw [ExtTreeMap.foldl_eq_foldl_toList, ExtTreeMap.ofList_eq_foldl, List.foldl_map]
  rw [loop]
  cases h : t[k]? with
  | some v =>
    have mem : (k, v) ∈ t.toList := ExtTreeMap.mem_toList_iff_getElem?_eq_some.mpr h
    refine ExtTreeMap.getElem?_ofList_of_mem ReflCmp.compare_self ?_ (List.mem_map_of_mem mem)
    exact List.pairwise_map.mpr ExtTreeMap.distinct_keys_toList
  | none =>
    refine ExtTreeMap.getElem?_ofList_of_contains_eq_false ?_
    have absent : k ∉ t := by
      rwa [ExtTreeMap.mem_iff_isSome_getElem?, Option.not_isSome_iff_eq_none]
    rw [List.map_map, Function.comp_def, ExtTreeMap.map_fst_toList_eq_keys,
      ExtTreeMap.contains_keys]
    exact Bool.eq_false_iff.mpr absent

end TreeMap

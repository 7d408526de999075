import MemoryPolicy.Sieve.Guard
import MemoryPolicy.Sieve.Shrink

/-! Entries without the verdict `k` of the ranks take nobody's place.  A pool that is pruned of such
entries has the other verdicts of the whole pool, in the same order. -/

namespace Sieve

open StableSort

variable {α δ : Type*} {k : δ}

/-! ### Pruning -/

namespace Stage

theorem take_filter {p : α → Bool} {count : Nat} {xs : List α}
    (chosen : ∀ a ∈ xs.take count, p a = true) : (xs.filter p).take count = xs.take count := by
  conv_lhs => rw [← List.take_append_drop count xs]
  rw [List.filter_append, List.filter_eq_self.mpr chosen]
  by_cases full : count ≤ xs.length
  · exact List.take_left' (List.length_take_of_le full)
  · rw [List.drop_eq_nil_of_le (by omega), List.filter_nil, List.append_nil, List.take_take,
      Nat.min_self]

theorem drop_filter {p : α → Bool} {count : Nat} {xs : List α}
    (chosen : ∀ a ∈ xs.take count, p a = true) :
    (xs.filter p).drop count = (xs.drop count).filter p := by
  conv_lhs => rw [← List.take_append_drop count xs]
  rw [List.filter_append, List.filter_eq_self.mpr chosen]
  by_cases full : count ≤ xs.length
  · exact List.drop_left' (List.length_take_of_le full)
  · rw [List.drop_eq_nil_of_le (show xs.length ≤ count by omega), List.filter_nil,
      List.append_nil, List.drop_take, Nat.sub_self, List.take_zero]

variable {s : Stage α δ} {pool : List α} {p : α → Bool}

theorem settled_filter (hk : s.TopVerdict k) (chosen : ∀ a, (a, k) ∈ s.settled pool → p a = true) :
    s.settled (pool.filter p) = (s.settled pool).filter fun v => p v.1 := by
  cases s with
  | each verdict => exact (settled_each_filter p verdict pool).symm
  | top ranking count d =>
    have := ranking.trans
    obtain rfl : d = k := hk
    have first : ∀ a ∈ (sortBy ranking.cmp pool).take count, p a = true :=
      fun a ha => chosen a (mem_settled_top.mpr ⟨ha, rfl⟩)
    rw [settled, settled, ← sortBy_filter, take_filter first, List.filter_map, eq_comm]
    exact congrArg _ (List.filter_eq_self.mpr first)

theorem passed_filter (hk : s.TopVerdict k) (chosen : ∀ a, (a, k) ∈ s.settled pool → p a = true) :
    s.passed (pool.filter p) = (s.passed pool).filter p := by
  cases s with
  | each verdict => exact (passed_each_filter p verdict pool).symm
  | top ranking count d =>
    have := ranking.trans
    obtain rfl : d = k := hk
    rw [passed, passed, ← sortBy_filter]
    exact drop_filter fun a ha => chosen a (mem_settled_top.mpr ⟨ha, rfl⟩)

end Stage

/-- A sieve gives the entries of a pruned pool the verdicts that they have in the whole pool, where
only entries without the verdict `k` are pruned. -/
theorem verdicts_filter {stages : List (Stage α δ)} (hk : ∀ s ∈ stages, s.TopVerdict k)
    {default : δ} {pool : List α} {p : α → Bool}
    (chosen : ∀ a, (a, k) ∈ verdicts stages default pool → p a = true) :
    verdicts stages default (pool.filter p) =
      (verdicts stages default pool).filter fun v => p v.1 := by
  induction stages generalizing pool with
  | nil =>
    rw [verdicts, verdicts, settled, passed, passed, List.nil_append, settled, List.nil_append,
      List.filter_map]
    rfl
  | cons s stages ih =>
    have here : ∀ a, (a, k) ∈ s.settled pool → p a = true :=
      fun a ha => chosen a (mem_verdicts_cons.mpr (.inl ha))
    have later := ih (fun t ht => hk t (by simp [ht]))
      fun a ha => chosen a (mem_verdicts_cons.mpr (.inr ha))
    rw [verdicts_cons, verdicts_cons, Stage.settled_filter (hk s (by simp)) here,
      Stage.passed_filter (hk s (by simp)) here, later, List.filter_append]

end Sieve

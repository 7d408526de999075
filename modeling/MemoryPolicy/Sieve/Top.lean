import MemoryPolicy.Sieve.Basic
import Mathlib.Data.List.Nodup

/-! What a `top` stage settles, stated by the ranking alone.  The chosen entries are as many as the
count allows, no entry that is passed on ranks before a chosen one, and the order of the pool
decides among tied entries. -/

namespace Sieve

open StableSort

variable {α : Type*}

/-- The pool is split into its first `count` entries, by rank and then by place in the pool, and
the others.  Here `rank` puts low entries first. -/
structure KeepsTop (rank : α → α → Ordering) (count : Nat) (pool chosen passed : List α) :
    Prop where
  perm : (chosen ++ passed).Perm pool
  length : chosen.length = min count pool.length
  above : ∀ a ∈ chosen, ∀ b ∈ passed, (rank b a).isLE = true
  earlier : ∀ a, ties rank a chosen ++ ties rank a passed = ties rank a pool
  descending : chosen.Pairwise fun a b => (rank b a).isLE = true

theorem ties_congr {cmp cmp' : α → α → Ordering}
    (h : ∀ a b, cmp a b = .eq ↔ cmp' a b = .eq) (a : α) (xs : List α) :
    ties cmp a xs = ties cmp' a xs := by
  apply List.filter_congr
  intro b _
  rw [Bool.eq_iff_iff, beq_iff_eq, beq_iff_eq]
  exact h a b

/-- A split of a stably sorted pool keeps the top. -/
theorem keepsTop_sortBy (r : Ranking α) (count : Nat) (pool : List α) :
    KeepsTop (fun a b => r.cmp b a) count pool ((sortBy r.cmp pool).take count)
      ((sortBy r.cmp pool).drop count) := by
  have := r.trans
  have sorted : ((sortBy r.cmp pool).take count ++ (sortBy r.cmp pool).drop count).Pairwise
      (AtOrBefore r.cmp) := by
    rw [List.take_append_drop]
    exact sortBy_pairwise r.cmp pool
  obtain ⟨front, -, across⟩ := List.pairwise_append.mp sorted
  refine ⟨?_, ?_, across, ?_, front⟩
  · rw [List.take_append_drop]
    exact sortBy_perm r.cmp pool
  · rw [List.length_take, (sortBy_perm r.cmp pool).length_eq]
  · intro a
    have same : ∀ xs, ties (fun a b => r.cmp b a) a xs = ties r.cmp a xs :=
      ties_congr (fun a b => Std.OrientedCmp.eq_comm) a
    rw [same, same, same, ties, ties, ← List.filter_append, List.take_append_drop]
    exact ties_sortBy a pool

theorem not_pair_sublist {l : List α} (nodup : l.Nodup) {a b : α} (h : [a, b].Sublist l) :
    ¬ [b, a].Sublist l := by
  classical
  have places : l.Pairwise fun x y => l.idxOf x < l.idxOf y := by
    rw [List.pairwise_iff_getElem]
    intro i j hi hj hij
    rwa [nodup.idxOf_getElem, nodup.idxOf_getElem]
  intro h'
  exact Nat.lt_asymm (places.forall_sublist h) (places.forall_sublist h')

/-- No entry is chosen before one that is earlier in the pool and ranks at least as high. -/
theorem KeepsTop.not_overtaken {rank : α → α → Ordering} [Std.TransCmp rank] {count : Nat}
    {pool chosen passed : List α} (h : KeepsTop rank count pool chosen passed)
    (nodup : pool.Nodup) {a b : α} (earlier : [a, b].Sublist pool)
    (higher : (rank b a).isLE = true) : ¬ (b ∈ chosen ∧ a ∈ passed) := by
  rintro ⟨hb, ha⟩
  have tied : rank a b = .eq := Std.OrientedCmp.isLE_antisymm (h.above b hb a ha) higher
  have front : b ∈ ties rank a chosen := List.mem_filter.mpr ⟨hb, by simp [tied]⟩
  have back : a ∈ ties rank a passed := mem_ties_self.mpr ha
  have later : [b, a].Sublist (ties rank a pool) := by
    rw [← h.earlier a]
    exact (List.singleton_sublist.mpr front).append (List.singleton_sublist.mpr back)
  exact not_pair_sublist nodup earlier (later.trans List.filter_sublist)

/-- An entry of the front of the pool is passed on after one of the back is chosen only if it ranks
strictly below. -/
theorem KeepsTop.displaced {rank : α → α → Ordering} [Std.TransCmp rank] {count : Nat}
    {front back chosen passed : List α} (h : KeepsTop rank count (front ++ back) chosen passed)
    {p : α → Prop} (hfront : ∀ a ∈ front, p a) (hback : ∀ a ∈ back, ¬ p a) {a b : α}
    (ha : a ∈ passed) (pa : p a) (hb : b ∈ chosen) (pb : ¬ p b) : rank a b = .lt := by
  have below : (rank a b).isLE = true := h.above b hb a ha
  by_contra higher
  have tied : rank a b = .eq := by
    rw [Ordering.isLE_iff_eq_lt_or_eq_eq] at below
    exact below.resolve_left higher
  have first : b ∈ ties rank a chosen := List.mem_filter.mpr ⟨hb, by simp [tied]⟩
  have last : a ∈ ties rank a passed := mem_ties_self.mpr ha
  have split := h.earlier a
  rw [ties, ties, ties, List.filter_append] at split
  rcases List.append_eq_append_iff.mp split with ⟨rest, old, -⟩ | ⟨rest, -, new⟩
  · have mem : b ∈ front.filter (rank a · == .eq) := by
      rw [old]
      exact List.mem_append_left _ first
    exact pb (hfront b (List.mem_filter.mp mem).1)
  · have mem : a ∈ back.filter (rank a · == .eq) := by
      rw [new]
      exact List.mem_append_right _ last
    exact hback a (List.mem_filter.mp mem).1 pa

end Sieve

import MemoryPolicy.Sieve.Basic
import Mathlib.Algebra.GroupWithZero.Nat

/-! The verdicts of a sieve on a pool against its verdict on each entry alone.  An `each` stage
treats an entry of a pool as it treats the entry alone; a `top` stage settles at most `count`
entries that would have gone on. -/

namespace Sieve

variable {α δ : Type*}

/-- The verdict of the stages on an entry alone: that of the first stage that has one. -/
def single : List (Stage α δ) → α → Option δ
  | [], _ => none
  | s :: stages, a => (s.single a).or (single stages a)

def quota (stages : List (Stage α δ)) : Nat := (stages.map Stage.quota).sum

namespace Stage

theorem mem_settled_each {verdict : α → Option δ} {pool : List α} {a : α} {d : δ} :
    (a, d) ∈ (Stage.each verdict).settled pool ↔ a ∈ pool ∧ verdict a = some d := by
  simp only [settled, List.mem_filterMap, Option.map_eq_some_iff, Prod.mk.injEq]
  constructor
  · rintro ⟨b, hb, e, he, rfl, rfl⟩
    exact ⟨hb, he⟩
  · rintro ⟨ha, hd⟩
    exact ⟨a, ha, d, hd, rfl, rfl⟩

theorem mem_passed_each {verdict : α → Option δ} {pool : List α} {a : α} :
    a ∈ (Stage.each verdict).passed pool ↔ a ∈ pool ∧ verdict a = none := by
  simp [passed]

theorem single_of_mem_passed {s : Stage α δ} {pool : List α} {a : α} (h : a ∈ s.passed pool) :
    s.single a = none := by
  cases s with
  | each verdict => exact (mem_passed_each.mp h).2
  | top ranking count d => rfl

end Stage

theorem single_of_mem_passed {stages : List (Stage α δ)} {pool : List α} {a : α}
    (h : a ∈ passed stages pool) : single stages a = none := by
  induction stages generalizing pool with
  | nil => rfl
  | cons s stages ih =>
    have here : s.single a = none := Stage.single_of_mem_passed (mem_of_mem_passed h)
    rw [single, here, ih h, Option.or_none]

theorem mem_settled {k : δ} {stages : List (Stage α δ)} (hk : ∀ s ∈ stages, s.TopVerdict k)
    {pool : List α} {a : α} {d : δ} (h : (a, d) ∈ settled stages pool) :
    d = k ∨ single stages a = some d := by
  induction stages generalizing pool with
  | nil => simp [settled] at h
  | cons s stages ih =>
    rcases List.mem_append.mp h with h | h
    · cases s with
      | each verdict => exact .inr (by simp [single, Stage.single, (Stage.mem_settled_each.mp h).2])
      | top ranking count e =>
        simp only [Stage.settled, List.mem_map, Prod.mk.injEq] at h
        obtain ⟨_, _, -, rfl⟩ := h
        exact .inl (hk (.top ranking count e) (by simp))
    · apply (ih (fun t ht => hk t (by simp [ht])) h).imp_right
      intro hs
      rw [single, Stage.single_of_mem_passed (mem_of_mem_settled h), Option.none_or, hs]

/-- An entry's verdict in a pool is its verdict alone, or the verdict `k` of a rank. -/
theorem mem_verdicts {k : δ} {stages : List (Stage α δ)} (hk : ∀ s ∈ stages, s.TopVerdict k)
    {default : δ} {pool : List α} {a : α} {d : δ} (h : (a, d) ∈ verdicts stages default pool) :
    d = k ∨ d = (single stages a).getD default := by
  rcases List.mem_append.mp h with h | h
  · exact (mem_settled hk h).imp_right fun hs => by rw [hs, Option.getD_some]
  · obtain ⟨b, hb, he⟩ := List.mem_map.mp h
    cases he
    exact .inr (by rw [single_of_mem_passed hb, Option.getD_none])

theorem countP_settled_le [DecidableEq δ] (stages : List (Stage α δ)) (pool : List α) :
    (settled stages pool).countP (fun p => single stages p.1 ≠ some p.2) ≤ quota stages := by
  induction stages generalizing pool with
  | nil => simp [settled]
  | cons s stages ih =>
    have head : (s.settled pool).countP (fun p => single (s :: stages) p.1 ≠ some p.2) ≤
        s.quota := by
      cases s with
      | each verdict =>
        apply le_of_eq
        apply List.countP_eq_zero.mpr
        rintro ⟨a, d⟩ h
        simp [single, Stage.single, (Stage.mem_settled_each.mp h).2]
      | top ranking count d =>
        apply List.countP_le_length.trans
        simp [Stage.settled, Stage.quota]
    have tail : (settled stages (s.passed pool)).countP
          (fun p => single (s :: stages) p.1 ≠ some p.2) =
        (settled stages (s.passed pool)).countP (fun p => single stages p.1 ≠ some p.2) := by
      apply List.countP_congr
      intro p hp
      rw [single, Stage.single_of_mem_passed (mem_of_mem_settled hp), Option.none_or]
    rw [settled, List.countP_append, tail]
    exact (Nat.add_le_add head (ih _)).trans_eq (by simp [quota])

/-- At most `quota stages` entries of a pool have a verdict other than their verdict alone. -/
theorem countP_verdicts_le [DecidableEq δ] (stages : List (Stage α δ)) (default : δ)
    (pool : List α) :
    (verdicts stages default pool).countP (fun p => p.2 ≠ (single stages p.1).getD default) ≤
      quota stages := by
  have rest : ((passed stages pool).map fun a => (a, default)).countP
      (fun p => p.2 ≠ (single stages p.1).getD default) = 0 := by
    apply List.countP_eq_zero.mpr
    intro p hp
    obtain ⟨a, ha, rfl⟩ := List.mem_map.mp hp
    simp [single_of_mem_passed ha]
  rw [verdicts, List.countP_append, rest, Nat.add_zero]
  refine (List.countP_mono_left fun p _ hp => ?_).trans (countP_settled_le stages pool)
  simp only [ne_eq, decide_eq_true_eq] at hp ⊢
  intro h
  exact hp (by rw [h, Option.getD_some])

theorem verdicts_eq_single [DecidableEq δ] {stages : List (Stage α δ)} (h : quota stages = 0)
    {default : δ} {pool : List α} {p : α × δ} (hp : p ∈ verdicts stages default pool) :
    p.2 = (single stages p.1).getD default := by
  have none := Nat.le_zero.mp (h ▸ countP_verdicts_le stages default pool)
  simpa using List.countP_eq_zero.mp none p hp

end Sieve

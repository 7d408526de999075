import MemoryPolicy.Retention.Salience
import Mathlib.Algebra.Order.Field.Rat
import Mathlib.Algebra.Order.Floor.Semiring
import Mathlib.Data.Rat.Floor
import Mathlib.Tactic.Linarith
import Mathlib.Tactic.NormNum

/-! Exact scores.  Rationals satisfy what dominance needs of the floating-point operations; powers
are taken at whole exponents, so they are those of the machine where ages are multiples of the
half-life. -/

namespace MemoryPolicy

instance : F64Ops ℚ where
  half := 1 / 2
  ofU64 n := n.toNat
  div x y := x / y
  mul x y := x * y
  powf x y := x ^ ⌊y⌋₊
  totalCmp x y := compare x y
  totalCmp_trans := inferInstanceAs <| Std.TransCmp (compare : ℚ → ℚ → Ordering)
  totalCmp_eq _ _ h := compare_eq_iff_eq.mp h

instance : F32Ops ℚ ℚ where
  one := 1
  toF64 x := x

theorem atMost_rat {x y : ℚ} : AtMost x y ↔ x ≤ y := by
  rw [AtMost, Ordering.isLE_iff_ne_gt]
  exact compare_le_iff_le

theorem inUnit_rat {x : ℚ} : InUnit ℚ 0 x ↔ 0 ≤ x ∧ x ≤ 1 := by
  rw [InUnit, atMost_rat, atMost_rat]
  rfl

open RetentionCandidate in
theorem decay_rat (age halfLifeMs : UInt64) :
    (decay age halfLifeMs : ℚ) = (1 / 2) ^ ⌊(age.toNat : ℚ) / halfLifeMs.toNat⌋₊ := rfl

open RetentionCandidate in
theorem salienceLaws_rat : SalienceLaws ℚ (0 : ℚ) where
  decay_unit age halfLifeMs _ := by
    rw [inUnit_rat, decay_rat]
    exact ⟨by positivity, pow_le_one₀ (by norm_num) (by norm_num)⟩
  decay_antitone age age' halfLifeMs _ h := by
    rw [atMost_rat, decay_rat, decay_rat]
    apply pow_le_pow_of_le_one (by norm_num) (by norm_num)
    apply Nat.floor_le_floor
    have := UInt64.le_iff_toNat_le.mp h
    gcongr
  mul_mono x x' y y' hx hx' hy hy' hxx hyy := by
    rw [inUnit_rat] at hx hx' hy hy'
    rw [atMost_rat] at hxx hyy ⊢
    exact mul_le_mul hxx hyy hy.1 hx'.1
  mul_le x y hx hy := by
    rw [inUnit_rat] at hx hy
    rw [atMost_rat]
    exact mul_le_of_le_one_right hx.1 hy.2

/-- The newer of two equally important candidates, one and three half-lives old. -/
theorem RetentionPolicy.keepTopBySalience_dominance_newer :
    let candidate (writtenAtUnixMs : UInt64) : RetentionCandidate ℚ :=
      { metadata := ⟨1, .demotedMessage, "thread", "user", "key", none⟩
        writtenAtUnixMs := some writtenAtUnixMs
        importance := some 1 }
    let result := (RetentionRule.keepTopBySalience 1 1000 4000).applyBatch Prod.fst {}
      [(candidate 3000, 0), (candidate 1000, 1)]
    ¬ ((candidate 1000, 1) ∈ result.1.keep ∧ (candidate 3000, 0) ∈ result.2) := by
  intro candidate result
  have unit : ∀ c ∈ [candidate 3000, candidate 1000], InUnit ℚ 0 c.weight := by
    intro c hc
    rw [inUnit_rat]
    rcases List.mem_pair.mp hc with rfl | rfl <;> exact ⟨zero_le_one, le_refl _⟩
  have reach : applyRules Prod.fst [.dropLabel "stale"] {} [candidate 3000, candidate 1000].zipIdx =
      ({}, [(candidate 3000, 0), (candidate 1000, 1)]) := rfl
  exact keepTopBySalience_dominance salienceLaws_rat [.dropLabel "stale"] 1 1000 4000 unit reach rfl
    Nat.zero_lt_one rfl rfl ⟨AtMost.refl _, .inr (.inr ⟨3000, 1000, rfl, rfl, by decide⟩)⟩

end MemoryPolicy

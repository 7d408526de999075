import Mathlib.Algebra.Order.Group.Multiset
import Mathlib.Algebra.Order.Ring.Int
import Mathlib.Data.Multiset.UnionInter

/-! The balance of a property over a multiset: the number of elements that have it, less the number
of those that lack it.  It is positive when more than half of the elements have the property, and
two multisets have balances no further apart than the number of elements in which they differ. -/

namespace Balance

variable {α : Type*} (p : α → Prop) [DecidablePred p]

def balance (s : Multiset α) : Int := s.countP p - s.countP fun a => ¬ p a

@[simp] theorem balance_zero : balance p 0 = 0 := by
  simp [balance]

theorem balance_add (s t : Multiset α) : balance p (s + t) = balance p s + balance p t := by
  simp only [balance, Multiset.countP_add, Nat.cast_add]
  omega

theorem balance_cons (a : α) (s : Multiset α) :
    balance p (a ::ₘ s) = balance p s + if p a then 1 else -1 := by
  by_cases h : p a
  · simp only [balance, Multiset.countP_cons, h, not_true, if_true, if_false]
    omega
  · simp only [balance, Multiset.countP_cons, h, not_false_iff, if_true, if_false]
    omega

theorem balance_nsmul (n : Nat) (s : Multiset α) : balance p (n • s) = n * balance p s := by
  simp only [balance, Multiset.countP_nsmul, Nat.cast_mul, mul_sub]

theorem balance_bounds (s : Multiset α) :
    -(s.card : Int) ≤ balance p s ∧ balance p s ≤ s.card := by
  have total := s.card_eq_countP_add_countP p
  rw [balance]
  omega

theorem balance_pos_iff (s : Multiset α) : 0 < balance p s ↔ s.card < 2 * s.countP p := by
  have total := s.card_eq_countP_add_countP p
  rw [balance]
  omega

/-- Repeating all elements equally often does not change on which side the majority is. -/
theorem balance_nsmul_pos_iff {n : Nat} (positive : 0 < n) (s : Multiset α) :
    0 < balance p (n • s) ↔ 0 < balance p s := by
  rw [balance_nsmul]
  exact mul_pos_iff_of_pos_left (Int.natCast_pos.mpr positive)

variable [DecidableEq α]

/-- The number of elements in which two multisets differ, with multiplicities. -/
def differences (s t : Multiset α) : Nat := (s - t + (t - s)).card

/-- One multiset arises from the other by exchanging the elements in which they differ. -/
theorem balance_exchange (s t : Multiset α) :
    balance p s + balance p (t - s) = balance p t + balance p (s - t) := by
  have exchange : s + (t - s) = t + (s - t) := by
    rw [add_comm s, add_comm t, ← Multiset.union_def, ← Multiset.union_def, Multiset.union_comm]
  rw [← balance_add, ← balance_add, exchange]

theorem balance_near (s t : Multiset α) :
    balance p s - differences s t ≤ balance p t ∧
      balance p t ≤ balance p s + differences s t := by
  have exchange := balance_exchange p s t
  have lost := balance_bounds p (s - t)
  have gained := balance_bounds p (t - s)
  rw [differences, Multiset.card_add]
  omega

end Balance

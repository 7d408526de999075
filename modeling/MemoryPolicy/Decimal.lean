import Mathlib.Data.Nat.Basic

/-! Reading decimal numbers below a bound: an optional plus sign, then one or more ASCII digits.
The value is accumulated with a check after each digit; as it never decreases, the checks accept
exactly the numbers below the bound. -/

namespace Decimal

def digitValue (c : Char) : Option Nat :=
  if c.isDigit then some (c.toNat - '0'.toNat) else none

def checkedMul (bound a b : Nat) : Option Nat := if a * b < bound then some (a * b) else none

def checkedAdd (bound a b : Nat) : Option Nat := if a + b < bound then some (a + b) else none

def readDigits (bound : Nat) : List Char → Nat → Option Nat
  | [], acc => some acc
  | c :: cs, acc => do
    let digit ← digitValue c
    let shifted ← checkedMul bound acc 10
    let next ← checkedAdd bound shifted digit
    readDigits bound cs next

/-- The number that the characters denote, if they denote one below the bound. -/
def read (bound : Nat) : List Char → Option Nat
  | [] => none
  | ['+'] => none
  | '+' :: digits => readDigits bound digits 0
  | digits => readDigits bound digits 0

/-- The characters denote `n`: an optional plus sign and one or more digits of value `n`. -/
structure Denotes (digits : List Char) (n : Nat) : Prop where
  nonempty : digits ≠ []
  digit : ∀ c ∈ digits, c.isDigit = true
  value : Nat.ofDigitChars 10 digits 0 = n

theorem readDigits_cons (bound : Nat) (c : Char) (cs : List Char) (acc : Nat) :
    readDigits bound (c :: cs) acc =
      if c.isDigit = true ∧ 10 * acc + (c.toNat - '0'.toNat) < bound then
        readDigits bound cs (10 * acc + (c.toNat - '0'.toNat))
      else none := by
  by_cases hd : c.isDigit = true
  · have value : digitValue c = some (c.toNat - '0'.toNat) := if_pos hd
    generalize c.toNat - '0'.toNat = digit at value ⊢
    simp only [readDigits, value, hd, true_and, Option.bind_eq_bind, Option.bind_some, checkedMul,
      checkedAdd, Nat.mul_comm 10 acc]
    by_cases hm : acc * 10 < bound
    · by_cases ha : acc * 10 + digit < bound <;> simp [hm, ha]
    · simp [hm, show ¬ acc * 10 + digit < bound by omega]
  · simp [readDigits, digitValue, hd]

theorem le_ofDigitChars (cs : List Char) (acc : Nat) : acc ≤ Nat.ofDigitChars 10 cs acc := by
  rw [Nat.ofDigitChars_eq_ofDigitChars_zero]
  have := Nat.le_mul_of_pos_left acc (Nat.pow_pos (n := cs.length) (show 0 < 10 by decide))
  omega

theorem readDigits_eq_some {bound : Nat} {cs : List Char} {acc n : Nat} (h : acc < bound) :
    readDigits bound cs acc = some n ↔
      (∀ c ∈ cs, c.isDigit = true) ∧ Nat.ofDigitChars 10 cs acc = n ∧ n < bound := by
  induction cs generalizing acc with
  | nil =>
    simp only [readDigits, Option.some.injEq, List.not_mem_nil, false_implies, implies_true,
      Nat.ofDigitChars_nil, true_and]
    exact ⟨fun same => ⟨same, same ▸ h⟩, And.left⟩
  | cons c cs ih =>
    rw [readDigits_cons, Nat.ofDigitChars_cons, List.forall_mem_cons]
    have grows := le_ofDigitChars cs (10 * acc + (c.toNat - '0'.toNat))
    split
    · rename_i ok
      rw [ih ok.2]
      constructor
      · rintro ⟨digits, value⟩
        exact ⟨⟨ok.1, digits⟩, value⟩
      · rintro ⟨⟨-, digits⟩, value⟩
        exact ⟨digits, value⟩
    · rename_i bad
      refine ⟨nofun, fun ⟨⟨digit, _⟩, value, below⟩ => absurd ⟨digit, ?_⟩ bad⟩
      omega

/-- The characters read are an optional plus sign and digits of a value below the bound. -/
theorem read_eq_some {bound : Nat} (pos : 0 < bound) {cs : List Char} {n : Nat} :
    read bound cs = some n ↔
      ∃ digits, (cs = digits ∨ cs = '+' :: digits) ∧ Denotes digits n ∧ n < bound := by
  have reads : ∀ digits ≠ [], readDigits bound digits 0 = some n ↔
      Denotes digits n ∧ n < bound := by
    intro digits nonempty
    rw [readDigits_eq_some pos]
    constructor
    · rintro ⟨digit, value, below⟩
      exact ⟨⟨nonempty, digit, value⟩, below⟩
    · rintro ⟨⟨-, digit, value⟩, below⟩
      exact ⟨digit, value, below⟩
  unfold read
  split
  · refine ⟨nofun, fun ⟨digits, shape, denotes, _⟩ => absurd ?_ denotes.nonempty⟩
    simpa using shape.symm
  · refine ⟨nofun, ?_⟩
    rintro ⟨digits, shape, denotes, -⟩
    rcases shape with rfl | shape
    · exact absurd (denotes.digit '+' (by simp)) (by decide)
    · exact absurd (by simpa using shape.symm) denotes.nonempty
  · rename_i digits nonempty
    rw [reads digits fun empty => nonempty (by rw [empty])]
    refine ⟨fun h => ⟨digits, .inr rfl, h⟩, ?_⟩
    rintro ⟨digits', shape, denotes, below⟩
    rcases shape with rfl | shape
    · exact absurd (denotes.digit '+' (by simp)) (by decide)
    · exact (List.cons.inj shape).2 ▸ ⟨denotes, below⟩
  · rename_i nonempty _ unsigned
    rw [reads cs nonempty]
    refine ⟨fun h => ⟨cs, .inl rfl, h⟩, ?_⟩
    rintro ⟨digits, shape, h⟩
    rcases shape with rfl | shape
    · exact h
    · exact absurd shape (unsigned digits)

theorem read_repr {bound n : Nat} (h : n < bound) : read bound n.repr.toList = some n := by
  refine (read_eq_some (by omega)).mpr ⟨n.repr.toList, .inl rfl, ⟨?_, ?_, ?_⟩, h⟩
  · rw [Nat.toList_repr]
    exact Nat.toDigits_ne_nil
  · rw [Nat.toList_repr]
    intro c hc
    exact Nat.isDigit_of_mem_toDigits (by decide) (by decide) hc
  · rw [Nat.toList_repr, Nat.ofDigitChars_ten_toDigits]

end Decimal

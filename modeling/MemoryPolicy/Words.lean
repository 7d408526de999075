import Mathlib.Data.Finset.Card
import Mathlib.Data.Fintype.Card
import Mathlib.Data.List.FinRange

/-! The bits of machine words: testing one, setting those with a property, counting those in which
two words differ. -/

namespace Words

def bit (x : UInt64) (i : Fin 64) : Bool := x.toNat.testBit i

/-- The number of ones in the binary form of the word. -/
def countOnes (x : UInt64) : UInt32 := .ofNat (Finset.univ.filter fun i => bit x i).card

theorem toNat_bitIndex (i : Fin 64) : (UInt64.ofNat i).toNat % 64 = i := by
  rw [UInt64.toNat_ofNat', Nat.mod_mod_of_dvd _ (by decide), Nat.mod_eq_of_lt i.isLt]

theorem shiftRight_and_one_iff (x : UInt64) (i : Fin 64) :
    (x >>> UInt64.ofNat i) &&& 1 = 1 ↔ bit x i = true := by
  rw [← UInt64.toNat_inj, UInt64.toNat_and, UInt64.toNat_shiftRight, toNat_bitIndex, bit,
    UInt64.toNat_one, Nat.testBit, bne_iff_ne, Nat.and_comm 1, Nat.and_one_is_mod]
  omega

theorem bit_one_shiftLeft (i j : Fin 64) :
    bit ((1 : UInt64) <<< UInt64.ofNat i) j = decide (i = j) := by
  have below : 2 ^ i.val < 2 ^ 64 := Nat.pow_lt_pow_right (by decide) i.isLt
  rw [bit, UInt64.toNat_shiftLeft, toNat_bitIndex, UInt64.toNat_one, Nat.one_shiftLeft,
    Nat.mod_eq_of_lt below, Nat.testBit_two_pow, decide_eq_decide, Fin.ext_iff]

theorem bit_or (x y : UInt64) (i : Fin 64) : bit (x ||| y) i = (bit x i || bit y i) := by
  rw [bit, UInt64.toNat_or, Nat.testBit_or]
  rfl

theorem bit_xor (x y : UInt64) (i : Fin 64) : bit (x ^^^ y) i = (bit x i ^^ bit y i) := by
  rw [bit, UInt64.toNat_xor, Nat.testBit_xor]
  rfl

@[simp] theorem bit_zero (i : Fin 64) : bit 0 i = false := by
  simp [bit]

theorem eq_of_bits {x y : UInt64} (h : ∀ i, bit x i = bit y i) : x = y := by
  rw [← UInt64.toNat_inj]
  apply Nat.eq_of_testBit_eq
  intro i
  by_cases hi : i < 64
  · exact h ⟨i, hi⟩
  · have wide : 2 ^ 64 ≤ 2 ^ i := Nat.pow_le_pow_right (by decide) (Nat.le_of_not_lt hi)
    rw [Nat.testBit_lt_two_pow (x.toNat_lt.trans_le wide),
      Nat.testBit_lt_two_pow (y.toNat_lt.trans_le wide)]

/-- Setting the bits with a property one after the other. -/
theorem bit_foldl_set (p : Fin 64 → Prop) [DecidablePred p] (is : List (Fin 64)) (x : UInt64)
    (j : Fin 64) :
    bit (is.foldl (fun x i => if p i then x ||| (1 : UInt64) <<< UInt64.ofNat i else x) x) j =
      (bit x j || decide (j ∈ is ∧ p j)) := by
  induction is generalizing x with
  | nil => simp
  | cons i is ih =>
    rw [List.foldl_cons, ih]
    by_cases hp : p i
    · rw [if_pos hp, bit_or, bit_one_shiftLeft]
      by_cases hij : i = j
      · simp [← hij, hp]
      · simp [hij, Ne.symm hij]
    · rw [if_neg hp]
      by_cases hij : i = j
      · simp [← hij, hp]
      · simp [Ne.symm hij]

theorem toNat_countOnes (x : UInt64) :
    (countOnes x).toNat = (Finset.univ.filter fun i => bit x i).card := by
  apply UInt32.toNat_ofNat_of_lt'
  apply Nat.lt_of_le_of_lt (Finset.card_filter_le _ _)
  rw [Finset.card_fin]
  decide

/-- Words differ in at most as many bits as there are bits outside a set on which they agree. -/
theorem countOnes_xor_le {x y : UInt64} {p : Fin 64 → Prop} [DecidablePred p]
    (agree : ∀ i, ¬ p i → bit x i = bit y i) :
    (countOnes (x ^^^ y)).toNat ≤ (Finset.univ.filter p).card := by
  rw [toNat_countOnes]
  apply Finset.card_le_card
  intro i hi
  rw [Finset.mem_filter, bit_xor] at hi
  rw [Finset.mem_filter]
  refine ⟨Finset.mem_univ i, ?_⟩
  by_contra outside
  rw [agree i outside, Bool.xor_self] at hi
  exact absurd hi.2 Bool.false_ne_true

/-- The number of bits in which two words differ. -/
def distance (x y : UInt64) : Nat := (Finset.univ.filter fun i => bit x i ≠ bit y i).card

theorem toNat_countOnes_xor (x y : UInt64) : (countOnes (x ^^^ y)).toNat = distance x y := by
  rw [toNat_countOnes, distance]
  congr 1
  apply Finset.filter_congr
  intro i _
  rw [bit_xor]
  cases bit x i <;> cases bit y i <;> simp

/-- A word that agrees with one of two others in each bit is between them. -/
theorem distance_add_of_between {x y z : UInt64}
    (between : ∀ i, bit z i = bit x i ∨ bit z i = bit y i) :
    distance x z + distance z y = distance x y := by
  rw [distance, distance, distance, ← Finset.card_union_of_disjoint]
  · congr 1
    rw [← Finset.filter_or]
    apply Finset.filter_congr
    intro i _
    rcases between i with same | same
    · simp [same]
    · simp [same]
  · rw [Finset.disjoint_filter]
    intro i _ differs differs'
    rcases between i with same | same
    · exact differs same.symm
    · exact differs' same

end Words

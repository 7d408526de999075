import MemoryPolicy.Dedup.SimHash
import MemoryPolicy.InMemory.Exact

/-! How far a fingerprint moves when a text changes by a few tokens: a bit can only flip where the
counter is no further from zero than the number of tokens in which the texts differ. -/

namespace MemoryPolicy.SimHash

open Balance Bytes Text Words

section Text

variable [Unicode]

/-- The number of token occurrences in which two texts differ. -/
def tokenDifferences (a b : String) : Nat :=
  differences (tokens a : Multiset String) (tokens b : Multiset String)

/-- The counters that the exchange of `m` tokens can take across the threshold. -/
def Close (m : Nat) (column : Int) : Prop := -(m : Int) < column ∧ column ≤ m

instance (m : Nat) (column : Int) : Decidable (Close m column) :=
  inferInstanceAs (Decidable (_ ∧ _))

theorem bit_eq_of_not_close (tokenHash : List UInt8 → UInt64) {a b : String}
    (shortA : (tokens a).length < 2 ^ 31) (shortB : (tokens b).length < 2 ^ 31) {i : Fin 64}
    (far : ¬ Close (tokenDifferences a b) (column tokenHash a i)) :
    bit (fromTextBy tokenHash a).bits i = bit (fromTextBy tokenHash b).bits i := by
  have near : column tokenHash a i - tokenDifferences a b ≤ column tokenHash b i ∧
      column tokenHash b i ≤ column tokenHash a i + tokenDifferences a b :=
    balance_near _ _ _
  rw [Bool.eq_iff_iff, bit_fromTextBy tokenHash shortA, bit_fromTextBy tokenHash shortB]
  rw [Close] at far
  omega

theorem hammingDistance_le (tokenHash : List UInt8 → UInt64) {a b : String}
    (shortA : (tokens a).length < 2 ^ 31) (shortB : (tokens b).length < 2 ^ 31) :
    ((fromTextBy tokenHash a).hammingDistance (fromTextBy tokenHash b)).toNat ≤
      (Finset.univ.filter fun i =>
        Close (tokenDifferences a b) (column tokenHash a i)).card := by
  rw [hammingDistance]
  apply countOnes_xor_le
  intro i far
  exact bit_eq_of_not_close tokenHash shortA shortB far

/-- With the digest of the source, texts are near if few counters of the first are close to zero. -/
theorem isNear_fromText (blake3 : List UInt8 → DedupKey) {a b : String}
    (shortA : (tokens a).length < 2 ^ 31) (shortB : (tokens b).length < 2 ^ 31) {d : UInt32}
    (allowed : (Finset.univ.filter fun i => Close (tokenDifferences a b)
      (column (fun bytes => fromLeBytes (tokenHash8 blake3 bytes)) a i)).card ≤ d.toNat) :
    (fromText blake3 a).isNear (fromText blake3 b) d = true := by
  rw [isNear, decide_eq_true_eq, UInt32.le_iff_toNat_le]
  exact (hammingDistance_le _ shortA shortB).trans allowed

/-- Texts that differ in `m` tokens have fingerprints that agree wherever the counter of the first
is above `m` or at most `-m`, and are near for every distance that allows for the other bits. -/
theorem simHash_perturbation (tokenHash : List UInt8 → UInt64) {a b : String}
    (shortA : (tokens a).length < 2 ^ 31) (shortB : (tokens b).length < 2 ^ 31) :
    let m := tokenDifferences a b
    let flips := (Finset.univ.filter fun i =>
      -(m : Int) < column tokenHash a i ∧ column tokenHash a i ≤ m).card
    (∀ i, (m : Int) < column tokenHash a i ∨ column tokenHash a i ≤ -(m : Int) →
      bit (fromTextBy tokenHash a).bits i = bit (fromTextBy tokenHash b).bits i) ∧
    ((fromTextBy tokenHash a).hammingDistance (fromTextBy tokenHash b)).toNat ≤ flips ∧
    ∀ d : UInt32, flips ≤ d.toNat →
      (fromTextBy tokenHash a).isNear (fromTextBy tokenHash b) d = true := by
  intro m flips
  have distance := hammingDistance_le tokenHash shortA shortB
  refine ⟨?_, distance, ?_⟩
  · intro i far
    apply bit_eq_of_not_close tokenHash shortA shortB
    rw [Close]
    omega
  · intro d allowed
    rw [isNear, decide_eq_true_eq, UInt32.le_iff_toNat_le]
    exact distance.trans allowed

end Text

/-- A text that loses its only token, with the length of a token as its hash. -/
theorem simHash_perturbation_emptied :
    ((@fromTextBy asciiTables (fun bytes => .ofNat bytes.length) "fish").hammingDistance
      (@fromTextBy asciiTables (fun bytes => .ofNat bytes.length) "...")).toNat ≤ 1 := by
  let _ : Unicode := asciiTables
  have one : tokens "fish" = ["fish"] := by decide
  have none : tokens "..." = [] := by decide
  have bound := (simHash_perturbation (fun bytes => .ofNat bytes.length) (a := "fish") (b := "...")
    (by rw [one]; decide) (by rw [none]; decide)).2.1
  refine bound.trans ?_
  simp only [column, tokenDifferences, one, none]
  decide

end MemoryPolicy.SimHash

import MemoryPolicy.Dedup.SimHash
import MemoryPolicy.InMemory.Exact

/-! The fingerprint of a joined text.  Its tokens are those of the two parts, so each of its
counters is the sum of theirs, and its fingerprint is between theirs. -/

namespace MemoryPolicy.SimHash

open Balance Bytes Text Words

section Text

variable [Unicode] {a b text : String}

theorem tokens_of_joined (h : Joined a b text) : tokens text = tokens a ++ tokens b := by
  rw [tokens, splitWhitespace_of_joined h, List.map_append, List.filter_append, List.map_append]
  rfl

variable (tokenHash : List UInt8 → UInt64)

theorem column_of_joined (h : Joined a b text) (i : Fin 64) :
    column tokenHash text i = column tokenHash a i + column tokenHash b i := by
  rw [column, tokens_of_joined h, ← Multiset.coe_add, balance_add]
  rfl

/-- In each bit the fingerprint agrees with that of a part. -/
theorem bit_of_joined (h : Joined a b text) (short : (tokens text).length < 2 ^ 31) (i : Fin 64) :
    bit (fromTextBy tokenHash text).bits i = bit (fromTextBy tokenHash a).bits i ∨
      bit (fromTextBy tokenHash text).bits i = bit (fromTextBy tokenHash b).bits i := by
  have length : (tokens text).length = (tokens a).length + (tokens b).length := by
    rw [tokens_of_joined h, List.length_append]
  have sum := column_of_joined tokenHash h i
  have like : ∀ part, (tokens part).length < 2 ^ 31 →
      (bit (fromTextBy tokenHash text).bits i = bit (fromTextBy tokenHash part).bits i ↔
        (0 < column tokenHash text i ↔ 0 < column tokenHash part i)) := by
    intro part shortPart
    rw [Bool.eq_iff_iff, bit_fromTextBy tokenHash short, bit_fromTextBy tokenHash shortPart]
  rw [like a (by omega), like b (by omega)]
  omega

/-- The fingerprint of a joined text is between those of its parts: it agrees with them wherever
they agree, its distances from them add up to theirs from each other, and so it is near both when
they are near each other. -/
theorem simHash_joined (h : Joined a b text) (short : (tokens text).length < 2 ^ 31) :
    let whole := fromTextBy tokenHash text
    let partA := fromTextBy tokenHash a
    let partB := fromTextBy tokenHash b
    (∀ i, bit partA.bits i = bit partB.bits i → bit whole.bits i = bit partA.bits i) ∧
    (partA.hammingDistance whole).toNat + (whole.hammingDistance partB).toNat =
      (partA.hammingDistance partB).toNat ∧
    ∀ d, partA.isNear partB d = true →
      partA.isNear whole d = true ∧ whole.isNear partB d = true := by
  intro whole partA partB
  have between := bit_of_joined tokenHash h short
  have sum : (partA.hammingDistance whole).toNat + (whole.hammingDistance partB).toNat =
      (partA.hammingDistance partB).toNat := by
    simp only [hammingDistance, toNat_countOnes_xor]
    exact distance_add_of_between between
  refine ⟨?_, sum, ?_⟩
  · intro i agree
    rcases between i with same | same
    · exact same
    · exact same.trans agree.symm
  · intro d near
    simp only [isNear, decide_eq_true_eq, UInt32.le_iff_toNat_le] at near ⊢
    omega

end Text

/-- Two words, with the length of a token as its hash. -/
theorem simHash_joined_words :
    let _ : Unicode := asciiTables
    let hash := fun bytes : List UInt8 => UInt64.ofNat bytes.length
    ((fromTextBy hash "fish").hammingDistance (fromTextBy hash "fish birds")).toNat +
        ((fromTextBy hash "fish birds").hammingDistance (fromTextBy hash "birds")).toNat =
      ((fromTextBy hash "fish").hammingDistance (fromTextBy hash "birds")).toNat := by
  intro tables hash
  have joined : Joined "fish" "birds" "fish birds" := ⟨[' '], by simp, by simp [isWhitespace], rfl⟩
  have short : (tokens "fish birds").length < 2 ^ 31 := by decide
  exact (simHash_joined hash joined short).2.1

end MemoryPolicy.SimHash

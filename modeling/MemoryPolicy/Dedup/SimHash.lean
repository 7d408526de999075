import MemoryPolicy.Balance
import MemoryPolicy.Dedup.Key
import MemoryPolicy.InMemory.Model
import MemoryPolicy.Words

/-! The near-duplicate fingerprint of `src/dedup.rs`.  The tokens of a text are hashed one after the
other; each hash moves one counter for each of its 64 bits up or down, and the fingerprint has the
bits whose counters end above zero. -/

namespace MemoryPolicy

open Balance Bytes Text Words

/-- `token_hash_8` -/
def tokenHash8 (blake3 : List UInt8 → DedupKey) (bytes : List UInt8) : Vector UInt8 8 :=
  let full := blake3 bytes
  .ofFn fun slot => full[slot]

def fromLeBytes (bytes : Vector UInt8 8) : UInt64 :=
  bytes.toList.foldr (fun byte rest => rest <<< 8 ||| byte.toUInt64) 0

structure SimHash where
  bits : UInt64
deriving DecidableEq

namespace SimHash

/-- The counters of `SimHash::from_text`, and whether a token has been hashed. -/
structure Counters where
  columns : Vector Int32 64 := .replicate 64 0
  any : Bool := false

namespace Counters

def addHash (self : Counters) (hash : UInt64) : Counters where
  columns := .ofFn fun bit =>
    if (hash >>> .ofNat bit) &&& 1 = 1 then self.columns[bit] + 1 else self.columns[bit] - 1
  any := true

def fingerprint (self : Counters) : SimHash :=
  if !self.any then ⟨0⟩
  else
    ⟨(List.finRange 64).foldl (fun (fingerprint : UInt64) (bit : Fin 64) =>
      if 0 < self.columns[bit] then fingerprint ||| (1 : UInt64) <<< .ofNat bit
      else fingerprint) 0⟩

end Counters

section Text

variable [Unicode]

/-- The body of the loop over the words of the text. -/
def addWord {m : Type → Type} [Monad m] (tokenHash : List UInt8 → m UInt64) (counters : Counters)
    (token : String) : m Counters := do
  let token := trimMatches (fun ch => !Unicode.isAlphanumeric ch) token
  if token = "" then return counters
  let lowered := Unicode.toLowercase token
  let hash ← tokenHash (utf8 lowered)
  return counters.addHash hash

/-- `SimHash::from_text`, with the hash of a token in any monad. -/
def fromTextM {m : Type → Type} [Monad m] (tokenHash : List UInt8 → m UInt64) (text : String) :
    m SimHash := do
  let counters ← (splitWhitespace text).foldlM (addWord tokenHash) {}
  return counters.fingerprint

def fromTextBy (tokenHash : List UInt8 → UInt64) (text : String) : SimHash :=
  Id.run (fromTextM (m := Id) (fun bytes => pure (tokenHash bytes)) text)

def fromText (blake3 : List UInt8 → DedupKey) (text : String) : SimHash :=
  fromTextBy (fun bytes => fromLeBytes (tokenHash8 blake3 bytes)) text

end Text

def hammingDistance (self other : SimHash) : UInt32 := countOnes (self.bits ^^^ other.bits)

def isNear (self other : SimHash) (maxDistance : UInt32) : Bool :=
  self.hammingDistance other ≤ maxDistance

/-! ### The hash of a token -/

theorem testBit_foldr (bytes : List UInt8) {i : Nat} (h : i < 64) :
    (bytes.foldr (fun byte (rest : UInt64) => rest <<< 8 ||| byte.toUInt64) 0).toNat.testBit i =
      (bytes[i / 8]?.getD 0).toNat.testBit (i % 8) := by
  induction bytes generalizing i with
  | nil => simp
  | cons byte bytes ih =>
    have small : byte.toNat < 2 ^ 8 := byte.toNat_lt
    rw [List.foldr_cons, UInt64.toNat_or, Nat.testBit_or, UInt64.toNat_shiftLeft,
      Nat.testBit_mod_two_pow, show (8 : UInt64).toNat % 64 = 8 from rfl, Nat.testBit_shiftLeft,
      UInt8.toNat_toUInt64]
    rcases Nat.lt_or_ge i 8 with low | high
    · have first : i / 8 = 0 := by omega
      have same : i % 8 = i := by omega
      have outside : ¬ 8 ≤ i := by omega
      simp [first, same, outside]
    · have later : i / 8 = (i - 8) / 8 + 1 := by omega
      have same : i % 8 = (i - 8) % 8 := by omega
      have none : byte.toNat.testBit i = false :=
        Nat.testBit_lt_two_pow (Nat.lt_of_lt_of_le small (Nat.pow_le_pow_right (by decide) high))
      rw [none, ih (by omega), later, same]
      simp [h, high]

theorem bit_fromLeBytes (bytes : Vector UInt8 8) (i : Fin 64) :
    bit (fromLeBytes bytes) i = bytes[i.val / 8].toNat.testBit (i % 8) := by
  have inside : i.val / 8 < 8 := by omega
  rw [bit, fromLeBytes, testBit_foldr _ i.isLt, Vector.getElem?_toList,
    Vector.getElem?_eq_getElem inside, Option.getD_some]

/-- The bits of a token hash are those of the first eight bytes of the digest. -/
theorem bit_tokenHash8 (blake3 : List UInt8 → DedupKey) (bytes : List UInt8) (i : Fin 64) :
    bit (fromLeBytes (tokenHash8 blake3 bytes)) i =
      (blake3 bytes)[i.val / 8].toNat.testBit (i % 8) := by
  rw [bit_fromLeBytes]
  simp [tokenHash8]

/-! ### The counters -/

theorem columns_addHash (counters : Counters) (hash : UInt64) (i : Fin 64) :
    (counters.addHash hash).columns[i] =
      counters.columns[i] + Int32.ofInt (if bit hash i then 1 else -1) := by
  have column : (counters.addHash hash).columns[i] =
      if bit hash i = true then counters.columns[i] + 1 else counters.columns[i] - 1 := by
    simp only [Counters.addHash, Fin.getElem_fin, Vector.getElem_ofFn, shiftRight_and_one_iff]
  rw [column]
  split
  · rfl
  · rw [Int32.sub_eq_add_neg]
    rfl

/-- A counter holds the balance of its bit over the hashes. -/
theorem columns_foldl {α : Type} (hash : α → UInt64) (i : Fin 64) (ts : List α)
    (counters : Counters) :
    ((ts.map hash).foldl Counters.addHash counters).columns[i] =
      counters.columns[i] + Int32.ofInt (balance (fun t => bit (hash t) i) (ts : Multiset α)) := by
  induction ts generalizing counters with
  | nil => simp
  | cons t ts ih =>
    rw [List.map_cons, List.foldl_cons, ih, columns_addHash, ← Multiset.cons_coe, balance_cons,
      Int32.ofInt_add, Int32.add_assoc, Int32.add_comm (Int32.ofInt (balance _ _))]

theorem any_foldl (hashes : List UInt64) (counters : Counters) :
    (hashes.foldl Counters.addHash counters).any = (counters.any || !hashes.isEmpty) := by
  induction hashes generalizing counters with
  | nil => simp
  | cons hash hashes ih =>
    rw [List.foldl_cons, ih]
    simp [Counters.addHash]

theorem bit_fingerprint (counters : Counters) (i : Fin 64) :
    bit counters.fingerprint.bits i = true ↔ counters.any = true ∧ 0 < counters.columns[i] := by
  rw [Counters.fingerprint]
  cases h : counters.any with
  | false => simp
  | true =>
    simp only [Bool.not_true, Bool.false_eq_true, if_false, true_and]
    rw [bit_foldl_set fun i => 0 < counters.columns[i]]
    simp

/-! ### The tokens of a text -/

variable [Unicode]

/-- The words of the text, trimmed and in lower case, without the empty ones. -/
def tokens (text : String) : List String :=
  (((splitWhitespace text).map (trimMatches fun ch => !Unicode.isAlphanumeric ch)).filter
    fun token => token ≠ "").map Unicode.toLowercase

theorem toFinset_tokens (text : String) : (tokens text).toFinset = normalizedTokens text := rfl

theorem foldlM_addWord {m : Type → Type} [Monad m] [LawfulMonad m]
    (tokenHash : List UInt8 → m UInt64) (words : List String) (counters : Counters) :
    words.foldlM (addWord tokenHash) counters = do
      let hashes ← (((words.map (trimMatches fun ch => !Unicode.isAlphanumeric ch)).filter
        fun token => token ≠ "").map Unicode.toLowercase).mapM fun token => tokenHash (utf8 token)
      return hashes.foldl Counters.addHash counters := by
  induction words generalizing counters with
  | nil => simp
  | cons word words ih =>
    rw [List.foldlM_cons, addWord, List.map_cons, List.filter_cons]
    by_cases h : trimMatches (fun ch => !Unicode.isAlphanumeric ch) word = ""
    · simp [h, ih]
    · simp [h, ih]

/-- The text is hashed token by token. -/
theorem fromTextM_eq {m : Type → Type} [Monad m] [LawfulMonad m]
    (tokenHash : List UInt8 → m UInt64) (text : String) :
    fromTextM tokenHash text = do
      let hashes ← (tokens text).mapM fun token => tokenHash (utf8 token)
      return (hashes.foldl Counters.addHash {}).fingerprint := by
  rw [fromTextM, foldlM_addWord, tokens]
  simp

theorem fromTextBy_eq (tokenHash : List UInt8 → UInt64) (text : String) :
    fromTextBy tokenHash text =
      (((tokens text).map fun token => tokenHash (utf8 token)).foldl Counters.addHash
        {}).fingerprint := by
  rw [fromTextBy, fromTextM_eq]
  simp

/-! ### The bits of a fingerprint -/

/-- How many tokens of the text have bit `i` set in their hash, less those that have it clear. -/
def column (tokenHash : List UInt8 → UInt64) (text : String) (i : Fin 64) : Int :=
  balance (fun token => bit (tokenHash (utf8 token)) i) (tokens text : Multiset String)

/-- The bits of a fingerprint are the signs of the balances; nothing overflows. -/
theorem bit_fromTextBy (tokenHash : List UInt8 → UInt64) {text : String}
    (short : (tokens text).length < 2 ^ 31) (i : Fin 64) :
    bit (fromTextBy tokenHash text).bits i = true ↔ 0 < column tokenHash text i := by
  have bounds := balance_bounds (fun token => bit (tokenHash (utf8 token)) i)
    (tokens text : Multiset String)
  rw [Multiset.coe_card] at bounds
  have value : (Int32.ofInt (column tokenHash text i)).toInt = column tokenHash text i := by
    apply Int32.toInt_ofInt_of_le
    · rw [column]
      omega
    · rw [column]
      omega
  rw [fromTextBy_eq, bit_fingerprint, any_foldl, columns_foldl]
  rw [show ({} : Counters).columns[i] = 0 by simp, Int32.zero_add, Int32.lt_iff_toInt_lt]
  rw [← column, value, Int32.toInt_zero]
  rw [and_iff_right_iff_imp]
  intro positive
  cases h : tokens text with
  | nil => simp [column, h] at positive
  | cons token tokens => rfl

end SimHash

end MemoryPolicy

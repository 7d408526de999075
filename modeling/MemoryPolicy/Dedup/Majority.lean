import MemoryPolicy.Dedup.SimHash
import MemoryPolicy.InMemory.Exact

/-! The fingerprint is the strict majority of the tokens, bit by bit, so it depends on a text only
through the proportions of its tokens.  Every token of the lexical store is hashed, and nothing
else is. -/

namespace MemoryPolicy.SimHash

open Balance Bytes Text Words

/-! ### What is hashed -/

/-- A token hash that keeps the bytes it is called on. -/
def recorder (tokenHash : List UInt8 → UInt64) (bytes : List UInt8) :
    StateM (List (List UInt8)) UInt64 := do
  modify (· ++ [bytes])
  return tokenHash bytes

theorem mapM_recorder (tokenHash : List UInt8 → UInt64) (ts : List String)
    (seen : List (List UInt8)) :
    (ts.mapM fun token => recorder tokenHash (utf8 token)).run seen =
      (ts.map fun token => tokenHash (utf8 token), seen ++ ts.map utf8) := by
  induction ts generalizing seen with
  | nil =>
    simp only [List.map_nil, List.append_nil]
    rfl
  | cons token ts ih =>
    have step : ((token :: ts).mapM fun token => recorder tokenHash (utf8 token)).run seen =
        let rest := (ts.mapM fun token => recorder tokenHash (utf8 token)).run
          (seen ++ [utf8 token])
        (tokenHash (utf8 token) :: rest.1, rest.2) := by
      rw [List.mapM_cons]
      rfl
    rw [step, ih]
    simp

section Text

variable [Unicode]

/-- The arguments of the calls of the token hash, in their order. -/
def hashed (tokenHash : List UInt8 → UInt64) (text : String) : List (List UInt8) :=
  ((fromTextM (recorder tokenHash) text).run []).2

theorem hashed_eq (tokenHash : List UInt8 → UInt64) (text : String) :
    hashed tokenHash text = (tokens text).map utf8 := by
  have run : (fromTextM (recorder tokenHash) text).run [] =
      let calls := ((tokens text).mapM fun token => recorder tokenHash (utf8 token)).run []
      ((calls.1.foldl Counters.addHash {}).fingerprint, calls.2) := by
    rw [fromTextM_eq]
    rfl
  rw [hashed, run, mapM_recorder]
  rfl

theorem mem_hashed {tokenHash : List UInt8 → UInt64} {text : String} {bytes : List UInt8} :
    bytes ∈ hashed tokenHash text ↔ ∃ token ∈ normalizedTokens text, utf8 token = bytes := by
  rw [hashed_eq, List.mem_map, ← toFinset_tokens]
  simp only [List.mem_toFinset]

/-! ### The majority -/

theorem bit_iff_majority (tokenHash : List UInt8 → UInt64) {text : String}
    (short : (tokens text).length < 2 ^ 31) (i : Fin 64) :
    bit (fromTextBy tokenHash text).bits i = true ↔
      (tokens text).length <
        2 * (tokens text).countP fun token => bit (tokenHash (utf8 token)) i := by
  rw [bit_fromTextBy tokenHash short, column, balance_pos_iff, Multiset.coe_card,
    Multiset.coe_countP]
  simp only [Bool.decide_eq_true]

/-- With the digest of the source: a bit is set where most token digests have it set. -/
theorem bit_fromText (blake3 : List UInt8 → DedupKey) {text : String}
    (short : (tokens text).length < 2 ^ 31) (i : Fin 64) :
    bit (fromText blake3 text).bits i = true ↔
      (tokens text).length < 2 * (tokens text).countP fun token =>
        (blake3 (utf8 token))[i.val / 8].toNat.testBit (i % 8) := by
  simp only [fromText, bit_iff_majority _ short, bit_tokenHash8]

/-- Only the proportions of the tokens matter. -/
theorem fromTextBy_of_proportional (tokenHash : List UInt8 → UInt64) {text text' : String}
    (short : (tokens text).length < 2 ^ 31) (short' : (tokens text').length < 2 ^ 31)
    {p q : Nat} (hp : 0 < p) (hq : 0 < q)
    (same : p • (tokens text : Multiset String) = q • (tokens text' : Multiset String)) :
    fromTextBy tokenHash text = fromTextBy tokenHash text' := by
  rw [SimHash.mk.injEq]
  apply eq_of_bits
  intro i
  rw [Bool.eq_iff_iff, bit_fromTextBy tokenHash short, bit_fromTextBy tokenHash short', column,
    column, ← balance_nsmul_pos_iff _ hp, same, balance_nsmul_pos_iff _ hq]

/-- Each bit is the strict majority of that bit over the token hashes; the tokens are those of the
lexical store; proportional token multisets have the same fingerprint. -/
theorem simHash_majority (tokenHash : List UInt8 → UInt64) {text : String}
    (short : (tokens text).length < 2 ^ 31) :
    (∀ i, bit (fromTextBy tokenHash text).bits i = true ↔
      (tokens text).length <
        2 * (tokens text).countP fun token => bit (tokenHash (utf8 token)) i) ∧
    (∀ bytes, bytes ∈ hashed tokenHash text ↔ ∃ token ∈ normalizedTokens text, utf8 token = bytes) ∧
    ∀ text' p q, (tokens text').length < 2 ^ 31 → 0 < p → 0 < q →
      p • (tokens text : Multiset String) = q • (tokens text' : Multiset String) →
      fromTextBy tokenHash text = fromTextBy tokenHash text' := by
  refine ⟨bit_iff_majority tokenHash short, fun _ => mem_hashed, ?_⟩
  intro text' p q short' hp hq same
  exact fromTextBy_of_proportional tokenHash short short' hp hq same

end Text

/-- A text said once and twice, with the lengths of its tokens as their hashes. -/
theorem simHash_majority_twice :
    @fromTextBy asciiTables (fun bytes => .ofNat bytes.length) "red fish" =
      @fromTextBy asciiTables (fun bytes => .ofNat bytes.length) "Fish? (red) fish, RED!" := by
  let _ : Unicode := asciiTables
  have once : tokens "red fish" = ["red", "fish"] := by decide
  have twice : tokens "Fish? (red) fish, RED!" = ["fish", "red", "fish", "red"] := by decide
  have majority := @simHash_majority asciiTables (fun bytes => .ofNat bytes.length) "red fish"
    (by rw [once]; decide)
  apply majority.2.2 _ 2 1 (by rw [twice]; decide) (by decide) (by decide)
  rw [once, twice]
  decide

end MemoryPolicy.SimHash

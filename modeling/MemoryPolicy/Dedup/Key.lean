import MemoryPolicy.Bytes

/-! The dedup key of an entry in `src/dedup.rs`: the digest of its five fields, joined by NUL.
The digest is a parameter, a function of the bytes fed to the hasher.  Two entries are fed as the
same bytes when a field holds the separator, or when one has no scope and the other an empty one.
-/

namespace MemoryPolicy

open Bytes

abbrev DedupKey := Vector UInt8 32

/-- `compute_key`.  A hasher is the list of the bytes fed to it. -/
def computeKey (blake3 : List UInt8 → DedupKey) (kind conversationId role : String)
    (scope : Option String) (text : String) : DedupKey :=
  let hasher := []
  let hasher := hasher ++ utf8 kind
  let hasher := hasher ++ [0]
  let hasher := hasher ++ utf8 conversationId
  let hasher := hasher ++ [0]
  let hasher := hasher ++ utf8 role
  let hasher := hasher ++ [0]
  let hasher := hasher ++ utf8 (scope.getD "")
  let hasher := hasher ++ [0]
  let hasher := hasher ++ utf8 text
  blake3 hasher

structure EntryFields where
  kind : String
  conversationId : String
  role : String
  scope : Option String
  text : String
deriving DecidableEq

namespace EntryFields

def key (blake3 : List UInt8 → DedupKey) (e : EntryFields) : DedupKey :=
  computeKey blake3 e.kind e.conversationId e.role e.scope e.text

def pieces (e : EntryFields) : List (List UInt8) :=
  [utf8 e.kind, utf8 e.conversationId, utf8 e.role, utf8 (e.scope.getD ""), utf8 e.text]

/-- The bytes that are fed to the hasher. -/
def stream (e : EntryFields) : List UInt8 := [0].intercalate e.pieces

theorem key_eq (blake3 : List UInt8 → DedupKey) (e : EntryFields) :
    e.key blake3 = blake3 e.stream := by
  simp [key, computeKey, stream, pieces, List.intercalate]

def nul : String := "\x00"

def NulFree (s : String) : Prop := '\x00' ∉ s.toList

/-- The entry has a scope that is not empty, and no field holds the separator. -/
structure Unambiguous (e : EntryFields) : Prop where
  scope : e.scope.getD "" ≠ ""
  free : NulFree e.kind ∧ NulFree e.conversationId ∧ NulFree e.role ∧ NulFree (e.scope.getD "") ∧
    NulFree e.text

theorem eq_of_stream_eq {e f : EntryFields}
    (free : NulFree e.kind ∧ NulFree e.conversationId ∧ NulFree e.role ∧
      NulFree (e.scope.getD "") ∧ NulFree e.text)
    (scopes : f.scope.getD "" = e.scope.getD "" → f.scope = e.scope)
    (same : f.stream = e.stream) : f = e := by
  have free : ∀ piece ∈ e.pieces, 0 ∉ piece := by
    obtain ⟨kind, conversationId, role, scope, text⟩ := free
    simp only [pieces, List.mem_cons, List.not_mem_nil, or_false, forall_eq_or_imp, forall_eq,
      zero_mem_utf8]
    exact ⟨kind, conversationId, role, scope, text⟩
  have parts : f.pieces = e.pieces := eq_of_intercalate_eq free rfl same
  simp only [pieces, List.cons.injEq, utf8_injective.eq_iff, and_true] at parts
  obtain ⟨kind, conversationId, role, scope, text⟩ := parts
  cases e
  cases f
  simp_all

/-- The bytes of an unambiguous entry are those of no other entry. -/
theorem Unambiguous.eq_of_stream_eq {e f : EntryFields} (h : e.Unambiguous)
    (same : f.stream = e.stream) : f = e := by
  apply EntryFields.eq_of_stream_eq h.free _ same
  intro scopes
  have present := h.scope
  cases he : e.scope <;> cases hf : f.scope <;> simp_all

/-- Entries that both have a scope, or that both have none, are told apart by their keys, if one of
them is free of the separator and the digest tells their bytes apart. -/
theorem key_eq_iff_of_alike {blake3 : List UInt8 → DedupKey} {e f : EntryFields}
    (free : NulFree e.kind ∧ NulFree e.conversationId ∧ NulFree e.role ∧
      NulFree (e.scope.getD "") ∧ NulFree e.text)
    (alike : f.scope.isSome = e.scope.isSome)
    (apart : blake3 f.stream = blake3 e.stream → f.stream = e.stream) :
    f.key blake3 = e.key blake3 ↔ f = e := by
  rw [key_eq, key_eq]
  refine ⟨fun same => eq_of_stream_eq free ?_ (apart same), fun same => same ▸ rfl⟩
  intro scopes
  cases he : e.scope <;> cases hf : f.scope <;> simp_all

theorem exists_nul {s : String} (h : ¬ NulFree s) :
    ∃ a b : String, s = a ++ nul ++ b := by
  obtain ⟨a, b, hab⟩ := List.append_of_mem (not_not.mp h)
  refine ⟨.ofList a, .ofList b, ?_⟩
  rw [← String.toList_inj]
  simpa [nul] using hab

theorem utf8_nul : utf8 nul = [0] := by
  rw [utf8_eq_flatMap]
  rfl

theorem append_nul_ne (s t : String) : s ++ nul ++ t ≠ s := by
  intro h
  have length := congrArg String.length h
  have : nul.length = 1 := rfl
  rw [String.length_append, String.length_append] at length
  omega

theorem exists_collision_of_scope {e : EntryFields} (h : e.scope.getD "" = "") :
    ∃ f, f ≠ e ∧ f.stream = e.stream := by
  obtain ⟨kind, conversationId, role, scope, text⟩ := e
  cases scope with
  | none => exact ⟨⟨kind, conversationId, role, some "", text⟩, by simp, rfl⟩
  | some s =>
    obtain rfl : s = "" := h
    exact ⟨⟨kind, conversationId, role, none, text⟩, by simp, rfl⟩

theorem exists_collision_of_nul {e : EntryFields} (h : ¬ (NulFree e.kind ∧
    NulFree e.conversationId ∧ NulFree e.role ∧ NulFree (e.scope.getD "") ∧ NulFree e.text)) :
    ∃ f, f ≠ e ∧ f.stream = e.stream := by
  have shifted : ∃ f : EntryFields, f.kind ≠ e.kind ∧ f.stream = e.stream := by
    let scope := e.scope.getD ""
    let joined := e.kind ++ nul ++ e.conversationId
    simp only [not_and_or] at h
    rcases h with h | h | h | h | h <;> obtain ⟨a, b, hab⟩ := exists_nul h
    · exact ⟨⟨a, b ++ nul ++ e.conversationId, e.role, some scope, e.text⟩,
        hab ▸ (append_nul_ne a b).symm,
        by simp [stream, pieces, List.intercalate, utf8_append, utf8_nul, scope, hab]⟩
    · exact ⟨⟨e.kind ++ nul ++ a, b, e.role, some scope, e.text⟩, append_nul_ne _ _,
        by simp [stream, pieces, List.intercalate, utf8_append, utf8_nul, scope, hab]⟩
    · exact ⟨⟨joined, a, b, some scope, e.text⟩, append_nul_ne _ _,
        by simp [stream, pieces, List.intercalate, utf8_append, utf8_nul, scope, joined, hab]⟩
    · exact ⟨⟨joined, e.role, a, some b, e.text⟩, append_nul_ne _ _,
        by simp [stream, pieces, List.intercalate, utf8_append, utf8_nul, joined, hab]⟩
    · exact ⟨⟨joined, e.role, scope, some a, b⟩, append_nul_ne _ _,
        by simp [stream, pieces, List.intercalate, utf8_append, utf8_nul, scope, joined, hab]⟩
  obtain ⟨f, different, same⟩ := shifted
  exact ⟨f, fun h => different (h ▸ rfl), same⟩

theorem exists_collision {e : EntryFields} (h : ¬ e.Unambiguous) :
    ∃ f, f ≠ e ∧ f.stream = e.stream := by
  by_cases scope : e.scope.getD "" = ""
  · exact exists_collision_of_scope scope
  · exact exists_collision_of_nul fun free => h ⟨scope, free⟩

/-- The key of an entry separates it from every other entry exactly when it is unambiguous, if no
other bytes have the digest of its own. -/
theorem key_separates_iff {blake3 : List UInt8 → DedupKey} {e : EntryFields}
    (unique : ∀ bytes, blake3 bytes = blake3 e.stream → bytes = e.stream) :
    (∀ f : EntryFields, f.key blake3 = e.key blake3 → f = e) ↔ e.Unambiguous := by
  simp only [key_eq]
  constructor
  · intro separates
    by_contra ambiguous
    obtain ⟨f, different, same⟩ := exists_collision ambiguous
    exact different (separates f (congrArg blake3 same))
  · intro h f same
    exact h.eq_of_stream_eq (unique _ same)

def teamEntry : EntryFields := ⟨"demoted_message", "thread", "user", some "team", "hello"⟩

/-- The digest of `teamEntry`, and another one for all other bytes. -/
def teamHash (bytes : List UInt8) : DedupKey :=
  if bytes = teamEntry.stream then
    #v[18, 3, 41, 245, 128, 188, 159, 80, 163, 237, 66, 63, 189, 175, 162, 216, 254, 83, 37, 200,
      232, 143, 169, 17, 191, 62, 205, 95, 41, 61, 205, 167]
  else .replicate 32 0

theorem key_separates_teamEntry :
    (∀ f : EntryFields, f.key teamHash = teamEntry.key teamHash → f = teamEntry) ↔
      teamEntry.Unambiguous := by
  apply key_separates_iff
  intro bytes same
  by_contra other
  rw [teamHash, teamHash, if_neg other, if_pos rfl] at same
  exact absurd same (by decide)

/-- Without a scope the key is that of an empty scope, and a separator in the conversation makes it
that of a longer kind, for every digest. -/
theorem key_collides :
    (⟨"demoted_message", "thread", "user", none, "hello"⟩ : EntryFields) ≠
        ⟨"demoted_message", "thread", "user", some "", "hello"⟩ ∧
      (∀ blake3, (⟨"demoted_message", "thread", "user", none, "hello"⟩ : EntryFields).key blake3 =
        (⟨"demoted_message", "thread", "user", some "", "hello"⟩ : EntryFields).key blake3) ∧
      (⟨"kind", "a\x00b", "user", some "team", "hello"⟩ : EntryFields) ≠
        ⟨"kind\x00a", "b", "user", some "team", "hello"⟩ ∧
      ∀ blake3, (⟨"kind", "a\x00b", "user", some "team", "hello"⟩ : EntryFields).key blake3 =
        (⟨"kind\x00a", "b", "user", some "team", "hello"⟩ : EntryFields).key blake3 := by
  refine ⟨by decide, fun _ => rfl, by decide, fun blake3 => ?_⟩
  rw [key_eq, key_eq]
  exact congrArg blake3 (by decide)

end EntryFields

end MemoryPolicy

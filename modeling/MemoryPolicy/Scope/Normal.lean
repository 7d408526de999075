import MemoryPolicy.Scope

/-! Normalized scopes as a canonical form of lists of segments.  Normalizing keeps the segments of a
scope, and joining segments gives the only normalized scope that has them. -/

namespace MemoryPolicy

open Text

theorem segment_iff {s : String} :
    Segment s ↔ s ≠ "" ∧ '/' ∉ s.toList ∧ Bare isWhitespace s.toList := by
  rw [← trim_eq_self_iff]
  exact ⟨fun h => ⟨h.nonempty, h.noSlash, h.trimmed⟩, fun h => ⟨h.1, h.2.1, h.2.2⟩⟩

theorem exists_segments (scope : String) :
    ∃ segments, (∀ s ∈ segments, Segment s) ∧ normalizeScope scope = "/".intercalate segments :=
  ⟨scopePath scope, fun _ => segment_of_mem_scopePath, normalizeScope_eq scope⟩

/-- Normalization is a canonical form: it keeps the segments and is stable, scopes have one normal
form exactly when they have the same segments, and normal forms are the joins of segments, from
which the segments can be read off. -/
theorem normalizeScope_canonical :
    (∀ scope, scopePath (normalizeScope scope) = scopePath scope) ∧
    (∀ scope, normalizeScope (normalizeScope scope) = normalizeScope scope) ∧
    (∀ a b, normalizeScope a = normalizeScope b ↔ scopePath a = scopePath b) ∧
    (∀ segments : List String,
      (∀ s ∈ segments, s ≠ "" ∧ '/' ∉ s.toList ∧ Bare isWhitespace s.toList) →
      scopePath ("/".intercalate segments) = segments) ∧
    ∀ scope, ∃ segments : List String,
      (∀ s ∈ segments, s ≠ "" ∧ '/' ∉ s.toList ∧ Bare isWhitespace s.toList) ∧
      normalizeScope scope = "/".intercalate segments := by
  simp only [← segment_iff]
  exact ⟨scopePath_normalizeScope, normalizeScope_normalizeScope, fun _ _ => normalizeScope_eq_iff,
    fun _ => scopePath_intercalate, exists_segments⟩

end MemoryPolicy

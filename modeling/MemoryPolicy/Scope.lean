import MemoryPolicy.Text

/-! Memory scopes, as in `src/scope.rs`: slash-delimited text, normalized segment by segment, and
matching of an optional candidate scope against an optional required scope.  A `Scope` holds
normalized text only, as its constructor leaves it. -/

namespace MemoryPolicy

open Text

def normalizeScope (scope : String) : String :=
  "/".intercalate (((split '/' scope).map trim).filter fun segment => segment ≠ "")

def scopePath (scope : String) : List String :=
  ((split '/' scope).map trim).filter fun segment => segment ≠ ""

theorem normalizeScope_eq (scope : String) :
    normalizeScope scope = "/".intercalate (scopePath scope) := rfl

/-- A segment of a normalized scope: not blank, trimmed, without a slash. -/
structure Segment (s : String) : Prop where
  nonempty : s ≠ ""
  noSlash : '/' ∉ s.toList
  trimmed : trim s = s

theorem segment_of_mem_scopePath {scope s : String} (h : s ∈ scopePath scope) : Segment s := by
  obtain ⟨hm, hne⟩ := List.mem_filter.mp h
  obtain ⟨piece, hp, rfl⟩ := List.mem_map.mp hm
  exact ⟨by simpa using hne, fun hs => not_mem_split hp (mem_trim hs), trim_trim piece⟩

theorem scopePath_intercalate {segments : List String} (h : ∀ s ∈ segments, Segment s) :
    scopePath ("/".intercalate segments) = segments := by
  cases segments with
  | nil => decide
  | cons first rest =>
    have pieces : split '/' ("/".intercalate (first :: rest)) = first :: rest :=
      split_intercalate (fun s hs => (h s hs).noSlash) (by simp)
    have trims : (first :: rest).map trim = first :: rest :=
      (List.map_congr_left fun s hs => (h s hs).trimmed).trans (List.map_id _)
    rw [scopePath, pieces, trims]
    exact List.filter_eq_self.mpr fun s hs => by simpa using (h s hs).nonempty

theorem scopePath_normalizeScope (scope : String) :
    scopePath (normalizeScope scope) = scopePath scope :=
  scopePath_intercalate fun _ h => segment_of_mem_scopePath h

theorem normalizeScope_eq_iff {a b : String} :
    normalizeScope a = normalizeScope b ↔ scopePath a = scopePath b := by
  constructor
  · intro h
    rw [← scopePath_normalizeScope a, h, scopePath_normalizeScope]
  · intro h
    rw [normalizeScope_eq, h, normalizeScope_eq]

theorem normalizeScope_eq_empty_iff {scope : String} :
    normalizeScope scope = "" ↔ scopePath scope = [] := by
  rw [show ("" : String) = normalizeScope "" by decide, normalizeScope_eq_iff,
    show scopePath "" = [] by decide]

theorem normalizeScope_normalizeScope (scope : String) :
    normalizeScope (normalizeScope scope) = normalizeScope scope := by
  rw [normalizeScope_eq, scopePath_normalizeScope, ← normalizeScope_eq]

example : normalizeScope " /tenant-a// project-1 /" = "tenant-a/project-1" := by decide

/-- `Scope`, with the invariant that its private field keeps. -/
structure Scope where
  value : String
  normalized : normalizeScope value = value
deriving DecidableEq

def Scope.new (value : String) : Scope :=
  ⟨normalizeScope value, normalizeScope_normalizeScope value⟩

def Scope.asStr (self : Scope) : String := self.value

theorem Scope.asStr_injective : Function.Injective Scope.asStr := by
  intro a b same
  cases a
  cases b
  exact Scope.mk.injEq .. ▸ same

def Scope.isEmpty (self : Scope) : Bool := self.value == ""

def Scope.path (self : Scope) : List String := scopePath self.value

def Scope.matches (self : Scope) (candidate : Option String) : Bool :=
  (candidate.map fun candidate => normalizeScope candidate == self.value).getD false

def Scope.contains (self : Scope) (candidate : Option String) : Bool :=
  match candidate with
  | none => false
  | some candidate =>
    let candidate := normalizeScope candidate
    if self.isEmpty then candidate == ""
    else candidate == self.value ||
      ((stripPrefix candidate self.value).map fun suffix => startsWith suffix '/').getD false

def scopeMatches (required candidate : Option String) : Bool :=
  match required with
  | some required => Scope.matches (Scope.new required) candidate
  | none => (candidate.map fun candidate => normalizeScope candidate == "").getD true

end MemoryPolicy

import MemoryPolicy.Metadata.Canonical

/-! Entries that are stamped with envelopes.  A backend writes the map of an envelope over the
metadata map of an entry.  An envelope without a scope has no entry for it, so the scope of an
earlier envelope stays. -/

namespace MemoryPolicy

/-- The metadata map of an entry with the map of an envelope written over it. -/
def stamp (map : StringMap) (m : FrameMetadata) : StringMap := map ∪ m.intoMap

/-- The scope of an entry after an envelope is written over it. -/
def stampedScope (scope : Option String) (m : FrameMetadata) : Option String := m.scope.or scope

/-- The metadata map of an entry that is stamped again and again. -/
def stampAll (map : StringMap) (ms : List FrameMetadata) : StringMap := ms.foldl stamp map

theorem getElem?_stamp (map : StringMap) (m : FrameMetadata) (k : String) :
    (stamp map m)[k]? = m.intoMap[k]?.or map[k]? := Std.ExtTreeMap.getElem?_union

theorem getElem?_stamp_foreign {k : String} (h : k ∉ envelopeKeys) (map : StringMap)
    (m : FrameMetadata) : (stamp map m)[k]? = map[k]? := by
  simp only [envelopeKeys, List.mem_cons, List.not_mem_nil, or_false, not_or] at h
  simp [getElem?_stamp, FrameMetadata.getElem?_intoMap, h]

theorem getElem?_stamp_scope (map : StringMap) (m : FrameMetadata) :
    (stamp map m)["scope"]? = stampedScope map["scope"]? m := by
  rw [getElem?_stamp, FrameMetadata.getElem?_intoMap]
  rfl

/-- A stamped entry presents the envelope, with the scope that was there if it has none. -/
theorem presents_stamp (map : StringMap) (m : FrameMetadata) :
    Presents (stamp map m) { m with scope := stampedScope map["scope"]? m } := by
  have p := m.presents_intoMap
  have present : ∀ {k v : String}, m.intoMap[k]? = some v → (stamp map m)[k]? = some v := by
    intro k v h
    rw [getElem?_stamp, h, Option.some_or]
  obtain ⟨text, version, denotes⟩ := p.schemaVersion
  exact ⟨⟨text, present version, denotes⟩, present p.kind, present p.conversationId,
    present p.chatRole, present p.dedupKey, getElem?_stamp_scope map m⟩

theorem getElem?_stampAll_foreign {k : String} (h : k ∉ envelopeKeys) (map : StringMap)
    (ms : List FrameMetadata) : (stampAll map ms)[k]? = map[k]? := by
  induction ms generalizing map with
  | nil => rfl
  | cons m ms ih => exact (ih (stamp map m)).trans (getElem?_stamp_foreign h map m)

theorem getElem?_stampAll_scope (map : StringMap) (ms : List FrameMetadata) :
    (stampAll map ms)["scope"]? = ms.foldl stampedScope map["scope"]? := by
  induction ms generalizing map with
  | nil => rfl
  | cons m ms ih =>
    rw [List.foldl_cons, ← getElem?_stamp_scope]
    exact ih (stamp map m)

theorem foldl_stampedScope_eq_none {scope : Option String} {ms : List FrameMetadata} :
    ms.foldl stampedScope scope = none ↔ scope = none ∧ ∀ m ∈ ms, m.scope = none := by
  induction ms generalizing scope with
  | nil => simp
  | cons m ms ih =>
    rw [List.foldl_cons, ih, stampedScope, Option.or_eq_none_iff, List.forall_mem_cons]
    tauto

section

variable {fromValue : JsonObject → Except String FrameMetadata}

/-- An entry that is stamped again and again is decoded to the last envelope with the last scope
that was written, so to the last envelope itself exactly where that has a scope or no scope was
ever there; and the entries of others stay. -/
theorem FrameMetadata.tryFromMap_stampAll (derived : Derived fromValue) (map : StringMap)
    (earlier : List FrameMetadata) (m : FrameMetadata) :
    tryFromMap fromValue (stampAll map (earlier ++ [m])) =
        .ok { m with scope := (earlier ++ [m]).foldl stampedScope map["scope"]? } ∧
      (tryFromMap fromValue (stampAll map (earlier ++ [m])) = .ok m ↔
        m.scope ≠ none ∨ map["scope"]? = none ∧ ∀ e ∈ earlier, e.scope = none) ∧
      ∀ k ∉ envelopeKeys, (stampAll map (earlier ++ [m]))[k]? = map[k]? := by
  have scopes : (earlier ++ [m]).foldl stampedScope map["scope"]? =
      m.scope.or (earlier.foldl stampedScope map["scope"]?) := by
    rw [List.foldl_append, List.foldl_cons, List.foldl_nil, stampedScope]
  have decoded : tryFromMap fromValue (stampAll map (earlier ++ [m])) =
      .ok { m with scope := (earlier ++ [m]).foldl stampedScope map["scope"]? } := by
    have last := presents_stamp (stampAll map earlier) m
    rw [getElem?_stampAll_scope] at last
    rw [tryFromMap_eq_ok derived, scopes, stampAll, List.foldl_append]
    exact last
  have same : ∀ scope, { m with scope } = m ↔ scope = m.scope := by
    intro scope
    cases m
    simp
  refine ⟨decoded, ?_, fun k foreign => getElem?_stampAll_foreign foreign map _⟩
  rw [decoded, Except.ok.injEq, same, scopes, ← foldl_stampedScope_eq_none]
  cases m.scope with
  | some scope => simp
  | none => simp

/-- A frame without a scope, written over one with a scope, is decoded with the scope of the
other. -/
theorem FrameMetadata.tryFromMap_stampAll_stale :
    tryFromMap readFields (stampAll ((∅ : StringMap).insert "source" "7")
      ([⟨1, .demotedMessage, "42", "user", "a", some "tenant-a"⟩] ++
        [⟨1, .demotedMessage, "42", "user", "b", none⟩])) =
      .ok ⟨1, .demotedMessage, "42", "user", "b", some "tenant-a"⟩ :=
  (tryFromMap_stampAll readFields_derived _ _ _).1

end

end MemoryPolicy

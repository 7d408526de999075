import MemoryPolicy.Metadata.Codec

/-! What the codec accepts and what it writes back.  A map is decoded to an envelope exactly when it
presents the fields of the envelope, whatever other entries it has; encoding the envelope restores
those fields with the version in canonical decimal form. -/

namespace MemoryPolicy

def envelopeKeys : List String :=
  ["schema_version", "kind", "conversation_id", "chat_role", "dedup_key", "scope"]

/-- The map has the fields of the envelope as strings, the version in some decimal form. -/
structure Presents (map : StringMap) (m : FrameMetadata) : Prop where
  schemaVersion : ∃ text, map["schema_version"]? = some text ∧ VersionText text m.schemaVersion
  kind : map["kind"]? = some m.kind.asStr
  conversationId : map["conversation_id"]? = some m.conversationId
  chatRole : map["chat_role"]? = some m.chatRole
  dedupKey : map["dedup_key"]? = some m.dedupKey
  scope : map["scope"]? = m.scope

structure Grammar (map : StringMap) : Prop where
  schemaVersion : ∃ text n, map["schema_version"]? = some text ∧ VersionText text n
  kind : ∃ kind, map["kind"]? = some kind ∧ (kind = "demoted_message" ∨ kind = "compaction_summary")
  conversationId : "conversation_id" ∈ map
  chatRole : "chat_role" ∈ map
  dedupKey : "dedup_key" ∈ map

/-! ### Decoding -/

theorem decodes_objectOf {map : StringMap} {m : FrameMetadata} :
    Decodes (objectOf map) m ↔ Presents map m := by
  have version : (objectOf map)["schema_version"]? = some (.number m.schemaVersion) ↔
      ∃ text, map["schema_version"]? = some text ∧ VersionText text m.schemaVersion := by
    rw [getElem?_objectOf, Option.map_eq_some_iff]
    simp only [jsonValue_schemaVersion, parseU8_eq_some]
  have field : ∀ k v, k ≠ "schema_version" →
      ((objectOf map)[k]? = Option.map .string v ↔ map[k]? = v) := fun k v h => by
    rw [getElem?_objectOf_of_ne h]
    exact (Option.map_injective fun _ _ => JsonValue.string.inj).eq_iff
  have kind := field "kind" (some m.kind.asStr) (by decide)
  have conversationId := field "conversation_id" (some m.conversationId) (by decide)
  have chatRole := field "chat_role" (some m.chatRole) (by decide)
  have dedupKey := field "dedup_key" (some m.dedupKey) (by decide)
  have scope := field "scope" m.scope (by decide)
  constructor
  · intro d
    exact ⟨version.mp d.schemaVersion, kind.mp (asStr_eq_snakeCase m.kind ▸ d.kind),
      conversationId.mp d.conversationId, chatRole.mp d.chatRole, dedupKey.mp d.dedupKey,
      scope.mp d.scope⟩
  · intro p
    exact ⟨version.mpr p.schemaVersion, asStr_eq_snakeCase m.kind ▸ kind.mpr p.kind,
      conversationId.mpr p.conversationId, chatRole.mpr p.chatRole, dedupKey.mpr p.dedupKey,
      scope.mpr p.scope⟩

section

variable {fromValue : JsonObject → Except String FrameMetadata} (derived : Derived fromValue)
include derived

theorem tryFromMap_eq_ok {map : StringMap} {m : FrameMetadata} :
    FrameMetadata.tryFromMap fromValue map = .ok m ↔ Presents map m := by
  rw [← decodes_objectOf, ← derived, FrameMetadata.tryFromMap]
  cases fromValue (objectOf map) <;> simp [Except.mapError]

end

theorem grammar_iff {map : StringMap} : Grammar map ↔ ∃ m, Presents map m := by
  constructor
  · rintro ⟨⟨text, n, version, denotes⟩, ⟨kind, kindAt, name⟩, conversation, role, key⟩
    obtain ⟨kind', rfl⟩ : ∃ kind' : FrameKind, kind'.asStr = kind := by
      rcases name with rfl | rfl
      · exact ⟨.demotedMessage, rfl⟩
      · exact ⟨.compactionSummary, rfl⟩
    have found : ∀ {k} (h : k ∈ map), map[k]? = some map[k] :=
      fun h => Std.ExtTreeMap.getElem?_eq_some_getElem h
    exact ⟨⟨n, kind', map["conversation_id"], map["chat_role"], map["dedup_key"], map["scope"]?⟩,
      ⟨text, version, denotes⟩, kindAt, found conversation, found role, found key, rfl⟩
  · rintro ⟨m, ⟨text, version, denotes⟩, kind, conversation, role, key, -⟩
    have present : ∀ {k v}, map[k]? = some v → k ∈ map := fun h => by
      rw [Std.ExtTreeMap.mem_iff_isSome_getElem?, h, Option.isSome_some]
    refine ⟨⟨text, _, version, denotes⟩, ⟨_, kind, ?_⟩, present conversation, present role,
      present key⟩
    cases m.kind
    · exact .inl rfl
    · exact .inr rfl

/-! ### Encoding -/

namespace FrameMetadata

theorem getElem?_intoMap (m : FrameMetadata) (k : String) :
    m.intoMap[k]? =
      if k = "scope" then m.scope
      else if k = "dedup_key" then some m.dedupKey
      else if k = "chat_role" then some m.chatRole
      else if k = "conversation_id" then some m.conversationId
      else if k = "kind" then some m.kind.asStr
      else if k = "schema_version" then some (toString m.schemaVersion)
      else none := by
  unfold intoMap
  cases m.scope with
  | none =>
    simp only [Std.ExtTreeMap.getElem?_insert, Std.ExtTreeMap.getElem?_empty,
      Std.compare_eq_iff_eq, eq_comm (b := k)]
    by_cases h : k = "scope"
    · subst h; rfl
    · rw [if_neg h]
  | some scope =>
    simp only [Std.ExtTreeMap.getElem?_insert, Std.ExtTreeMap.getElem?_empty,
      Std.compare_eq_iff_eq, eq_comm (b := k)]

theorem presents_intoMap (m : FrameMetadata) : Presents m.intoMap m := by
  have version : VersionText (toString m.schemaVersion) m.schemaVersion :=
    parseU8_eq_some.mp (parseU8_toString m.schemaVersion)
  refine ⟨⟨_, ?_, version⟩, ?_, ?_, ?_, ?_, ?_⟩ <;> rw [getElem?_intoMap] <;> rfl

end FrameMetadata

theorem Presents.congr {map map' : StringMap} {m : FrameMetadata} (p : Presents map m)
    (same : ∀ k ∈ envelopeKeys, map'[k]? = map[k]?) : Presents map' m := by
  refine ⟨?_, ?_, ?_, ?_, ?_, ?_⟩ <;> rw [same _ (by decide)]
  exacts [p.schemaVersion, p.kind, p.conversationId, p.chatRole, p.dedupKey, p.scope]

/-- Encoding a presented envelope gives the entries of the map under the envelope's keys, with the
version in canonical form. -/
theorem Presents.intoMap_eq {map : StringMap} {m : FrameMetadata} (p : Presents map m) :
    m.intoMap = (map.filter fun k _ => k ∈ envelopeKeys).insert "schema_version"
      (toString m.schemaVersion) := by
  apply Std.ExtTreeMap.ext_getElem?
  intro k
  simp only [FrameMetadata.getElem?_intoMap, Std.ExtTreeMap.getElem?_insert, Std.compare_eq_iff_eq,
    TreeMap.getElem?_filter_key, decide_eq_true_iff]
  by_cases known : k ∈ envelopeKeys
  · rw [if_pos known]
    simp only [envelopeKeys, List.mem_cons, List.not_mem_nil, or_false] at known
    rcases known with rfl | rfl | rfl | rfl | rfl | rfl
    · rfl
    · exact p.kind.symm
    · exact p.conversationId.symm
    · exact p.chatRole.symm
    · exact p.dedupKey.symm
    · exact p.scope.symm
  · rw [if_neg known]
    simp only [envelopeKeys, List.mem_cons, List.not_mem_nil, or_false, not_or] at known
    simp [known, eq_comm (b := k)]

/-! ### The codec -/

/-- Decoding, then encoding. -/
def normalise (fromValue : JsonObject → Except String FrameMetadata) (map : StringMap) :
    Except PolicyError StringMap :=
  (FrameMetadata.tryFromMap fromValue map).map FrameMetadata.intoMap

section

variable {fromValue : JsonObject → Except String FrameMetadata}

theorem tryFromMap_intoMap (derived : Derived fromValue) (m : FrameMetadata) :
    FrameMetadata.tryFromMap fromValue m.intoMap = .ok m :=
  (tryFromMap_eq_ok derived).mpr m.presents_intoMap

theorem normalise_normalise (derived : Derived fromValue) (map : StringMap) :
    normalise fromValue map >>= normalise fromValue = normalise fromValue map := by
  unfold normalise
  cases FrameMetadata.tryFromMap fromValue map with
  | error e => rfl
  | ok m =>
    show (FrameMetadata.tryFromMap fromValue m.intoMap).map _ = _
    rw [tryFromMap_intoMap derived]

/-- Decoding gives back an envelope that was encoded into a map with entries of others. -/
theorem FrameMetadata.tryFromMap_union (derived : Derived fromValue) (m : FrameMetadata)
    (extra : StringMap) (foreign : ∀ k ∈ envelopeKeys, k ∉ extra) :
    tryFromMap fromValue (extra ∪ m.intoMap) = .ok m := by
  apply (tryFromMap_eq_ok derived).mpr
  apply m.presents_intoMap.congr
  intro k known
  exact Std.ExtTreeMap.getElem?_union_of_not_mem_left (foreign k known)

theorem FrameMetadata.tryFromMap_union_source :
    tryFromMap readFields ((∅ : StringMap).insert "source" "7" ∪ intoMap
      ⟨1, .demotedMessage, "42", "user", "+3", none⟩) =
      .ok ⟨1, .demotedMessage, "42", "user", "+3", none⟩ :=
  tryFromMap_union readFields_derived _ _ fun k known => by
    rw [Std.ExtTreeMap.mem_insert, Std.compare_eq_iff_eq]
    rintro (rfl | absent)
    · exact absurd known (by decide)
    · exact Std.ExtTreeMap.not_mem_empty absent

/-- Decoding accepts the grammar of the envelope and reports invalid metadata otherwise; encoding
what was accepted changes only the form of the version. -/
theorem FrameMetadata.tryFromMap_canonical (derived : Derived fromValue) (map : StringMap) :
    ((∃ m, tryFromMap fromValue map = .ok m) ↔ Grammar map) ∧
    (¬ Grammar map → ∃ message, tryFromMap fromValue map = .error (.invalidMetadata message)) ∧
    (∀ m, tryFromMap fromValue map = .ok m →
      (∃ text, map["schema_version"]? = some text ∧ VersionText text m.schemaVersion) ∧
      m.intoMap = (map.filter fun k _ => k ∈ envelopeKeys).insert "schema_version"
        (toString m.schemaVersion)) ∧
    normalise fromValue map >>= normalise fromValue = normalise fromValue map := by
  have accepts : (∃ m, tryFromMap fromValue map = .ok m) ↔ Grammar map := by
    simp only [tryFromMap_eq_ok derived, grammar_iff]
  refine ⟨accepts, ?_, ?_, normalise_normalise derived map⟩
  · intro bad
    cases decoded : fromValue (objectOf map) with
    | error message => exact ⟨message, by rw [tryFromMap, decoded]; rfl⟩
    | ok m => exact absurd (accepts.mp ⟨m, by rw [tryFromMap, decoded]; rfl⟩) bad
  · intro m ok
    have p := (tryFromMap_eq_ok derived).mp ok
    exact ⟨p.schemaVersion, p.intoMap_eq⟩

def signedVersion : StringMap :=
  .ofList [("schema_version", "+01"), ("kind", "compaction_summary"), ("conversation_id", "42"),
    ("chat_role", "system"), ("dedup_key", "7"), ("label", "1")]

theorem FrameMetadata.tryFromMap_canonical_signedVersion :
    ∃ m, tryFromMap readFields signedVersion = .ok m := by
  have version : VersionText "+01" 1 := ⟨['0', '1'], .inr rfl, nofun, List.all_eq_true.mp rfl, rfl⟩
  exact (tryFromMap_canonical readFields_derived signedVersion).1.mpr
    ⟨⟨"+01", 1, rfl, version⟩, ⟨_, rfl, .inr rfl⟩, rfl, rfl, rfl⟩

end

end MemoryPolicy

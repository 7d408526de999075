import MemoryPolicy.Decimal
import MemoryPolicy.Metadata.Frame
import MemoryPolicy.TreeMap

/-! The codec of the metadata envelope in `src/metadata.rs`.  `into_map` writes the fields as
strings; `try_from_map` turns a string map into a JSON object, a number where the version is one,
and leaves the object to the decoder that serde derives for the struct.  That decoder is a
parameter: what is known of it is which objects it reads as which envelope. -/

namespace MemoryPolicy

abbrev StringMap := Std.ExtTreeMap String String compare

/-- The JSON values that `try_from_map` builds. -/
inductive JsonValue
  | number (n : UInt8)
  | string (s : String)
deriving DecidableEq

abbrev JsonObject := Std.ExtTreeMap String JsonValue compare

/-- `str::parse::<u8>` -/
def parseU8 (s : String) : Option UInt8 := (Decimal.read 256 s.toList).map UInt8.ofNat

def FrameKind.asStr : FrameKind → String
  | .demotedMessage => "demoted_message"
  | .compactionSummary => "compaction_summary"

theorem FrameKind.asStr_injective : Function.Injective FrameKind.asStr := by
  intro a b same
  cases a <;> cases b <;> first | rfl | exact absurd same (by decide)

/-- The JSON object of `try_from_map`. -/
def objectOf (map : StringMap) : JsonObject :=
  map.foldl (fun obj k v =>
    match parseU8 v with
    | some num =>
      if k = "schema_version" then obj.insert k (.number num) else obj.insert k (.string v)
    | none => obj.insert k (.string v)) ∅

namespace FrameMetadata

/-- `FrameMetadata::try_from_map`.  The parameter is `serde_json::from_value`, with the text of its
errors. -/
def tryFromMap (fromValue : JsonObject → Except String FrameMetadata) (map : StringMap) :
    Except PolicyError FrameMetadata :=
  (fromValue (objectOf map)).mapError .invalidMetadata

def intoMap (self : FrameMetadata) : StringMap :=
  let map : StringMap := ∅
  let map := map.insert "schema_version" (toString self.schemaVersion)
  let map := map.insert "kind" self.kind.asStr
  let map := map.insert "conversation_id" self.conversationId
  let map := map.insert "chat_role" self.chatRole
  let map := map.insert "dedup_key" self.dedupKey
  match self.scope with
  | some scope => map.insert "scope" scope
  | none => map

end FrameMetadata

/-! ### The derived decoder -/

/-- serde's `rename_all = "snake_case"`: an underscore before each later capital, and lower case. -/
def snakeCase (identifier : String) : String :=
  match identifier.toList with
  | [] => ""
  | c :: cs =>
    .ofList (c.toLower :: cs.flatMap fun c => if c.isUpper then ['_', c.toLower] else [c.toLower])

def FrameKind.identifier : FrameKind → String
  | .demotedMessage => "DemotedMessage"
  | .compactionSummary => "CompactionSummary"

/-- The object has the fields of the envelope: a number for the version, the name of the variant for
the kind, strings for the others, and no field for an absent scope.  Other fields are ignored. -/
structure Decodes (obj : JsonObject) (m : FrameMetadata) : Prop where
  schemaVersion : obj["schema_version"]? = some (.number m.schemaVersion)
  kind : obj["kind"]? = some (.string (snakeCase m.kind.identifier))
  conversationId : obj["conversation_id"]? = some (.string m.conversationId)
  chatRole : obj["chat_role"]? = some (.string m.chatRole)
  dedupKey : obj["dedup_key"]? = some (.string m.dedupKey)
  scope : obj["scope"]? = m.scope.map .string

/-- The decoder that serde derives for the struct: it accepts the objects that have its fields. -/
def Derived (fromValue : JsonObject → Except String FrameMetadata) : Prop :=
  ∀ obj m, fromValue obj = .ok m ↔ Decodes obj m

theorem asStr_eq_snakeCase (kind : FrameKind) : kind.asStr = snakeCase kind.identifier := by
  cases kind <;> decide

def numberField (field : String) : Option JsonValue → Except String UInt8
  | some (.number n) => .ok n
  | some (.string s) => .error s!"invalid type: string {s}, expected u8"
  | none => .error s!"missing field {field}"

def stringField (field : String) : Option JsonValue → Except String String
  | some (.string s) => .ok s
  | some (.number n) => .error s!"invalid type: integer {n}, expected a string"
  | none => .error s!"missing field {field}"

def kindField (field : String) (value : Option JsonValue) : Except String FrameKind := do
  let name ← stringField field value
  if name = snakeCase FrameKind.demotedMessage.identifier then .ok .demotedMessage
  else if name = snakeCase FrameKind.compactionSummary.identifier then .ok .compactionSummary
  else .error s!"unknown variant {name}"

def optionField (field : String) : Option JsonValue → Except String (Option String)
  | none => .ok none
  | value => some <$> stringField field value

/-- A decoder that reads the fields in turn. -/
def readFields (obj : JsonObject) : Except String FrameMetadata := do
  let schemaVersion ← numberField "schema_version" obj["schema_version"]?
  let kind ← kindField "kind" obj["kind"]?
  let conversationId ← stringField "conversation_id" obj["conversation_id"]?
  let chatRole ← stringField "chat_role" obj["chat_role"]?
  let dedupKey ← stringField "dedup_key" obj["dedup_key"]?
  let scope ← optionField "scope" obj["scope"]?
  return { schemaVersion, kind, conversationId, chatRole, dedupKey, scope }

theorem numberField_eq_ok {field : String} {value : Option JsonValue} {n : UInt8} :
    numberField field value = .ok n ↔ value = some (.number n) := by
  rcases value with _ | _ | _ <;> simp [numberField]

theorem stringField_eq_ok {field : String} {value : Option JsonValue} {s : String} :
    stringField field value = .ok s ↔ value = some (.string s) := by
  rcases value with _ | _ | _ <;> simp [stringField]

theorem bind_eq_ok {α β ε : Type} {x : Except ε α} {f : α → Except ε β} {b : β} :
    x >>= f = .ok b ↔ ∃ a, x = .ok a ∧ f a = .ok b := by
  cases x <;> simp [bind, Except.bind]

theorem kindField_eq_ok {field : String} {value : Option JsonValue} {kind : FrameKind} :
    kindField field value = .ok kind ↔ value = some (.string (snakeCase kind.identifier)) := by
  simp only [kindField, bind_eq_ok, stringField_eq_ok, ← asStr_eq_snakeCase]
  constructor
  · rintro ⟨name, rfl, found⟩
    split at found
    · cases found
      subst name
      rfl
    · split at found <;> cases found
      subst name
      rfl
  · rintro rfl
    refine ⟨_, rfl, ?_⟩
    cases kind <;> rfl

theorem optionField_eq_ok {field : String} {value : Option JsonValue} {s : Option String} :
    optionField field value = .ok s ↔ value = s.map .string := by
  rcases value with _ | _ | _ <;> cases s <;> simp [optionField, stringField]

theorem readFields_derived : Derived readFields := by
  intro obj m
  simp only [readFields, bind_eq_ok, numberField_eq_ok, kindField_eq_ok, stringField_eq_ok,
    optionField_eq_ok]
  constructor
  · rintro ⟨_, version, _, kind, _, conversation, _, role, _, key, _, scope, ⟨⟩⟩
    exact ⟨version, kind, conversation, role, key, scope⟩
  · rintro ⟨version, kind, conversation, role, key, scope⟩
    exact ⟨_, version, _, kind, _, conversation, _, role, _, key, _, scope, rfl⟩

/-! ### Versions -/

/-- The text is an optional plus sign and decimal digits of the value `n`. -/
def VersionText (text : String) (n : UInt8) : Prop :=
  ∃ digits, (text.toList = digits ∨ text.toList = '+' :: digits) ∧ Decimal.Denotes digits n.toNat

theorem parseU8_eq_some {text : String} {n : UInt8} :
    parseU8 text = some n ↔ VersionText text n := by
  have same : parseU8 text = some n ↔ Decimal.read 256 text.toList = some n.toNat := by
    rw [parseU8, Option.map_eq_some_iff]
    constructor
    · rintro ⟨value, read, rfl⟩
      obtain ⟨_, _, _, below⟩ := (Decimal.read_eq_some (by decide)).mp read
      rw [read, UInt8.toNat_ofNat_of_lt' below]
    · intro read
      exact ⟨n.toNat, read, UInt8.ofNat_toNat⟩
  rw [same, Decimal.read_eq_some (by decide)]
  constructor
  · rintro ⟨digits, shape, denotes, -⟩
    exact ⟨digits, shape, denotes⟩
  · rintro ⟨digits, shape, denotes⟩
    exact ⟨digits, shape, denotes, n.toNat_lt⟩

example : parseU8 "+007" = some 7 := by decide

example : parseU8 "256" = none := by decide

theorem parseU8_toString (n : UInt8) : parseU8 (toString n) = some n := by
  have read : Decimal.read 256 (toString n).toList = some n.toNat := Decimal.read_repr n.toNat_lt
  rw [parseU8, read, Option.map_some, UInt8.ofNat_toNat]

/-! ### The object of a map -/

def jsonValue (k v : String) : JsonValue :=
  match parseU8 v with
  | some num => if k = "schema_version" then .number num else .string v
  | none => .string v

theorem getElem?_objectOf (map : StringMap) (k : String) :
    (objectOf map)[k]? = map[k]?.map (jsonValue k) := by
  have loop : objectOf map = map.foldl (fun obj k v => obj.insert k (jsonValue k v)) ∅ := by
    refine congrArg (fun f => map.foldl f ∅) ?_
    funext obj k v
    unfold jsonValue
    cases parseU8 v with
    | some num => by_cases h : k = "schema_version" <;> simp [h]
    | none => rfl
  rw [loop]
  exact TreeMap.getElem?_foldl_insert jsonValue map k

theorem jsonValue_schemaVersion {text : String} {n : UInt8} :
    jsonValue "schema_version" text = .number n ↔ parseU8 text = some n := by
  cases h : parseU8 text <;> simp [jsonValue, h]

theorem jsonValue_of_ne {k : String} (h : k ≠ "schema_version") (v : String) :
    jsonValue k v = .string v := by
  cases parsed : parseU8 v <;> simp [jsonValue, parsed, h]

theorem getElem?_objectOf_of_ne {k : String} (h : k ≠ "schema_version") (map : StringMap) :
    (objectOf map)[k]? = map[k]?.map .string := by
  rw [getElem?_objectOf, show jsonValue k = .string from funext (jsonValue_of_ne h)]

end MemoryPolicy

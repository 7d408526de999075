import MemoryPolicy.Dedup.Restart
import MemoryPolicy.Metadata.Stamp
import MemoryPolicy.Retention.Builders
import MemoryPolicy.Scope.Containment

/-! The pipeline of `tests/policy_pipeline.rs` and `examples/retention_policy.rs` over a whole
archive.  A hook computes the dedup key of an entry and stamps an envelope with it into the metadata
of the entry.  A later process decodes the envelopes, replays their keys into a fresh dedup set and
evaluates a policy on the frames.  Where the metadata had a scope from before, an entry without one
is decoded with that scope. -/

namespace MemoryPolicy

open EntryFields (teamHash)

/-- An entry as a hook writes it. -/
structure LifecycleEntry where
  kind : FrameKind
  conversationId : String
  chatRole : String
  scope : Option Scope
  text : String
deriving DecidableEq

namespace LifecycleEntry

def fields (e : LifecycleEntry) : EntryFields :=
  ⟨e.kind.asStr, e.conversationId, e.chatRole, e.scope.map Scope.asStr, e.text⟩

variable (blake3 : List UInt8 → DedupKey)

/-- The envelope that the hook stamps. -/
def metadata (e : LifecycleEntry) : FrameMetadata where
  schemaVersion := 1
  kind := e.kind
  conversationId := e.conversationId
  chatRole := e.chatRole
  dedupKey := hexEncodeKey (e.fields.key blake3)
  scope := e.scope.map Scope.asStr

theorem fields_injective : Function.Injective fields := by
  intro a b same
  obtain ⟨kind, conversationId, chatRole, scope, text⟩ := a
  obtain ⟨kind', conversationId', chatRole', scope', text'⟩ := b
  simp only [fields, EntryFields.mk.injEq, FrameKind.asStr_injective.eq_iff,
    (Option.map_injective Scope.asStr_injective).eq_iff] at same
  obtain ⟨rfl, rfl, rfl, rfl, rfl⟩ := same
  rfl

end LifecycleEntry

/-- A stored entry, with the metadata that it had from others. -/
structure ArchivedEntry where
  entry : LifecycleEntry
  others : StringMap

namespace ArchivedEntry

/-- The scope of the entry, or else the one that its metadata had from others. -/
def scope (a : ArchivedEntry) : Option String :=
  (a.entry.scope.map Scope.asStr).or a.others["scope"]?

variable (blake3 : List UInt8 → DedupKey)

def stored (a : ArchivedEntry) : StringMap := stamp a.others (a.entry.metadata blake3)

/-- The envelope that a later process decodes. -/
def frame (a : ArchivedEntry) : FrameMetadata := { a.entry.metadata blake3 with scope := a.scope }

theorem frame_eq_iff (a : ArchivedEntry) :
    a.frame blake3 = a.entry.metadata blake3 ↔
      (a.entry.scope = none → a.others["scope"]? = none) := by
  cases h : a.entry.scope <;> simp [frame, scope, LifecycleEntry.metadata, h]

end ArchivedEntry

/-- The envelopes of an archive. -/
def decodeAll (fromValue : JsonObject → Except String FrameMetadata) (maps : List StringMap) :
    Except PolicyError (List FrameMetadata) :=
  maps.mapM (FrameMetadata.tryFromMap fromValue)

section

variable {blake3 : List UInt8 → DedupKey} {fromValue : JsonObject → Except String FrameMetadata}

theorem ArchivedEntry.presents (a : ArchivedEntry) : Presents (a.stored blake3) (a.frame blake3) :=
  presents_stamp a.others (a.entry.metadata blake3)

theorem decodeAll_archive (derived : Derived fromValue) (archive : List ArchivedEntry) :
    decodeAll fromValue (archive.map (ArchivedEntry.stored blake3)) =
      .ok (archive.map (ArchivedEntry.frame blake3)) := by
  induction archive with
  | nil => rfl
  | cons a archive ih =>
    have first : FrameMetadata.tryFromMap fromValue (a.stored blake3) = .ok (a.frame blake3) :=
      (tryFromMap_eq_ok derived).mpr a.presents
    rw [decodeAll] at ih ⊢
    rw [List.map_cons, List.mapM_cons, first, ih]
    rfl

theorem dedupKeys_archive (archive : List ArchivedEntry) :
    (archive.map (ArchivedEntry.frame blake3)).map FrameMetadata.dedupKey =
      (archive.map fun a => a.entry.fields.key blake3).map hexEncode := by
  rw [List.map_map, List.map_map]
  rfl

/-- A process that replays the decoded keys of the stored entries is rebuilt from their stamps. -/
theorem rebuilt_of_archive {ι : Type} (derived : Derived fromValue) {s : Process ι}
    {archive : List ArchivedEntry} (stored : s.gate.store = archive.map fun a => a.entry.fields)
    {frames : List FrameMetadata}
    (decoded : decodeAll fromValue (archive.map (ArchivedEntry.stored blake3)) = .ok frames)
    (entries : ι → List EntryFields) :
    s.Rebuilt blake3 (.restart (frames.map FrameMetadata.dedupKey) entries) := by
  obtain rfl := Except.ok.inj ((decodeAll_archive derived archive).symm.trans decoded)
  right
  rw [Gate.stamps, Gate.keys, stored, List.map_map, List.map_map, List.map_map]
  rfl

theorem mem_replay_archive {archive : List ArchivedEntry} {key : DedupKey} :
    key ∈ DedupSet.replay ∅
        ((archive.map (ArchivedEntry.frame blake3)).map FrameMetadata.dedupKey) ↔
      ∃ a ∈ archive, a.entry.fields.key blake3 = key := by
  rw [DedupSet.mem_replay, dedupKeys_archive, DedupSet.exists_denotes_map_hexEncode, List.mem_map]
  simp

/-- A later process decodes the envelopes of all archived entries, and they are as they were stamped
exactly where no entry without a scope had one in its metadata from before.  In any case it rebuilds
from their keys a set that admits none of the entries again, and that admits every other entry whose
fields are unambiguous and whose bytes collide with those of no archived entry. -/
theorem archive_restores (derived : Derived fromValue) (archive : List ArchivedEntry) :
    ∃ frames set,
      decodeAll fromValue (archive.map (ArchivedEntry.stored blake3)) = .ok frames ∧
      (frames = (archive.map fun a => a.entry.metadata blake3) ↔
        ∀ a ∈ archive, a.entry.scope = none → a.others["scope"]? = none) ∧
      DedupSet.new.extendFromSnapshot (frames.map FrameMetadata.dedupKey) = .ok set ∧
      (∀ a ∈ archive, set.contains (a.entry.fields.key blake3) = .ok true) ∧
      ∀ e : LifecycleEntry, e.fields.Unambiguous →
        (∀ a ∈ archive, blake3 a.entry.fields.stream = blake3 e.fields.stream →
          a.entry.fields.stream = e.fields.stream) →
        set.contains (e.fields.key blake3) =
          .ok (decide (e ∈ archive.map ArchivedEntry.entry)) := by
  let frames := archive.map (ArchivedEntry.frame blake3)
  let set : DedupSet := { seen := DedupSet.replay ∅ (frames.map FrameMetadata.dedupKey) }
  have seen : ∀ key, set.contains key =
      .ok (decide (key ∈ DedupSet.replay ∅ (frames.map FrameMetadata.dedupKey))) :=
    DedupSet.contains_of_open rfl
  refine ⟨frames, set, decodeAll_archive derived archive, ?_, rfl, ?_, ?_⟩
  · rw [List.map_inj_left]
    exact forall₂_congr fun a _ => a.frame_eq_iff blake3
  · intro a ha
    rw [seen, decide_eq_true (mem_replay_archive.mpr ⟨a, ha, rfl⟩)]
  · intro e unambiguous apart
    have same : (e.fields.key blake3 ∈
        DedupSet.replay ∅ (frames.map FrameMetadata.dedupKey)) ↔
        e ∈ archive.map ArchivedEntry.entry := by
      rw [mem_replay_archive, List.mem_map]
      constructor
      · rintro ⟨a, ha, key⟩
        rw [EntryFields.key_eq, EntryFields.key_eq] at key
        have fields := unambiguous.eq_of_stream_eq (apart a ha key)
        exact ⟨a, ha, LifecycleEntry.fields_injective fields⟩
      · rintro ⟨a, ha, rfl⟩
        exact ⟨a, ha, rfl⟩
    rw [seen, decide_eq_decide.mpr same]

def greeting : LifecycleEntry :=
  ⟨.demotedMessage, "thread", "user", some (Scope.new "/team/"), "hello"⟩

def recap : LifecycleEntry :=
  ⟨.compactionSummary, "thread", "assistant", some (Scope.new "team"), "greetings"⟩

/-- A recap without a scope is archived over metadata that has one. -/
def teamArchive : List ArchivedEntry :=
  [⟨greeting, (∅ : StringMap).insert "source" "7"⟩, ⟨recap, (∅ : StringMap).insert "scope" "old"⟩,
    ⟨{ recap with scope := none }, (∅ : StringMap).insert "scope" "team"⟩]

/-- While the recap is not archived, the rebuilt set knows the greeting and admits the recap. -/
theorem archive_restores_team :
    ∃ frames set,
      decodeAll readFields ((teamArchive.take 1).map (ArchivedEntry.stored teamHash)) =
        .ok frames ∧
      DedupSet.new.extendFromSnapshot (frames.map FrameMetadata.dedupKey) = .ok set ∧
      set.contains (greeting.fields.key teamHash) = .ok true ∧
      set.contains (recap.fields.key teamHash) = .ok false := by
  obtain ⟨frames, set, decoded, -, replayed, known, admitted⟩ :=
    @archive_restores teamHash _ readFields_derived (teamArchive.take 1)
  have again := known ⟨greeting, _⟩ List.mem_cons_self
  have unambiguous : recap.fields.Unambiguous :=
    ⟨by decide, by unfold EntryFields.NulFree; decide⟩
  have apart : teamHash greeting.fields.stream ≠ teamHash recap.fields.stream := by decide
  have new := admitted recap unambiguous fun a ha same => by
    obtain rfl := List.mem_singleton.mp ha
    exact absurd same apart
  exact ⟨frames, set, decoded, replayed, again, new⟩

end

section

open RetentionPolicy

variable {F32 F64 : Type} [F32Ops F32 F64] [F64Ops F64] {blake3 : List UInt8 → DedupKey}
  {fromValue : JsonObject → Except String FrameMetadata}

/-- The entry is a summary that is decoded with a scope with the segments of `required`. -/
def ArchivedEntry.Summarizes (required : String) (a : ArchivedEntry) : Prop :=
  a.entry.kind = .compactionSummary ∧ a.scope.map scopePath = some (scopePath required)

instance (required : String) (a : ArchivedEntry) : Decidable (a.Summarizes required) :=
  inferInstanceAs (Decidable (_ ∧ _))

theorem filter_drop_perm (required : String) (candidates : List (RetentionCandidate F32)) :
    ((candidates.filter fun c => ¬ InScope required c) ++ candidates.filter fun c =>
        c.metadata.kind ≠ .compactionSummary ∧ InScope required c).Perm
      (candidates.filter fun c =>
        ¬ (c.metadata.kind = .compactionSummary ∧ InScope required c)) := by
  refine List.Perm.trans ?_ (List.filter_append_perm (fun c => ¬ InScope required c) _)
  rw [List.filter_filter, List.filter_filter]
  refine .of_eq (congrArg₂ (· ++ ·) ?_ ?_) <;> apply List.filter_congr <;> intro c _
  · by_cases inside : InScope required c <;> simp [inside]
  · by_cases inside : InScope required c <;> simp [inside]

/-- From the frames of an archive, with any facts that a backend attaches to them, the policy keeps
exactly the summaries that are decoded with the scope, in the order of the archive, and drops the
others, as it decides on each candidate alone.  So it keeps a summary without a scope whose metadata
had that scope from before. -/
theorem archive_summaries (derived : Derived fromValue) (archive : List ArchivedEntry)
    (required : String) {candidates : List (RetentionCandidate F32)}
    (decoded : decodeAll fromValue (archive.map (ArchivedEntry.stored blake3)) =
      .ok (candidates.map RetentionCandidate.metadata)) :
    let report := (summariesOf required).evaluateBatch candidates
    report.keep.map RetentionCandidate.metadata =
        (archive.filter fun a => a.Summarizes required).map (ArchivedEntry.frame blake3) ∧
      (report.drop.map RetentionCandidate.metadata).Perm
        ((archive.filter fun a => ¬ a.Summarizes required).map (ArchivedEntry.frame blake3)) ∧
      report.invalidate = [] ∧ report.defer = [] ∧
      ∀ c ∈ candidates, (summariesOf required).evaluate c = .keep ↔ c ∈ report.keep := by
  have frames : candidates.map RetentionCandidate.metadata =
      archive.map (ArchivedEntry.frame blake3) :=
    Except.ok.inj (decoded.symm.trans (decodeAll_archive derived archive))
  have picks : ∀ p : FrameMetadata → Bool,
      (candidates.filter fun c => p c.metadata).map RetentionCandidate.metadata =
        (archive.filter fun a => p (a.frame blake3)).map (ArchivedEntry.frame blake3) := by
    intro p
    have filtered := congrArg (List.filter p) frames
    rw [List.filter_map, List.filter_map] at filtered
    exact filtered
  rw [evaluateBatch_summariesOf]
  refine ⟨?_, ?_, rfl, rfl, ?_⟩
  · exact picks fun m => m.kind = .compactionSummary ∧
      m.scope.map scopePath = some (scopePath required)
  · refine ((filter_drop_perm required candidates).map _).trans (.of_eq ?_)
    simp only [decide_not]
    exact picks fun m => !decide (m.kind = .compactionSummary ∧
      m.scope.map scopePath = some (scopePath required))
  · intro c hc
    rw [evaluate_summariesOf, List.mem_filter]
    simp [hc]

theorem archive_summaries_team :
    let candidates : List (RetentionCandidate Binary32) := teamArchive.map fun a =>
      .built (a.frame teamHash) [.withSequence 7, .withRetentionLabel "pinned"]
    ((summariesOf "team").evaluateBatch candidates).keep.map RetentionCandidate.metadata =
      (teamArchive.filter fun a => a.Summarizes "team").map (ArchivedEntry.frame teamHash) := by
  intro candidates
  have decoded : decodeAll readFields (teamArchive.map (ArchivedEntry.stored teamHash)) =
      .ok (candidates.map RetentionCandidate.metadata) := by
    rw [decodeAll_archive readFields_derived, List.map_map]
    refine congrArg Except.ok (List.map_congr_left fun a _ => ?_)
    exact (RetentionCandidate.metadata_built _ _).symm
  exact (archive_summaries readFields_derived teamArchive "team" decoded).1

end

end MemoryPolicy

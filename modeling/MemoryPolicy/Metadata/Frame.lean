/-! The metadata envelope that memory lifecycle hooks stamp into a backend's entries
(`src/metadata.rs`), and the error type of the policy helpers (`src/error.rs`). -/

namespace MemoryPolicy

inductive PolicyError
  | notFound (key : String)
  | invalidMetadata (message : String)
  | poisoned
deriving DecidableEq, Repr

inductive FrameKind
  | demotedMessage
  | compactionSummary
deriving DecidableEq, Repr

structure FrameMetadata where
  schemaVersion : UInt8
  kind : FrameKind
  conversationId : String
  chatRole : String
  dedupKey : String
  scope : Option String
deriving DecidableEq, Repr

end MemoryPolicy

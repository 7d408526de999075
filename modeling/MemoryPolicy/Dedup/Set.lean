import MemoryPolicy.Dedup.Key
import MemoryPolicy.Metadata.Frame
import Mathlib.Data.Finset.Insert

/-! The set of dedup keys of `src/dedup.rs` behind its lock.  Each operation holds the lock from
its first read to its last write, so it is one step; on a poisoned lock it changes nothing. -/

namespace MemoryPolicy

/-- `DedupSet`.  A lock is poisoned when a holder has panicked. -/
structure DedupSet where
  seen : Finset DedupKey := ∅
  poisoned : Bool := false
deriving DecidableEq

namespace DedupSet

def new : DedupSet := {}

def contains (self : DedupSet) (key : DedupKey) : Except PolicyError Bool :=
  if self.poisoned then .error .poisoned else .ok (decide (key ∈ self.seen))

/-- `DedupSet::insert`, with the set it leaves. -/
def insert (self : DedupSet) (key : DedupKey) : Except PolicyError DedupSet :=
  if self.poisoned then .error .poisoned else .ok { self with seen := Insert.insert key self.seen }

variable {self : DedupSet}

theorem contains_of_open (h : self.poisoned = false) (key : DedupKey) :
    self.contains key = .ok (decide (key ∈ self.seen)) := by
  simp [contains, h]

theorem insert_of_open (h : self.poisoned = false) (key : DedupKey) :
    self.insert key = .ok { self with seen := Insert.insert key self.seen } := by
  simp [insert, h]

end DedupSet

end MemoryPolicy

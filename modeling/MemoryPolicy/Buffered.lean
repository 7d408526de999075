import Mathlib.Data.List.Basic

/-! Buffered logs: entries under keys, as the operations have left them and as they are durable.  A
write or a deletion may be durable at once or wait for a commit.  What is durable is a front of the
log as long as nothing is deleted, and it never shrinks. -/

namespace Buffered

variable {κ α : Type*}

structure Log (κ α : Type*) where
  current : List (κ × α) := []
  durable : List (κ × α) := []

namespace Log

/-- After a write or a deletion, the durable entries are those of before or all of now. -/
def Flushes (l l' : Log κ α) : Prop := l'.durable = l.durable ∨ l'.durable = l'.current

structure Writes (key : κ) (a : α) (l l' : Log κ α) : Prop where
  current : l'.current = l.current ++ [(key, a)]
  flushes : l.Flushes l'

structure Deletes [DecidableEq κ] (key : κ) (l l' : Log κ α) : Prop where
  current : l'.current = l.current.filter fun entry => entry.1 ≠ key
  flushes : l.Flushes l'

def commit (l : Log κ α) : Log κ α := { l with durable := l.current }

/-- The durable entries are a front of all. -/
def Ahead (l : Log κ α) : Prop := l.durable <+: l.current

variable {l l' : Log κ α} {key : κ} {a : α} {entries : List (κ × α)}

theorem Writes.ahead (h : Writes key a l l') (ahead : l.Ahead) : l'.Ahead := by
  rcases h.flushes with same | all
  · rw [Ahead, same, h.current]
    exact ahead.trans (List.prefix_append _ _)
  · unfold Ahead
    exact all ▸ List.prefix_refl _

theorem ahead_commit (l : Log κ α) : l.commit.Ahead := List.prefix_refl _

/-- A write keeps what is durable. -/
theorem Writes.durable (h : Writes key a l l') (ahead : l.Ahead)
    (kept : entries.Sublist l.durable) : entries.Sublist l'.durable := by
  rcases h.flushes with same | all
  · rwa [same]
  · rw [all, h.current]
    exact (kept.trans ahead.sublist).trans (List.sublist_append_left _ _)

theorem durable_commit (ahead : l.Ahead) (kept : entries.Sublist l.durable) :
    entries.Sublist l.commit.durable :=
  kept.trans ahead.sublist

end Log

end Buffered

import MemoryPolicy.Buffered

/-! The capability traits of `src/store.rs`, and the generic helper `persist_all` of its tests.  A
backend is known by its operations only; what is asked of it is that it simulates a buffered log, as
the store of the tests does. -/

namespace MemoryPolicy

open Buffered

variable {σ Options Id Error : Type}

/-- An operation of a backend: it may fail, and it leaves a state in either case. -/
abbrev Operation (σ Error α : Type) := ExceptT Error (StateM σ) α

/-- The result of an operation, and the state that it leaves. -/
def perform {α : Type} (operation : Operation σ Error α) (s : σ) : Except Error α × σ :=
  operation.run.run s

structure TextWriter (σ Options Id Error : Type) where
  writeText : String → Options → Operation σ Error Id

structure Committable (σ Error : Type) where
  commit : Operation σ Error Unit

structure TextDeleter (σ Id Error : Type) where
  deleteText : Id → Operation σ Error Unit

/-- A `TextWriter` that is `Committable`. -/
structure DurableWriter (σ Options Id Error : Type) extends TextWriter σ Options Id Error,
  Committable σ Error

/-- The loop of `persist_all`. -/
def writeAll (store : DurableWriter σ Unit Id Error) :
    List String → List Id → Operation σ Error (List Id)
  | [], ids => pure ids
  | line :: lines, ids => do
    let id ← store.writeText line ()
    writeAll store lines (ids ++ [id])

/-- The helper `persist_all` of the tests of the traits. -/
def persistAll (store : DurableWriter σ Unit Id Error) (lines : List String) :
    Operation σ Error (List Id) := do
  let ids ← writeAll store lines []
  store.commit
  return ids

section Perform

variable {α β : Type} {operation : Operation σ Error α} {next : α → Operation σ Error β}
  {s t : σ}

theorem perform_bind : perform (operation >>= next) s =
    match perform operation s with
    | (.ok a, u) => perform (next a) u
    | (.error e, u) => (.error e, u) := by
  simp only [perform, ExceptT.run_bind, StateT.run_bind]
  rcases operation.run.run s with ⟨_ | _, u⟩ <;> rfl

theorem perform_bind_ok {b : β} : perform (operation >>= next) s = (.ok b, t) ↔
    ∃ a u, perform operation s = (.ok a, u) ∧ perform (next a) u = (.ok b, t) := by
  rw [perform_bind]
  rcases perform operation s with ⟨_ | _, u⟩ <;> simp

end Perform

/-- The backend simulates a buffered log: a write adds an entry, a commit makes all entries durable,
and an operation that fails leaves the log as it was. -/
structure Keeps (store : DurableWriter σ Options Id Error) (R : σ → Log Id String → Prop) :
    Prop where
  write : ∀ {s l text options id t}, R s l →
    perform (store.writeText text options) s = (.ok id, t) → ∃ l', Log.Writes id text l l' ∧ R t l'
  write_error : ∀ {s l text options e t}, R s l →
    perform (store.writeText text options) s = (.error e, t) → R t l
  commit : ∀ {s l t}, R s l → perform store.commit s = (.ok (), t) → R t l.commit
  commit_error : ∀ {s l e t}, R s l → perform store.commit s = (.error e, t) → R t l

/-! ### The store of the tests -/

structure TestErr

/-- `CountingStore`: two vectors, each behind a lock. -/
structure CountingStore where
  pending : List String := []
  committed : List String := []
  pendingPoisoned : Bool := false
  committedPoisoned : Bool := false

namespace CountingStore

def store : DurableWriter CountingStore Unit Nat TestErr where
  writeText text _ := do
    let self ← get
    if self.pendingPoisoned then throw {}
    let guard := self.pending ++ [text]
    set { self with pending := guard }
    return guard.length - 1
  commit := do
    let self ← get
    if self.pendingPoisoned then throw {}
    if self.committedPoisoned then throw {}
    set { self with committed := self.committed ++ self.pending, pending := [] }

/-- The committed texts are durable, under identifiers that the store has forgotten; the pending
ones have their positions as identifiers. -/
def Shows (self : CountingStore) (l : Log Nat String) : Prop :=
  l.durable.map Prod.snd = self.committed ∧
    l.current = l.durable ++ self.pending.zipIdx.map Prod.swap

theorem perform_writeText (self : CountingStore) (text : String) (options : Unit) :
    perform (store.writeText text options) self =
      if self.pendingPoisoned then (.error {}, self)
      else (.ok self.pending.length, { self with pending := self.pending ++ [text] }) := by
  obtain ⟨pending, committed, pendingPoisoned, committedPoisoned⟩ := self
  cases pendingPoisoned with
  | false =>
    show (Except.ok ((pending ++ [text]).length - 1), _) = _
    simp
  | true => rfl

theorem perform_commit (self : CountingStore) :
    perform store.commit self =
      if self.pendingPoisoned ∨ self.committedPoisoned then (.error {}, self)
      else (.ok (), { self with committed := self.committed ++ self.pending, pending := [] }) := by
  obtain ⟨pending, committed, pendingPoisoned, committedPoisoned⟩ := self
  cases pendingPoisoned <;> cases committedPoisoned <;> rfl

theorem keeps : Keeps store Shows where
  write := by
    intro s l text options id t shows done
    rw [perform_writeText] at done
    split at done
    · exact nomatch congrArg Prod.fst done
    · simp only [Prod.mk.injEq, Except.ok.injEq] at done
      obtain ⟨rfl, rfl⟩ := done
      refine ⟨{ l with current := l.current ++ [(s.pending.length, text)] }, ⟨rfl, .inl rfl⟩,
        shows.1, ?_⟩
      simp [shows.2, List.zipIdx_append]
  write_error := by
    intro s l text options e t shows failed
    rw [perform_writeText] at failed
    split at failed
    · exact (Prod.mk.inj failed).2 ▸ shows
    · exact nomatch congrArg Prod.fst failed
  commit := by
    intro s l t shows done
    rw [perform_commit] at done
    split at done
    · exact nomatch congrArg Prod.fst done
    · obtain rfl := (Prod.mk.inj done).2
      refine ⟨?_, by simp [Log.commit]⟩
      show l.current.map Prod.snd = s.committed ++ s.pending
      rw [shows.2, List.map_append, shows.1, List.map_map]
      exact congrArg _ (List.zipIdx_map_fst ..)
  commit_error := by
    intro s l e t shows failed
    rw [perform_commit] at failed
    split at failed
    · exact (Prod.mk.inj failed).2 ▸ shows
    · exact nomatch congrArg Prod.fst failed

end CountingStore

end MemoryPolicy

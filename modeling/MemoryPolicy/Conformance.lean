import MemoryPolicy.Store

/-! The conformance harness of `src/conformance.rs`, run on a backend that simulates a buffered log
with deletion.  The harness tells whether its two writes get different identifiers; where it ends
well, it leaves its second record durable, and of the entries before it those that do not share the
identifier of its first record. -/

namespace MemoryPolicy

open Buffered

variable {σ Opts Id Err : Type}

/-- A backend with the three capabilities that the harness asks for. -/
structure Backend (σ Opts Id Err : Type) extends DurableWriter σ Opts Id Err, TextDeleter σ Id Err

/-- How the harness stops: with an error of the backend, or by the panic of its assertion. -/
inductive Failure (Err : Type)
  | error (e : Err)
  | panic

/-- The operator `?` on an operation of the backend. -/
def tried {α : Type} (operation : Operation σ Err α) : Operation σ (Failure Err) α :=
  operation.adapt .error

/-- `assert_ne!` -/
def assertNe [DecidableEq Id] (left right : Id) : Operation σ (Failure Err) Unit :=
  if left = right then throw .panic else pure ()

/-- `verify_backend` -/
def verifyBackend [DecidableEq Id] (store : Backend σ Opts Id Err) (defaultOptions : Opts) :
    Operation σ (Failure Err) Unit := do
  let id₁ ← tried (store.writeText "conformance record 1" defaultOptions)
  let id₂ ← tried (store.writeText "conformance record 2" defaultOptions)
  assertNe id₁ id₂
  tried store.commit
  tried (store.deleteText id₁)
  tried store.commit

/-- The backend simulates a buffered log, and a deletion removes the entries of an identifier. -/
structure KeepsDeleting [DecidableEq Id] (store : Backend σ Opts Id Err)
    (R : σ → Log Id String → Prop) : Prop where
  keeps : Keeps store.toDurableWriter R
  delete : ∀ {s l id t}, R s l → perform (store.deleteText id) s = (.ok (), t) →
    ∃ l', Log.Deletes id l l' ∧ R t l'

theorem perform_tried {α : Type} (operation : Operation σ Err α) (s : σ) :
    perform (tried operation) s =
      ((perform operation s).1.mapError .error, (perform operation s).2) := rfl

theorem perform_tried_ok {α : Type} {operation : Operation σ Err α} {s t : σ} {a : α} :
    perform (tried operation) s = (.ok a, t) ↔ perform operation s = (.ok a, t) := by
  rw [perform_tried]
  rcases perform operation s with ⟨_ | _, u⟩ <;> simp [Except.mapError]

theorem perform_tried_ne_panic {α : Type} {operation : Operation σ Err α} {s t : σ} :
    perform (tried operation) s ≠ (.error .panic, t) := by
  rw [perform_tried]
  rcases perform operation s with ⟨_ | _, u⟩ <;> simp [Except.mapError]

theorem perform_bind_panic {α β : Type} {operation : Operation σ Err α}
    {next : α → Operation σ (Failure Err) β} {s t : σ} :
    perform (tried operation >>= next) s = (.error .panic, t) ↔
      ∃ a u, perform operation s = (.ok a, u) ∧ perform (next a) u = (.error .panic, t) := by
  rw [perform_bind, perform_tried]
  rcases perform operation s with ⟨_ | _, u⟩ <;> simp [Except.mapError]

section

variable [DecidableEq Id] {store : Backend σ Opts Id Err} {R : σ → Log Id String → Prop}
  {s t : σ} {l : Log Id String} {options : Opts}

theorem perform_assertNe (left right : Id) :
    perform (assertNe left right : Operation σ (Failure Err) Unit) s =
      (if left = right then .error .panic else .ok (), s) := by
  unfold assertNe
  split <;> rfl

/-- What the harness leaves of a log: its second record, and the entries with other identifiers than
that of its first record. -/
def leftOver (l : Log Id String) (id₁ id₂ : Id) : List (Id × String) :=
  (l.current.filter fun entry => entry.1 ≠ id₁) ++ [(id₂, "conformance record 2")]

theorem filter_records (l : Log Id String) {id₁ id₂ : Id} (distinct : id₁ ≠ id₂) :
    ((l.current ++ [(id₁, "conformance record 1"), (id₂, "conformance record 2")]).filter
      fun entry => entry.1 ≠ id₁) = leftOver l id₁ id₂ := by
  simp [leftOver, distinct.symm]

/-- The two writes of the harness succeed, with these identifiers. -/
def Wrote (store : Backend σ Opts Id Err) (options : Opts) (s : σ) (id₁ id₂ : Id) (t : σ) : Prop :=
  ∃ u, perform (store.writeText "conformance record 1" options) s = (.ok id₁, u) ∧
    perform (store.writeText "conformance record 2" options) u = (.ok id₂, t)

theorem Wrote.records {id₁ id₂ : Id} (wrote : Wrote store options s id₁ id₂ t)
    (keeps : KeepsDeleting store R) (related : R s l) :
    ∃ l', R t l' ∧ l'.current = l.current ++
      [(id₁, "conformance record 1"), (id₂, "conformance record 2")] := by
  obtain ⟨u, write₁, write₂⟩ := wrote
  obtain ⟨l₁, writes₁, related⟩ := keeps.keeps.write related write₁
  obtain ⟨l₂, writes₂, related⟩ := keeps.keeps.write related write₂
  refine ⟨l₂, related, ?_⟩
  rw [writes₂.current, writes₁.current, List.append_assoc]
  rfl

/-- The assertion compares the identifiers of the two writes. -/
theorem verifyBackend_panics :
    perform (verifyBackend store options) s = (.error .panic, t) ↔
      ∃ id, Wrote store options s id id t := by
  constructor
  · intro panicked
    obtain ⟨id₁, s₁, write₁, panicked⟩ := perform_bind_panic.mp panicked
    obtain ⟨id₂, s₂, write₂, panicked⟩ := perform_bind_panic.mp panicked
    rw [perform_bind, perform_assertNe] at panicked
    by_cases same : id₁ = id₂
    · rw [if_pos same] at panicked
      obtain rfl := (Prod.mk.inj panicked).2
      exact ⟨id₁, s₁, write₁, same ▸ write₂⟩
    · rw [if_neg same] at panicked
      obtain ⟨⟨⟩, s₃, -, panicked⟩ := perform_bind_panic.mp panicked
      obtain ⟨⟨⟩, s₄, -, panicked⟩ := perform_bind_panic.mp panicked
      exact absurd panicked perform_tried_ne_panic
  · rintro ⟨id, u, write₁, write₂⟩
    refine perform_bind_panic.mpr ⟨id, u, write₁, perform_bind_panic.mpr ⟨id, t, write₂, ?_⟩⟩
    rw [perform_bind, perform_assertNe, if_pos rfl]

/-- On a backend that keeps its entries, the harness ends well only where its two writes get
different identifiers, and then leaves its second record and the entries before it that do not have
the identifier of its first record, all durable; it panics exactly where its two writes get the same
identifier, and then leaves all entries before it and both records. -/
theorem verifyBackend_leaves (keeps : KeepsDeleting store R) (related : R s l) :
    (∀ t, perform (verifyBackend store options) s = (.ok (), t) →
      ∃ id₁ id₂ u, Wrote store options s id₁ id₂ u ∧ id₁ ≠ id₂ ∧
        R t ⟨leftOver l id₁ id₂, leftOver l id₁ id₂⟩) ∧
    (∀ t, perform (verifyBackend store options) s = (.error .panic, t) ↔
      ∃ id, Wrote store options s id id t) ∧
    ∀ id t, Wrote store options s id id t → ∃ l', R t l' ∧ l'.current = l.current ++
      [(id, "conformance record 1"), (id, "conformance record 2")] := by
  refine ⟨?_, fun t => verifyBackend_panics, fun id t wrote => wrote.records keeps related⟩
  intro t ok
  obtain ⟨id₁, s₁, write₁, ok⟩ := perform_bind_ok.mp ok
  obtain ⟨id₂, s₂, write₂, ok⟩ := perform_bind_ok.mp ok
  obtain ⟨⟨⟩, s₃, differ, ok⟩ := perform_bind_ok.mp ok
  obtain ⟨⟨⟩, s₄, commit₁, ok⟩ := perform_bind_ok.mp ok
  obtain ⟨⟨⟩, s₅, delete, commit₂⟩ := perform_bind_ok.mp ok
  simp only [perform_tried_ok] at write₁ write₂ commit₁ delete commit₂
  have wrote : Wrote store options s id₁ id₂ s₂ := ⟨s₁, write₁, write₂⟩
  rw [perform_assertNe] at differ
  obtain ⟨distinct, rfl⟩ : id₁ ≠ id₂ ∧ s₂ = s₃ := by
    by_cases same : id₁ = id₂
    · simp [same] at differ
    · exact ⟨same, (Prod.mk.inj differ).2⟩
  obtain ⟨l₂, related, records⟩ := wrote.records keeps related
  obtain ⟨l₅, deletes, related⟩ := keeps.delete (keeps.keeps.commit related commit₁) delete
  have left : l₅.current = leftOver l id₁ id₂ := by
    rw [deletes.current, Log.commit, records, filter_records l distinct]
  have final := keeps.keeps.commit related commit₂
  rw [Log.commit, left] at final
  exact ⟨id₁, id₂, s₂, wrote, distinct, final⟩

end

/-- A backend that holds the log itself and numbers its writes. -/
structure NumberedLog where
  next : Nat := 0
  log : Log Nat String := {}

namespace NumberedLog

def backend : Backend NumberedLog Unit Nat Empty where
  writeText text _ := modifyGet fun ⟨next, log⟩ =>
    (next, ⟨next + 1, { log with current := log.current ++ [(next, text)] }⟩)
  commit := modify fun self => { self with log := self.log.commit }
  deleteText id := modify fun self =>
    { self with log.current := self.log.current.filter fun entry => entry.1 ≠ id }

theorem keepsDeleting : KeepsDeleting backend fun s l => s.log = l where
  keeps :=
    { write := by
        rintro s _ text options _ _ rfl ⟨⟩
        exact ⟨⟨s.log.current ++ [(s.next, text)], s.log.durable⟩, ⟨rfl, .inl rfl⟩, rfl⟩
      write_error := fun _ failed => nomatch congrArg Prod.fst failed
      commit := by
        rintro s _ _ rfl ⟨⟩
        rfl
      commit_error := fun _ failed => nomatch congrArg Prod.fst failed }
  delete := by
    rintro s _ id _ rfl ⟨⟩
    exact ⟨⟨s.log.current.filter fun entry => entry.1 ≠ id, s.log.durable⟩, ⟨rfl, .inl rfl⟩, rfl⟩

end NumberedLog

theorem verifyBackend_leaves_numbered :
    ∃ id₁ id₂ u, Wrote NumberedLog.backend () {} id₁ id₂ u ∧ id₁ ≠ id₂ ∧
      (perform (verifyBackend NumberedLog.backend ()) {}).2.log =
        ⟨leftOver {} id₁ id₂, leftOver {} id₁ id₂⟩ := by
  have fresh : NumberedLog.log {} = {} := rfl
  have ended : perform (verifyBackend NumberedLog.backend ()) {} =
      (.ok (), (perform (verifyBackend NumberedLog.backend ()) {}).2) := rfl
  exact (verifyBackend_leaves NumberedLog.keepsDeleting fresh).1 _ ended

end MemoryPolicy

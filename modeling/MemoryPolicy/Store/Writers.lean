import MemoryPolicy.Store
import MemoryPolicy.Transition
import Mathlib.Logic.Function.Basic

/-! Helpers that share a backend.  Each runs `persist_all` and waits for one operation at a time, so
that the operations of any number of helpers interleave. -/

namespace MemoryPolicy

open Buffered Transition

variable {σ Id Error ι : Type}

/-- A run of `persist_all`, between two operations. -/
structure Helper (Id Error : Type) where
  lines : List String
  ids : List Id := []
  result : Option (Except Error (List Id)) := none

/-- What the helper has written. -/
def Helper.entries (self : Helper Id Error) : List (Id × String) := self.ids.zip self.lines

def Helper.push (self : Helper Id Error) (id : Id) : Helper Id Error :=
  { self with ids := self.ids ++ [id] }

def Helper.finish (self : Helper Id Error) (result : Except Error (List Id)) : Helper Id Error :=
  { self with result := some result }

/-- Where the loop of `persist_all` leaves a helper. -/
def Helper.Looped (lines : List String) (self : Helper Id Error) :
    Except Error (List Id) → Prop
  | .ok ids => self = { lines, ids } ∧ lines.drop ids.length = []
  | .error e => self.result = some (.error e)

/-- The helpers at a backend, with all that they have written, in order. -/
structure Writers (σ ι Id Error : Type) where
  store : σ
  helpers : ι → Helper Id Error
  written : List (ι × Id × String) := []

namespace Writers

variable [DecidableEq ι]

def setHelper (s : Writers σ ι Id Error) (i : ι) (helper : Helper Id Error) :
    Writers σ ι Id Error :=
  { s with helpers := Function.update s.helpers i helper }

/-- The next operation of a helper. -/
def step (store : DurableWriter σ Unit Id Error) (s : Writers σ ι Id Error) (i : ι) :
    Option (Writers σ ι Id Error) :=
  let helper := s.helpers i
  match helper.result with
  | some _ => none
  | none =>
    match helper.lines.drop helper.ids.length with
    | line :: _ =>
      match perform (store.writeText line ()) s.store with
      | (.ok id, u) =>
        some ({ s with store := u, written := s.written ++ [(i, id, line)] }.setHelper i
          (helper.push id))
      | (.error e, u) => some ({ s with store := u }.setHelper i (helper.finish (.error e)))
    | [] =>
      match perform store.commit s.store with
      | (.ok (), u) =>
        some ({ s with store := u }.setHelper i (helper.finish (.ok helper.ids)))
      | (.error e, u) => some ({ s with store := u }.setHelper i (helper.finish (.error e)))

def start (store : σ) (lines : ι → List String) : Writers σ ι Id Error where
  store := store
  helpers i := { lines := lines i }

end Writers

namespace Writers

variable [DecidableEq ι] {store : DurableWriter σ Unit Id Error} {R : σ → Log Id String → Prop}
  {s t : Writers σ ι Id Error} {i : ι}

/-- What the next operation of a helper does. -/
inductive Effect (store : DurableWriter σ Unit Id Error) (s : Writers σ ι Id Error) (i : ι) :
    Writers σ ι Id Error → Prop
  | wrote {line : String} {rest : List String} {id : Id} {u : σ}
      (next : (s.helpers i).lines.drop (s.helpers i).ids.length = line :: rest)
      (done : perform (store.writeText line ()) s.store = (.ok id, u)) :
      Effect store s i ({ s with store := u, written := s.written ++ [(i, id, line)] }.setHelper i
        ((s.helpers i).push id))
  | writeFailed {line : String} {e : Error} {u : σ}
      (done : perform (store.writeText line ()) s.store = (.error e, u)) :
      Effect store s i ({ s with store := u }.setHelper i ((s.helpers i).finish (.error e)))
  | committed {u : σ} (next : (s.helpers i).lines.drop (s.helpers i).ids.length = [])
      (done : perform store.commit s.store = (.ok (), u)) :
      Effect store s i ({ s with store := u }.setHelper i
        ((s.helpers i).finish (.ok (s.helpers i).ids)))
  | commitFailed {e : Error} {u : σ} (done : perform store.commit s.store = (.error e, u)) :
      Effect store s i ({ s with store := u }.setHelper i ((s.helpers i).finish (.error e)))

theorem effect_of_step (taken : s.step store i = some t) :
    (s.helpers i).result = none ∧ Effect store s i t := by
  unfold step at taken
  cases running : (s.helpers i).result with
  | some r => simp [running] at taken
  | none =>
    refine ⟨rfl, ?_⟩
    simp only [running] at taken
    cases next : (s.helpers i).lines.drop (s.helpers i).ids.length with
    | cons line rest =>
      rcases done : perform (store.writeText line ()) s.store with ⟨e | id, u⟩
      · simp only [next, done, Option.some.injEq] at taken
        exact taken ▸ .writeFailed done
      · simp only [next, done, Option.some.injEq] at taken
        exact taken ▸ .wrote next done
    | nil =>
      rcases done : perform store.commit s.store with ⟨e | ⟨⟩, u⟩
      · simp only [next, done, Option.some.injEq] at taken
        exact taken ▸ .commitFailed done
      · simp only [next, done, Option.some.injEq] at taken
        exact taken ▸ .committed next done

/-- The log of the backend, given the log at the start: all that was written follows in order, each
helper has written a front of its lines once and in order, and all the lines of a helper that has
returned `Ok` are durable under the identifiers that it returned. -/
structure Persisted (first l : Log Id String) (lines : ι → List String)
    (s : Writers σ ι Id Error) : Prop where
  current : l.current = first.current ++ s.written.map Prod.snd
  ahead : l.Ahead
  helpers : ∀ i, (s.helpers i).lines = lines i
  within : ∀ i, (s.helpers i).ids.length ≤ (lines i).length
  writes : ∀ i, (s.written.filter fun w => w.1 = i).map Prod.snd = (s.helpers i).entries
  returned : ∀ i ids, (s.helpers i).result = some (.ok ids) →
    ids = (s.helpers i).ids ∧ ids.length = (lines i).length ∧
      (s.helpers i).entries.Sublist l.durable

theorem persisted_start {first : Log Id String} (ahead : first.Ahead) (state : σ)
    (lines : ι → List String) :
    Persisted first first lines (start state lines : Writers σ ι Id Error) where
  current := (List.append_nil _).symm
  ahead := ahead
  helpers _ := rfl
  within _ := Nat.zero_le _
  writes _ := rfl
  returned _ _ h := nomatch h

theorem entries_push {helper : Helper Id Error} {line : String} {rest : List String} {id : Id}
    (next : helper.lines.drop helper.ids.length = line :: rest) :
    (helper.push id).entries = helper.entries ++ [(id, line)] ∧
      helper.ids.length < helper.lines.length := by
  have room : helper.ids.length < helper.lines.length := by
    have := congrArg List.length next
    rw [List.length_drop, List.length_cons] at this
    omega
  have front : helper.ids.length = (helper.lines.take helper.ids.length).length := by
    rw [List.length_take]
    omega
  have split := List.take_append_drop helper.ids.length helper.lines
  rw [next] at split
  refine ⟨?_, room⟩
  show (helper.ids ++ [id]).zip helper.lines = helper.ids.zip helper.lines ++ [(id, line)]
  conv_lhs => rw [← split, List.zip_append front]
  conv_rhs => rw [← split]
  rw [← List.append_nil helper.ids, List.zip_append (by simpa using front)]
  simp

variable {first l : Log Id String} {lines : ι → List String}

theorem Persisted.finish (h : Persisted first l lines s) (l' : Log Id String)
    (current : l'.current = l.current) (ahead : l'.Ahead)
    (grows : ∀ {entries : List (Id × String)}, entries.Sublist l.durable →
      entries.Sublist l'.durable) {u : σ} {result : Except Error (List Id)}
    (returns : ∀ ids, result = .ok ids → ids = (s.helpers i).ids ∧ ids.length = (lines i).length ∧
      (s.helpers i).entries.Sublist l'.durable) :
    Persisted first l' lines ({ s with store := u }.setHelper i ((s.helpers i).finish result)) := by
  have same : ∀ j, (Function.update s.helpers i ((s.helpers i).finish result) j).lines =
      (s.helpers j).lines ∧ (Function.update s.helpers i ((s.helpers i).finish result) j).ids =
      (s.helpers j).ids := by
    intro j
    by_cases hj : j = i
    · subst hj
      rw [Function.update_self]
      exact ⟨rfl, rfl⟩
    · rw [Function.update_of_ne hj]
      exact ⟨rfl, rfl⟩
  refine ⟨current.trans h.current, ahead, ?_, ?_, ?_, ?_⟩
  · exact fun j => (same j).1.trans (h.helpers j)
  · exact fun j => (same j).2 ▸ h.within j
  · intro j
    rw [Helper.entries, setHelper, (same j).1, (same j).2]
    exact h.writes j
  · intro j ids done
    rw [Helper.entries, setHelper, (same j).1, (same j).2]
    by_cases hj : j = i
    · subst hj
      simp only [setHelper, Function.update_self, Helper.finish, Option.some.injEq] at done
      exact returns ids done
    · simp only [setHelper, Function.update_of_ne hj] at done
      obtain ⟨returned, length, kept⟩ := h.returned j ids done
      exact ⟨returned, length, grows kept⟩

theorem Persisted.push (h : Persisted first l lines s) (running : (s.helpers i).result = none)
    {line : String} {rest : List String} {id : Id} {l' : Log Id String} {u : σ}
    (next : (s.helpers i).lines.drop (s.helpers i).ids.length = line :: rest)
    (writes : Log.Writes id line l l') :
    Persisted first l' lines
      ({ s with store := u, written := s.written ++ [(i, id, line)] }.setHelper i
        ((s.helpers i).push id)) := by
  obtain ⟨entries, room⟩ := @entries_push _ _ (s.helpers i) line rest id next
  refine ⟨?_, writes.ahead h.ahead, ?_, ?_, ?_, ?_⟩
  · rw [writes.current, h.current, List.append_assoc]
    simp [setHelper]
  · intro j
    by_cases hj : j = i
    · subst hj
      simpa [setHelper, Helper.push] using h.helpers j
    · simpa [setHelper, Function.update_of_ne hj] using h.helpers j
  · intro j
    by_cases hj : j = i
    · subst hj
      rw [h.helpers j] at room
      simpa [setHelper, Helper.push] using Nat.succ_le_of_lt room
    · simpa [setHelper, Function.update_of_ne hj] using h.within j
  · intro j
    by_cases hj : j = i
    · subst hj
      simp [setHelper, h.writes j, entries]
    · have other : ¬ i = j := fun same => hj same.symm
      simpa [setHelper, Function.update_of_ne hj, other] using h.writes j
  · intro j ids done
    by_cases hj : j = i
    · subst hj
      simp [setHelper, Helper.push, running] at done
    · simp only [setHelper, Function.update_of_ne hj] at done ⊢
      obtain ⟨returned, length, kept⟩ := h.returned j ids done
      exact ⟨returned, length, writes.durable h.ahead kept⟩

theorem Persisted.step (keeps : Keeps store R) (related : R s.store l)
    (h : Persisted first l lines s) (taken : s.step store i = some t) :
    ∃ l', R t.store l' ∧ Persisted first l' lines t := by
  obtain ⟨running, effect⟩ := effect_of_step taken
  cases effect with
  | wrote next done =>
    obtain ⟨l', writes, related⟩ := keeps.write related done
    exact ⟨l', related, h.push running next writes⟩
  | writeFailed done =>
    exact ⟨l, keeps.write_error related done, h.finish l rfl h.ahead (fun kept => kept) nofun⟩
  | committed next done =>
    refine ⟨l.commit, keeps.commit related done, ?_⟩
    refine h.finish l.commit rfl l.ahead_commit (Log.durable_commit h.ahead) ?_
    rintro ids ⟨⟩
    have enough : (lines i).length ≤ (s.helpers i).ids.length := by
      rw [← h.helpers i]
      exact List.drop_eq_nil_iff.mp next
    refine ⟨rfl, Nat.le_antisymm (h.within i) enough, ?_⟩
    show (s.helpers i).entries.Sublist l.current
    rw [← h.writes i, h.current]
    exact (List.filter_sublist.map _).trans (List.sublist_append_right _ _)
  | commitFailed done =>
    exact ⟨l, keeps.commit_error related done, h.finish l rfl h.ahead (fun kept => kept) nofun⟩

/-- However the operations of any number of helpers interleave on a backend, and whatever fails, no
write is lost, repeated or reordered, and a helper that returns `Ok` has all its lines durable. -/
theorem persisted_of_run (keeps : Keeps store R) {state : σ} (related : R state first)
    (ahead : first.Ahead) (run : Free (step store) (start state lines) s) :
    ∃ l, R s.store l ∧ Persisted first l lines s := by
  let I (s : Writers σ ι Id Error) : Prop := ∃ l, R s.store l ∧ Persisted first l lines s
  have began : I (start state lines) := ⟨first, related, persisted_start ahead state lines⟩
  refine @Reaches.invariant _ _ _ _ _ _ I run began ?_
  rintro s i t ⟨l, related, h⟩ - taken
  exact h.step keeps related taken

def turns : List Bool := [true, false, false, true, true]

/-- Two helpers take turns at the store of the tests, and one of them commits for both. -/
theorem persisted_of_run_turns :
    let lines (first : Bool) : List String := if first then ["alpha", "beta"] else ["gamma"]
    ∃ (s : Writers CountingStore Bool Nat TestErr) (l : Log Nat String),
      s.store.committed = ["alpha", "gamma", "beta"] ∧ s.store.Shows l ∧
        Persisted {} l lines s := by
  intro lines
  let ran := run (step CountingStore.store) (fun _ _ => True) (start {} lines) turns
  have committed : ran.map (fun s => s.store.committed) = some ["alpha", "gamma", "beta"] := rfl
  obtain ⟨s, taken, commits⟩ := Option.map_eq_some_iff.mp committed
  have fresh : CountingStore.Shows {} {} := ⟨rfl, rfl⟩
  obtain ⟨l, shows, persisted⟩ := persisted_of_run CountingStore.keeps fresh (List.prefix_refl _)
    (reaches_of_run .refl taken)
  exact ⟨s, l, commits, shows, persisted⟩

/-- The store of the tests has committed all lines of a helper that has returned `Ok`, in order. -/
theorem committed_of_run {lines : ι → List String} {s : Writers CountingStore ι Nat TestErr}
    (run : Free (step CountingStore.store) (start {} lines) s) {i : ι} {ids : List Nat}
    (done : (s.helpers i).result = some (.ok ids)) :
    ids.length = (lines i).length ∧ (lines i).Sublist s.store.committed := by
  let I (s : Writers CountingStore ι Nat TestErr) : Prop :=
    ∃ l, s.store.Shows l ∧ Persisted {} l lines s
  have fresh : Log.Ahead (κ := Nat) (α := String) {} := List.prefix_refl _
  have began : I (start {} lines) := ⟨{}, ⟨rfl, rfl⟩, persisted_start fresh _ lines⟩
  obtain ⟨l, ⟨committed, -⟩, persisted⟩ := @Reaches.invariant _ _ _ _ _ _ I run began
    fun _ _ _ ⟨_, related, h⟩ _ taken => h.step CountingStore.keeps related taken
  obtain ⟨rfl, all, kept⟩ := persisted.returned i ids done
  refine ⟨all, ?_⟩
  have texts : (s.helpers i).entries.map Prod.snd = lines i := by
    rw [Helper.entries, persisted.helpers, List.map_snd_zip (Nat.le_of_eq all.symm)]
  rw [← texts, ← committed]
  exact kept.map Prod.snd

/-! ### One helper alone -/

theorem step_write (running : (s.helpers i).result = none) {line : String} {rest : List String}
    (next : (s.helpers i).lines.drop (s.helpers i).ids.length = line :: rest) {id : Id} {u : σ}
    (done : perform (store.writeText line ()) s.store = (.ok id, u)) :
    s.step store i = some
      ({ s with store := u, written := s.written ++ [(i, id, line)] }.setHelper i
        ((s.helpers i).push id)) := by
  simp only [step, running, next, done]

theorem reaches_finish {r : Writers σ ι Id Error} (run : Free (step store) r s) {u : σ}
    {result : Except Error (List Id)} (taken : s.step store i = some
      ({ s with store := u }.setHelper i ((s.helpers i).finish result))) :
    ∃ t, Free (step store) r t ∧ t.store = u ∧ (∀ j ≠ i, t.helpers j = s.helpers j) ∧
      (t.helpers i).result = some result := by
  refine ⟨_, run.next trivial taken, rfl, fun j hj => Function.update_of_ne hj _ _, ?_⟩
  show (Function.update s.helpers i _ i).result = some result
  rw [Function.update_self]
  rfl

/-- A helper that is not interrupted runs the loop of `persist_all`. -/
theorem reaches_writeAll {r : Writers σ ι Id Error} {todo : List String} {ids : List Id}
    (run : Free (step store) r s) (began : s.helpers i = { lines := lines i, ids })
    (next : (lines i).drop ids.length = todo) {result : Except Error (List Id)} {v : σ}
    (done : perform (writeAll store todo ids) s.store = (result, v)) :
    ∃ t, Free (step store) r t ∧ t.store = v ∧ (∀ j ≠ i, t.helpers j = s.helpers j) ∧
      (t.helpers i).Looped (lines i) result := by
  induction todo generalizing s ids with
  | nil =>
    obtain ⟨rfl, rfl⟩ := Prod.mk.inj done
    exact ⟨s, run, rfl, fun _ _ => rfl, began, next⟩
  | cons line todo ih =>
    rw [writeAll, perform_bind] at done
    have next' : (s.helpers i).lines.drop (s.helpers i).ids.length = line :: todo := by rwa [began]
    have running : (s.helpers i).result = none := by rw [began]
    rcases write : perform (store.writeText line ()) s.store with ⟨e | id, u⟩
    · rw [write] at done
      obtain ⟨rfl, rfl⟩ := Prod.mk.inj done
      apply reaches_finish run
      simp only [step, running, next', write]
    · rw [write] at done
      have moved : Function.update s.helpers i ((s.helpers i).push id) i =
          { lines := lines i, ids := ids ++ [id] } := by
        rw [Function.update_self, began]
        rfl
      have rest : (lines i).drop (ids ++ [id]).length = todo := by
        rw [List.length_append, List.length_singleton, ← List.drop_drop, next]
        rfl
      obtain ⟨t, run, left, others, ended⟩ :=
        ih (run.next trivial (step_write running next' write)) moved rest done
      refine ⟨t, run, left, ?_, ended⟩
      intro j hj
      rw [others j hj]
      exact Function.update_of_ne hj _ _

/-- A helper that is not interrupted does what `persist_all` does. -/
theorem reaches_persistAll {r : Writers σ ι Id Error} (run : Free (step store) r s)
    (began : s.helpers i = { lines := lines i }) {result : Except Error (List Id)} {v : σ}
    (done : perform (persistAll store (lines i)) s.store = (result, v)) :
    ∃ t, Free (step store) r t ∧ t.store = v ∧ (∀ j ≠ i, t.helpers j = s.helpers j) ∧
      (t.helpers i).result = some result := by
  rw [persistAll, perform_bind] at done
  rcases loop : perform (writeAll store (lines i) []) s.store with ⟨e | ids, u⟩
  · rw [loop] at done
    obtain ⟨rfl, rfl⟩ := Prod.mk.inj done
    exact reaches_writeAll run began rfl loop
  · rw [loop] at done
    obtain ⟨t, run, rfl, others, here, written⟩ := reaches_writeAll run began rfl loop
    have running : (t.helpers i).result = none := by rw [here]
    have next : (t.helpers i).lines.drop (t.helpers i).ids.length = [] := by rwa [here]
    have last : ∃ w, Free (step store) r w ∧ w.store = v ∧ (∀ j ≠ i, w.helpers j = t.helpers j) ∧
        (w.helpers i).result = some result := by
      simp only [perform_bind] at done
      apply reaches_finish run
      rcases commit : perform store.commit t.store with ⟨e | ⟨⟩, w⟩
      · rw [commit] at done
        obtain ⟨rfl, rfl⟩ := Prod.mk.inj done
        simp only [step, running, next, commit]
      · rw [commit] at done
        obtain ⟨rfl, rfl⟩ := Prod.mk.inj done
        simp only [step, running, next, commit]
        rw [here]
    obtain ⟨w, run, left, unchanged, ended⟩ := last
    exact ⟨w, run, left, fun j hj => (unchanged j hj).trans (others j hj), ended⟩

end Writers

end MemoryPolicy

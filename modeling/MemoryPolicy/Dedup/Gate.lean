import MemoryPolicy.CheckThenAct
import MemoryPolicy.Dedup.Set
import Mathlib.Data.Fintype.Basic

/-! The dedup gate under concurrency.  Clients share a `DedupSet` and a backing store; each handles
its entries with `contains`, and after a `false` with an append and `insert` in either order.  Seen
from one key, the gate is the check-then-act pattern. -/

namespace MemoryPolicy

open EntryFields (teamEntry teamHash)

variable {ι : Type} (blake3 : List UInt8 → DedupKey)

/-- Where a client is with an entry: `contains` has returned `false` for it, and at most one of the
append and the `insert` is done. -/
inductive Phase
  | ready
  | admitted (e : EntryFields)
  | appended (e : EntryFields)
  | inserted (e : EntryFields)
deriving DecidableEq

structure Client where
  todo : List EntryFields
  phase : Phase := .ready
deriving DecidableEq

structure Gate (ι : Type) where
  set : DedupSet := .new
  store : List EntryFields := []
  clients : ι → Client

inductive GateAction (ι : Type)
  | contains (i : ι)
  | append (i : ι)
  | insert (i : ι)

namespace Gate

def setClient [DecidableEq ι] (s : Gate ι) (i : ι) (client : Client) : Gate ι :=
  { s with clients := Function.update s.clients i client }

/-- One step of a client.  A client gives up its entry when the lock is poisoned. -/
def step [DecidableEq ι] (s : Gate ι) : GateAction ι → Option (Gate ι)
  | .contains i =>
    match s.clients i with
    | ⟨e :: todo, .ready⟩ =>
      match s.set.contains (e.key blake3) with
      | .ok false => some (s.setClient i ⟨todo, .admitted e⟩)
      | _ => some (s.setClient i ⟨todo, .ready⟩)
    | _ => none
  | .append i =>
    match s.clients i with
    | ⟨todo, .admitted e⟩ =>
      some ({ s with store := s.store ++ [e] }.setClient i ⟨todo, .appended e⟩)
    | ⟨todo, .inserted e⟩ =>
      some ({ s with store := s.store ++ [e] }.setClient i ⟨todo, .ready⟩)
    | _ => none
  | .insert i =>
    match s.clients i with
    | ⟨todo, .admitted e⟩ =>
      match s.set.insert (e.key blake3) with
      | .ok set => some ({ s with set }.setClient i ⟨todo, .inserted e⟩)
      | .error _ => some (s.setClient i ⟨todo, .ready⟩)
    | ⟨todo, .appended e⟩ =>
      match s.set.insert (e.key blake3) with
      | .ok set => some ({ s with set }.setClient i ⟨todo, .ready⟩)
      | .error _ => some (s.setClient i ⟨todo, .ready⟩)
    | _ => none

def start (entries : ι → List EntryFields) : Gate ι where
  clients i := { todo := entries i }

def keys (s : Gate ι) : List DedupKey := s.store.map (EntryFields.key blake3)

def Finished (s : Gate ι) : Prop := ∀ i, s.clients i = ⟨[], .ready⟩

/-- The key for which a client has been told `false` and which it has not inserted yet. -/
def openKey : Phase → Option DedupKey
  | .admitted e | .appended e => some (e.key blake3)
  | .ready | .inserted _ => none

/-- No client asks for a key that another client has open. -/
def Clear (s : Gate ι) : GateAction ι → Prop
  | .contains i => ∀ e ∈ (s.clients i).todo.head?, ∀ j,
    openKey blake3 (s.clients j).phase ≠ some (e.key blake3)
  | _ => True

instance [Fintype ι] (s : Gate ι) (a : GateAction ι) : Decidable (Clear blake3 s a) :=
  match a with
  | .contains i => inferInstanceAs <| Decidable <| ∀ e ∈ (s.clients i).todo.head?, ∀ j,
    openKey blake3 (s.clients j).phase ≠ some (e.key blake3)
  | .append _ => isTrue trivial
  | .insert _ => isTrue trivial

instance [Fintype ι] (s : Gate ι) : Decidable s.Finished :=
  inferInstanceAs <| Decidable <| ∀ i, s.clients i = ⟨[], .ready⟩

/-! ### What a step does -/

/-- The effect of a step on a lock that is not poisoned. -/
inductive Effect [DecidableEq ι] (s : Gate ι) : GateAction ι → Gate ι → Prop
  | skip (i : ι) (e : EntryFields) (todo : List EntryFields)
      (client : s.clients i = ⟨e :: todo, .ready⟩) (seen : e.key blake3 ∈ s.set.seen) :
      Effect s (.contains i) (s.setClient i ⟨todo, .ready⟩)
  | enter (i : ι) (e : EntryFields) (todo : List EntryFields)
      (client : s.clients i = ⟨e :: todo, .ready⟩) (fresh : e.key blake3 ∉ s.set.seen) :
      Effect s (.contains i) (s.setClient i ⟨todo, .admitted e⟩)
  | append (i : ι) (e : EntryFields) (todo : List EntryFields)
      (client : s.clients i = ⟨todo, .admitted e⟩) :
      Effect s (.append i) ({ s with store := s.store ++ [e] }.setClient i ⟨todo, .appended e⟩)
  | appendLast (i : ι) (e : EntryFields) (todo : List EntryFields)
      (client : s.clients i = ⟨todo, .inserted e⟩) :
      Effect s (.append i) ({ s with store := s.store ++ [e] }.setClient i ⟨todo, .ready⟩)
  | insert (i : ι) (e : EntryFields) (todo : List EntryFields)
      (client : s.clients i = ⟨todo, .admitted e⟩) :
      Effect s (.insert i)
        ({ s with set.seen := Insert.insert (e.key blake3) s.set.seen }.setClient i
          ⟨todo, .inserted e⟩)
  | insertLast (i : ι) (e : EntryFields) (todo : List EntryFields)
      (client : s.clients i = ⟨todo, .appended e⟩) :
      Effect s (.insert i)
        ({ s with set.seen := Insert.insert (e.key blake3) s.set.seen }.setClient i
          ⟨todo, .ready⟩)

variable {blake3} {s t : Gate ι} {a : GateAction ι}

theorem effect_of_step [DecidableEq ι] (unlocked : s.set.poisoned = false)
    (taken : s.step blake3 a = some t) : Effect blake3 s a t := by
  cases a with
  | contains i =>
    simp only [step, DedupSet.contains_of_open unlocked] at taken
    split at taken
    · rename_i e todo client
      by_cases seen : e.key blake3 ∈ s.set.seen
      · simp only [seen, decide_true] at taken
        exact Option.some.inj taken ▸ .skip i e todo client seen
      · simp only [seen, decide_false] at taken
        exact Option.some.inj taken ▸ .enter i e todo client seen
    · exact nomatch taken
  | append i =>
    simp only [step] at taken
    split at taken
    · rename_i todo e client
      exact Option.some.inj taken ▸ .append i e todo client
    · rename_i todo e client
      exact Option.some.inj taken ▸ .appendLast i e todo client
    · exact nomatch taken
  | insert i =>
    simp only [step, DedupSet.insert_of_open unlocked] at taken
    split at taken
    · rename_i todo e client
      exact Option.some.inj taken ▸ .insert i e todo client
    · rename_i todo e client
      exact Option.some.inj taken ▸ .insertLast i e todo client
    · exact nomatch taken

theorem Effect.unlocked [DecidableEq ι] (h : Effect blake3 s a t)
    (unlocked : s.set.poisoned = false) : t.set.poisoned = false := by
  cases h <;> exact unlocked

/-! ### The gate for one key -/

variable (blake3) in
def phaseFor (k : DedupKey) : Phase → CheckThenAct.Phase
  | .ready => .idle
  | .admitted e => if e.key blake3 = k then .admitted else .idle
  | .appended e => if e.key blake3 = k then .wrote else .idle
  | .inserted e => if e.key blake3 = k then .raised else .idle

variable (blake3) in
/-- The gate as the protocol for one key. -/
def view (s : Gate ι) (k : DedupKey) : CheckThenAct.State ι where
  phase i := phaseFor blake3 k (s.clients i).phase
  flag := decide (k ∈ s.set.seen)
  copies := (s.keys blake3).count k

theorem view_setClient [DecidableEq ι] (s : Gate ι) (i : ι) (client : Client) (k : DedupKey) :
    (s.setClient i client).view blake3 k =
      { s.view blake3 k with
        phase := Function.update (s.view blake3 k).phase i (phaseFor blake3 k client.phase) } := by
  have phases : (fun j => phaseFor blake3 k (Function.update s.clients i client j).phase) =
      Function.update (s.view blake3 k).phase i (phaseFor blake3 k client.phase) := by
    funext j
    by_cases h : j = i <;> simp [view, h]
  exact congrArg (CheckThenAct.State.mk · _ _) phases

theorem view_append (s : Gate ι) (e : EntryFields) (k : DedupKey) :
    ({ s with store := s.store ++ [e] } : Gate ι).view blake3 k =
      { s.view blake3 k with
        copies := (s.view blake3 k).copies + if e.key blake3 = k then 1 else 0 } := by
  simp [view, keys, List.count_singleton]

theorem view_insert (s : Gate ι) (e : EntryFields) (k : DedupKey) :
    ({ s with set.seen := Insert.insert (e.key blake3) s.set.seen } : Gate ι).view blake3 k =
      { s.view blake3 k with
        flag := decide (e.key blake3 = k) || (s.view blake3 k).flag } := by
  simp [view, keys, eq_comm]

variable (blake3) in
theorem phase_view {client : Client} {i : ι} (h : s.clients i = client) (k : DedupKey) :
    (s.view blake3 k).phase i = phaseFor blake3 k client.phase :=
  congrArg (fun client : Client => phaseFor blake3 k client.phase) h

theorem view_setClient_of_same [DecidableEq ι] {i : ι} {client client' : Client} {k : DedupKey}
    (before : s.clients i = client)
    (same : phaseFor blake3 k client'.phase = phaseFor blake3 k client.phase) :
    (s.setClient i client').view blake3 k = s.view blake3 k := by
  rw [view_setClient, same]
  exact CheckThenAct.State.update_same (phase_view blake3 before k)

/-! ### A step for the key of its entry -/

section Own

variable [DecidableEq ι] {i : ι} {e : EntryFields} {todo : List EntryFields}

theorem step_enter (client : s.clients i = ⟨e :: todo, .ready⟩)
    (fresh : e.key blake3 ∉ s.set.seen) :
    CheckThenAct.Step (s.view blake3 (e.key blake3)) .enter
      ((s.setClient i ⟨todo, .admitted e⟩).view blake3 (e.key blake3)) := by
  have before := phase_view blake3 client (e.key blake3)
  rw [view_setClient]
  simpa [phaseFor] using CheckThenAct.Step.enter i before (by simp [view, fresh])

theorem step_write (client : s.clients i = ⟨todo, .admitted e⟩) :
    CheckThenAct.Step (s.view blake3 (e.key blake3)) .write
      (({ s with store := s.store ++ [e] }.setClient i ⟨todo, .appended e⟩).view blake3
        (e.key blake3)) := by
  have before := phase_view blake3 client (e.key blake3)
  rw [view_setClient, view_append]
  simp only [phaseFor, if_true] at before ⊢
  exact .write i before

theorem step_writeLast (client : s.clients i = ⟨todo, .inserted e⟩) :
    CheckThenAct.Step (s.view blake3 (e.key blake3)) .write
      (({ s with store := s.store ++ [e] }.setClient i ⟨todo, .ready⟩).view blake3
        (e.key blake3)) := by
  have before := phase_view blake3 client (e.key blake3)
  rw [view_setClient, view_append]
  simp only [phaseFor, if_true] at before ⊢
  exact .writeLast i before

theorem step_raise (client : s.clients i = ⟨todo, .admitted e⟩) :
    CheckThenAct.Step (s.view blake3 (e.key blake3)) .raise
      (({ s with set.seen := Insert.insert (e.key blake3) s.set.seen }.setClient i
        ⟨todo, .inserted e⟩).view blake3 (e.key blake3)) := by
  have before := phase_view blake3 client (e.key blake3)
  rw [view_setClient, view_insert]
  simp only [phaseFor, if_true, decide_true, Bool.true_or] at before ⊢
  exact .raise i before

theorem step_raiseLast (client : s.clients i = ⟨todo, .appended e⟩) :
    CheckThenAct.Step (s.view blake3 (e.key blake3)) .raise
      (({ s with set.seen := Insert.insert (e.key blake3) s.set.seen }.setClient i
        ⟨todo, .ready⟩).view blake3 (e.key blake3)) := by
  have before := phase_view blake3 client (e.key blake3)
  rw [view_setClient, view_insert]
  simp only [phaseFor, if_true, decide_true, Bool.true_or] at before ⊢
  exact .raiseLast i before

end Own

/-! ### A step for another key -/

section Other

variable [DecidableEq ι] {i : ι} {e : EntryFields} {client client' : Client} {k : DedupKey}
  (other : e.key blake3 ≠ k) (before : s.clients i = client)
  (same : phaseFor blake3 k client'.phase = phaseFor blake3 k client.phase)

include other before same

theorem view_append_of_ne :
    ({ s with store := s.store ++ [e] }.setClient i client').view blake3 k = s.view blake3 k := by
  refine Eq.trans (view_setClient_of_same before same) ?_
  simp [view_append, other]

theorem view_insert_of_ne :
    ({ s with set.seen := Insert.insert (e.key blake3) s.set.seen }.setClient i client').view
      blake3 k = s.view blake3 k := by
  refine Eq.trans (view_setClient_of_same before same) ?_
  simp [view_insert, other]

end Other

/-- For the key of its entry a step is one of the protocol; for another key it changes nothing. -/
theorem Effect.view_eq_or_step [DecidableEq ι] (h : Effect blake3 s a t) (k : DedupKey) :
    t.view blake3 k = s.view blake3 k ∨
      ∃ act, CheckThenAct.Step (s.view blake3 k) act (t.view blake3 k) ∧
        (act = .enter → ∃ i e, a = .contains i ∧ e ∈ (s.clients i).todo.head? ∧
          e.key blake3 = k) := by
  cases h with
  | skip i e todo client => exact .inl (view_setClient_of_same client rfl)
  | enter i e todo client fresh =>
    by_cases hk : e.key blake3 = k
    · right
      subst hk
      exact ⟨.enter, step_enter client fresh, fun _ => ⟨i, e, rfl, by simp [client], rfl⟩⟩
    · left
      apply view_setClient_of_same client
      simp [phaseFor, hk]
  | append i e todo client =>
    by_cases hk : e.key blake3 = k
    · subst hk
      exact .inr ⟨.write, step_write client, nofun⟩
    · exact .inl (view_append_of_ne hk client (by simp [phaseFor, hk]))
  | appendLast i e todo client =>
    by_cases hk : e.key blake3 = k
    · subst hk
      exact .inr ⟨.write, step_writeLast client, nofun⟩
    · exact .inl (view_append_of_ne hk client (by simp [phaseFor, hk]))
  | insert i e todo client =>
    by_cases hk : e.key blake3 = k
    · subst hk
      exact .inr ⟨.raise, step_raise client, nofun⟩
    · exact .inl (view_insert_of_ne hk client (by simp [phaseFor, hk]))
  | insertLast i e todo client =>
    by_cases hk : e.key blake3 = k
    · subst hk
      exact .inr ⟨.raise, step_raiseLast client, nofun⟩
    · exact .inl (view_insert_of_ne hk client (by simp [phaseFor, hk]))

/-! ### Runs -/

theorem open_phaseFor {p : Phase} {k : DedupKey} :
    (phaseFor blake3 k p).Open ↔ openKey blake3 p = some k := by
  cases p with
  | ready => simp [phaseFor, openKey, CheckThenAct.Phase.Open]
  | admitted e =>
    by_cases hk : e.key blake3 = k <;> simp [phaseFor, openKey, CheckThenAct.Phase.Open, hk]
  | appended e =>
    by_cases hk : e.key blake3 = k <;> simp [phaseFor, openKey, CheckThenAct.Phase.Open, hk]
  | inserted e =>
    by_cases hk : e.key blake3 = k <;> simp [phaseFor, openKey, CheckThenAct.Phase.Open, hk]

theorem clear_contains {i : ι} :
    Clear blake3 s (.contains i) ↔
      ∀ e ∈ (s.clients i).todo.head?, (s.view blake3 (e.key blake3)).Alone := by
  simp only [Clear, CheckThenAct.State.Alone, view, open_phaseFor]

variable (blake3) in
/-- Each key is written by one client at a time. -/
structure Orderly (s : Gate ι) : Prop where
  unlocked : s.set.poisoned = false
  exclusive : ∀ k, CheckThenAct.Exclusive (s.view blake3 k)

theorem orderly_start (entries : ι → List EntryFields) : Orderly blake3 (start entries) where
  unlocked := rfl
  exclusive _ :=
    { one := fun _ _ busy => absurd rfl busy
      accounts := fun _ busy => absurd rfl busy
      idle := fun _ => rfl }

theorem Orderly.step [DecidableEq ι] (h : Orderly blake3 s) (clear : Clear blake3 s a)
    (taken : s.step blake3 a = some t) : Orderly blake3 t := by
  have effect := effect_of_step h.unlocked taken
  refine ⟨effect.unlocked h.unlocked, ?_⟩
  intro k
  rcases effect.view_eq_or_step k with same | ⟨act, protocol, asks⟩
  · exact same ▸ h.exclusive k
  · apply (h.exclusive k).step protocol
    intro enters
    obtain ⟨i, e, rfl, head, rfl⟩ := asks enters
    exact clear_contains.mp clear e head

theorem orderly_of_clear [DecidableEq ι] {entries : ι → List EntryFields}
    (run : Transition.Reaches (step blake3) (Clear blake3) (start entries) s) :
    Orderly blake3 s :=
  run.invariant (orderly_start entries) fun _ _ _ h clear taken => h.step clear taken

theorem Orderly.nodup (h : Orderly blake3 s) : (s.keys blake3).Nodup :=
  List.nodup_iff_count_le_one.mpr fun k => (h.exclusive k).copies_le_one

variable (blake3) in
/-- The entry is still to come, in hand with its `insert` to do, or recorded in the set. -/
def Traced (client : Client) (set : DedupSet) (e : EntryFields) : Prop :=
  e ∈ client.todo ∨ client.phase = .admitted e ∨ client.phase = .appended e ∨
    e.key blake3 ∈ set.seen

variable (blake3) in
/-- Every entry of a client is traced, and the phases are right about the set and the store. -/
structure Accounted (entries : ι → List EntryFields) (s : Gate ι) : Prop where
  unlocked : s.set.poisoned = false
  sound : ∀ k, CheckThenAct.Sound (s.view blake3 k)
  traced : ∀ i, ∀ e ∈ entries i, Traced blake3 (s.clients i) s.set e

theorem accounted_start (entries : ι → List EntryFields) :
    Accounted blake3 entries (start entries) where
  unlocked := rfl
  sound _ _ := trivial
  traced _ _ he := .inl he

theorem Traced.mono {client : Client} {set set' : DedupSet} {e : EntryFields}
    (h : Traced blake3 client set e) (grows : set.seen ⊆ set'.seen) :
    Traced blake3 client set' e :=
  h.imp_right (Or.imp_right (Or.imp_right fun seen => grows seen))

theorem Traced.setClient [DecidableEq ι] {u : Gate ι} {i j : ι} {client client' : Client}
    {e : EntryFields} (h : Traced blake3 (s.clients j) s.set e) (same : u.clients = s.clients)
    (grows : s.set.seen ⊆ u.set.seen) (place : s.clients i = client)
    (own : Traced blake3 client u.set e → Traced blake3 client' u.set e) :
    Traced blake3 ((u.setClient i client').clients j) u.set e := by
  have later := h.mono grows
  by_cases hj : j = i
  · subst hj
    rw [place] at later
    simpa [Gate.setClient] using own later
  · simpa [Gate.setClient, hj, same] using later

theorem Effect.traced [DecidableEq ι] (h : Effect blake3 s a t) {j : ι} {f : EntryFields}
    (before : Traced blake3 (s.clients j) s.set f) : Traced blake3 (t.clients j) t.set f := by
  cases h with
  | skip i e todo client seen =>
    refine before.setClient rfl (Finset.Subset.refl _) client ?_
    rintro (h | h | h | h)
    · rcases List.mem_cons.mp h with rfl | h
      · exact .inr (.inr (.inr seen))
      · exact .inl h
    · exact nomatch h
    · exact nomatch h
    · exact .inr (.inr (.inr h))
  | enter i e todo client =>
    refine before.setClient rfl (Finset.Subset.refl _) client ?_
    rintro (h | h | h | h)
    · rcases List.mem_cons.mp h with rfl | h
      · exact .inr (.inl rfl)
      · exact .inl h
    · exact nomatch h
    · exact nomatch h
    · exact .inr (.inr (.inr h))
  | append i e todo client =>
    refine before.setClient rfl (Finset.Subset.refl _) client ?_
    rintro (h | h | h | h)
    · exact .inl h
    · exact .inr (.inr (.inl (Phase.admitted.inj h ▸ rfl)))
    · exact nomatch h
    · exact .inr (.inr (.inr h))
  | appendLast i e todo client =>
    refine before.setClient rfl (Finset.Subset.refl _) client ?_
    rintro (h | h | h | h)
    · exact .inl h
    · exact nomatch h
    · exact nomatch h
    · exact .inr (.inr (.inr h))
  | insert i e todo client =>
    refine before.setClient rfl (Finset.subset_insert _ _) client ?_
    rintro (h | h | h | h)
    · exact .inl h
    · exact .inr (.inr (.inr (Phase.admitted.inj h ▸ Finset.mem_insert_self _ _)))
    · exact nomatch h
    · exact .inr (.inr (.inr h))
  | insertLast i e todo client =>
    refine before.setClient rfl (Finset.subset_insert _ _) client ?_
    rintro (h | h | h | h)
    · exact .inl h
    · exact nomatch h
    · exact .inr (.inr (.inr (Phase.appended.inj h ▸ Finset.mem_insert_self _ _)))
    · exact .inr (.inr (.inr h))

theorem Accounted.step [DecidableEq ι] {entries : ι → List EntryFields}
    (h : Accounted blake3 entries s) (taken : s.step blake3 a = some t) :
    Accounted blake3 entries t := by
  have effect := effect_of_step h.unlocked taken
  refine ⟨effect.unlocked h.unlocked, fun k => ?_, fun j f hf => effect.traced (h.traced j f hf)⟩
  rcases effect.view_eq_or_step k with same | ⟨act, protocol, -⟩
  · exact same ▸ h.sound k
  · exact (h.sound k).step protocol

theorem accounted_of_reaches [DecidableEq ι] {entries : ι → List EntryFields}
    {allowed : Gate ι → GateAction ι → Prop}
    (run : Transition.Reaches (step blake3) allowed (start entries) s) :
    Accounted blake3 entries s :=
  run.invariant (accounted_start entries) fun _ _ _ h _ taken => h.step taken

theorem phase_view_of_finished (finished : s.Finished) (k : DedupKey) (i : ι) :
    (s.view blake3 k).phase i = .idle :=
  phase_view blake3 (finished i) k

/-- The gate writes each entry once in every run in which no client asks for a key that another
client has been told is absent and has not inserted yet. -/
theorem writes_once [DecidableEq ι] {entries : ι → List EntryFields}
    (run : Transition.Reaches (step blake3) (Clear blake3) (start entries) s) :
    (s.keys blake3).Nodup ∧
      (s.Finished → ∀ i, ∀ e ∈ entries i, (s.keys blake3).count (e.key blake3) = 1) := by
  have orderly := orderly_of_clear run
  have accounted := accounted_of_reaches run
  refine ⟨orderly.nodup, ?_⟩
  intro finished i e he
  have seen : e.key blake3 ∈ s.set.seen := by
    simpa [Traced, finished i] using accounted.traced i e he
  have copies := (orderly.exclusive (e.key blake3)).idle (phase_view_of_finished finished _)
  simpa [view, seen] using copies

theorem writes_once_in_turn :
    ∃ s : Gate Bool,
      Transition.run (step teamHash) (Clear teamHash) (start fun _ => [teamEntry])
        [.contains false, .append false, .insert false, .contains true] = some s ∧
      s.Finished ∧ (s.keys teamHash).count (teamEntry.key teamHash) = 1 := by
  have finishes : (Transition.run (step teamHash) (Clear teamHash)
      (start fun _ : Bool => [teamEntry]) [.contains false, .append false, .insert false,
        .contains true]).any (fun s => s.Finished) := by decide
  obtain ⟨s, reached, finished⟩ := (Option.any_eq_true _ _).mp finishes
  have finished : s.Finished := of_decide_eq_true finished
  exact ⟨s, reached, finished, (writes_once (Transition.reaches_of_run .refl reached)).2 finished
    true _ (by simp)⟩

/-- Two clients with the same entry that both ask before either of them inserts the key. -/
theorem writes_twice :
    ∃ s : Gate Bool,
      Transition.run (step teamHash) (fun _ _ => True) (start fun _ => [teamEntry])
        [.contains false, .contains true, .append false, .insert false, .append true,
          .insert true] = some s ∧
      s.Finished ∧ ¬ (s.keys teamHash).Nodup := by
  have twice : (Transition.run (step teamHash) (fun _ _ => True)
      (start fun _ : Bool => [teamEntry]) [.contains false, .contains true, .append false,
        .insert false, .append true, .insert true]).any
      (fun s => s.Finished ∧ ¬ (s.keys teamHash).Nodup) := by decide
  obtain ⟨s, reached, broken⟩ := (Option.any_eq_true _ _).mp twice
  exact ⟨s, reached, of_decide_eq_true broken⟩

theorem Orderly.doubled [DecidableEq ι] (h : Orderly blake3 s)
    (sound : ∀ k, CheckThenAct.Sound (s.view blake3 k)) (taken : s.step blake3 a = some t)
    (contested : ¬ Clear blake3 s a) : ∃ k, CheckThenAct.Doubled (t.view blake3 k) := by
  have effect := effect_of_step h.unlocked taken
  cases a with
  | append i => exact absurd trivial contested
  | insert i => exact absurd trivial contested
  | contains i =>
    simp only [clear_contains, not_forall] at contested
    obtain ⟨e, head, contested⟩ := contested
    have down := (h.exclusive (e.key blake3)).down contested
    cases effect with
    | skip i f todo client seen =>
      obtain rfl : f = e := by simpa [client] using head
      simp [view, seen] at down
    | enter i f todo client fresh =>
      obtain rfl : f = e := by simpa [client] using head
      exact ⟨_, (sound _).doubled (step_enter client fresh) contested⟩

/-- Every run is clear, or leaves two copies of some key written or owed. -/
theorem clear_or_doubled [DecidableEq ι] {entries : ι → List EntryFields}
    (run : Transition.Free (step blake3) (start entries) s) :
    Transition.Reaches (step blake3) (Clear blake3) (start entries) s ∨
      ∃ k, CheckThenAct.Doubled (s.view blake3 k) := by
  induction run with
  | refl => exact .inl .refl
  | @next s t a before _ taken ih =>
    have accounted := accounted_of_reaches before
    rcases ih with clear | ⟨k, doubled⟩
    · by_cases ok : Clear blake3 s a
      · exact .inl (clear.next ok taken)
      · exact .inr ((orderly_of_clear clear).doubled accounted.sound taken ok)
    · rcases (effect_of_step accounted.unlocked taken).view_eq_or_step k with same | ⟨_, step, -⟩
      · exact .inr ⟨k, same ▸ doubled⟩
      · exact .inr ⟨k, doubled.step step⟩

/-- A finished run has left each key once exactly when a clear run does the same. -/
theorem nodup_iff_clear [DecidableEq ι] {entries : ι → List EntryFields}
    (run : Transition.Free (step blake3) (start entries) s) (finished : s.Finished) :
    (s.keys blake3).Nodup ↔
      Transition.Reaches (step blake3) (Clear blake3) (start entries) s := by
  constructor
  · intro nodup
    apply (clear_or_doubled run).resolve_right
    rintro ⟨k, doubled⟩
    have two := doubled.two_le (phase_view_of_finished finished k)
    have one := List.nodup_iff_count_le_one.mp nodup k
    simp only [view] at two
    omega
  · intro clear
    exact (orderly_of_clear clear).nodup

end Gate

end MemoryPolicy

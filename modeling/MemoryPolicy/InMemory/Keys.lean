import MemoryPolicy.InMemory.Exact
import MemoryPolicy.Positional
import MemoryPolicy.Transition
import Mathlib.Data.String.Basic

/-! The keys of the in-memory store over runs of calls by any clients.  The numbers behind the keys
count the appends, and their numerals have one width, so the keys ascend in the order of the appends
and a lookup finds the only entry of its key. -/

namespace MemoryPolicy

open Positional StableSort Transition

namespace InMemoryStore

/-! ### Keys -/

theorem storageKey_lt {m n : UInt64} (h : m < n) : storageKey m < storageKey n := by
  have numeral (n : UInt64) : (Nat.toDigits 16 n.toNat).leftpad 16 '0' =
      (digits 16 16 n.toNat).map Nat.digitChar :=
    leftpad_toDigits (by decide) (by decide) n.toNat_lt
  rw [String.lt_iff, storageKey, storageKey, String.toList_append, String.toList_append]
  apply List.append_left_lt
  rw [String.toList_ofList, String.toList_ofList, numeral, numeral]
  exact hex_lt_hex (UInt64.lt_iff_toNat_lt.mp h) n.toNat_lt

/-! ### Calls -/

variable {ι E F : Type}

inductive Call (E : Type)
  | append (episode : E)
  | get (key : String)
  | retrieveSimilar (query : String) (k : Nat)

inductive Answer (E F : Type)
  | appended (result : Except PolicyError String)
  | found (result : Except PolicyError E)
  | retrieved (result : Except PolicyError (List (InMemoryHit E F)))

section Sessions

variable [Unicode] [ScoreOps F] [Episode E]

/-- The answer to a call, with the store it leaves. -/
def perform (self : InMemoryStore E) : Call E → Answer E F × InMemoryStore E
  | .append episode =>
    match self.append episode with
    | .ok (key, next) => (.appended (.ok key), next)
    | .error error => (.appended (.error error), self)
  | .get key => (.found (self.get key), self)
  | .retrieveSimilar query k => (.retrieved (self.retrieveSimilar query k), self)

structure Event (ι E F : Type) where
  client : ι
  call : Call E
  answer : Answer E F

/-- A store and the calls that clients have made on it, in the order in which they took effect. -/
structure Session (ι E F : Type) where
  store : InMemoryStore E := {}
  log : List (Event ι E F) := []

/-- One client makes one call. -/
def Session.step (s : Session ι E F) (action : ι × Call E) : Option (Session ι E F) :=
  let (answer, store) := s.store.perform action.2
  some { store, log := s.log ++ [⟨action.1, action.2, answer⟩] }

end Sessions

namespace Event

def isAppend (event : Event ι E F) : Bool :=
  match event.call with
  | .append _ => true
  | _ => false

/-- The key that an append has returned, with its episode. -/
def binding (event : Event ι E F) : Option (String × E) :=
  match event.call, event.answer with
  | .append episode, .appended (.ok key) => some (key, episode)
  | _, _ => none

end Event

/-- The keys that appends have returned, with their episodes. -/
def bindings (log : List (Event ι E F)) : List (String × E) := log.filterMap Event.binding

theorem bindings_append (log log' : List (Event ι E F)) :
    bindings (log ++ log') = bindings log ++ bindings log' :=
  List.filterMap_append

theorem bindings_cons_subset (before after : List (Event ι E F)) (event : Event ι E F) :
    bindings before ⊆ bindings (before ++ event :: after) := by
  rw [bindings_append]
  exact List.subset_append_left _ _

theorem mem_bindings_of_event (before after : List (Event ι E F)) (client : ι) (episode : E)
    (key : String) :
    (key, episode) ∈
      bindings (before ++ ⟨client, .append episode, .appended (.ok key)⟩ :: after) := by
  rw [bindings_append]
  exact List.mem_append_right _ List.mem_cons_self

/-- The keys that appends have returned, in the order in which the appends took effect. -/
def returnedKeys (log : List (Event ι E F)) : List String := (bindings log).map Prod.fst

/-! ### Lookups -/

section Lookups

variable {self : InMemoryStore E}

theorem get_of_mem (unpoisoned : self.poisoned = false)
    (distinct : (self.episodes.map Prod.fst).Nodup) {key : String} {episode : E}
    (h : (key, episode) ∈ self.episodes) : self.get key = .ok episode := by
  obtain ⟨found, hfound⟩ := Option.isSome_iff_exists.mp <|
    List.find?_isSome (p := fun entry => entry.1 == key).mpr ⟨_, h, by simp⟩
  have same : found = (key, episode) :=
    List.inj_on_of_nodup_map distinct (List.mem_of_find?_eq_some hfound) h
      (by simpa using List.find?_some hfound)
  simp [get, unpoisoned, hfound, same]

theorem get_of_not_mem (unpoisoned : self.poisoned = false) {key : String}
    (h : key ∉ self.episodes.map Prod.fst) : self.get key = .error (.notFound key) := by
  have missing : self.episodes.find? (fun entry => entry.1 == key) = none := by
    rw [List.find?_eq_none]
    intro entry hentry
    have : entry.1 ≠ key := fun he => h (he ▸ List.mem_map_of_mem hentry)
    simpa using this
  simp [get, unpoisoned, missing]

theorem mem_of_retrieved [Unicode] [ScoreOps F] [Episode E] {query : String} {k : Nat}
    {hits : List (InMemoryHit E F)} (h : self.retrieveSimilar query k = .ok hits)
    {hit : InMemoryHit E F} (mem : hit ∈ hits) : (hit.key, hit.episode) ∈ self.episodes := by
  unfold retrieveSimilar at h
  split_ifs at h
  · obtain rfl := Except.ok.inj h
    exact absurd mem List.not_mem_nil
  · obtain rfl := Except.ok.inj h
    obtain ⟨⟨key, episode⟩, hentry, hhit⟩ :=
      List.mem_filterMap.mp ((sortBy_perm _ _).subset (List.mem_of_mem_take mem))
    simp only [Option.ite_none_right_eq_some] at hhit
    obtain rfl := Option.some.inj hhit.2
    exact hentry

end Lookups

/-! ### Runs -/

/-- At most `u64::MAX` appends. -/
def Few (log : List (Event ι E F)) : Prop := log.countP Event.isAppend ≤ 2 ^ 64 - 1

theorem Few.of_append {log log' : List (Event ι E F)} (h : Few (log ++ log')) : Few log := by
  rw [Few, List.countP_append] at h
  exact (Nat.le_add_right _ _).trans h

/-- What a run keeps while it makes few appends. -/
structure Consistent (s : Session ι E F) : Prop where
  unpoisoned : s.store.poisoned = false
  counter : s.store.nextKey.toNat = s.log.countP Event.isAppend
  bound : bindings s.log = s.store.episodes
  issued : ∀ entry ∈ s.store.episodes, ∃ n ≤ s.store.nextKey, entry.1 = storageKey n
  ascending : (s.store.episodes.map Prod.fst).Pairwise (· < ·)

theorem Consistent.get_of_bound {s : Session ι E F} (h : Consistent s) {key : String}
    {episode : E} (bound : (key, episode) ∈ bindings s.log) : s.store.get key = .ok episode :=
  get_of_mem h.unpoisoned (h.ascending.imp ne_of_lt) (h.bound ▸ bound)

theorem Consistent.get_of_unbound {s : Session ι E F} (h : Consistent s) {key : String}
    (unbound : key ∉ returnedKeys s.log) : s.store.get key = .error (.notFound key) := by
  rw [returnedKeys, h.bound] at unbound
  exact get_of_not_mem h.unpoisoned unbound

theorem append_of_room {self : InMemoryStore E} (unpoisoned : self.poisoned = false)
    (room : self.nextKey.toNat + 1 < 2 ^ 64) (episode : E) :
    self.append episode = .ok (storageKey (self.nextKey + 1),
      { self with
        nextKey := self.nextKey + 1
        episodes := self.episodes ++ [(storageKey (self.nextKey + 1), episode)] }) := by
  have next : saturatingAdd self.nextKey 1 = self.nextKey + 1 := by
    rw [saturatingAdd, if_pos (by simpa using room)]
  simp [append, unpoisoned, next]

theorem toNat_add_one {n : UInt64} (room : n.toNat + 1 < 2 ^ 64) :
    (n + 1).toNat = n.toNat + 1 := by
  rw [UInt64.toNat_add]
  exact Nat.mod_eq_of_lt room

/-- A store after one more append, which has room. -/
theorem Consistent.appended {s : Session ι E F} (h : Consistent s)
    (room : s.store.nextKey.toNat + 1 < 2 ^ 64) (client : ι) (episode : E) :
    Consistent (F := F)
      { store :=
          { s.store with
            nextKey := s.store.nextKey + 1
            episodes := s.store.episodes ++ [(storageKey (s.store.nextKey + 1), episode)] }
        log := s.log ++
          [⟨client, .append episode, .appended (.ok (storageKey (s.store.nextKey + 1)))⟩] } where
  unpoisoned := h.unpoisoned
  counter := by
    rw [List.countP_append, ← h.counter]
    exact toNat_add_one room
  bound := by
    rw [bindings_append, h.bound]
    rfl
  issued entry hentry := by
    have later : s.store.nextKey ≤ s.store.nextKey + 1 := by
      rw [UInt64.le_iff_toNat_le, toNat_add_one room]
      exact Nat.le_succ _
    rcases List.mem_append.mp hentry with old | new
    · obtain ⟨n, hn, key⟩ := h.issued entry old
      exact ⟨n, UInt64.le_trans hn later, key⟩
    · obtain rfl := List.mem_singleton.mp new
      exact ⟨_, UInt64.le_refl _, rfl⟩
  ascending := by
    rw [List.map_append, List.pairwise_append]
    refine ⟨h.ascending, List.pairwise_singleton _ _, ?_⟩
    intro key hkey key' hkey'
    obtain ⟨entry, hentry, rfl⟩ := List.mem_map.mp hkey
    obtain ⟨n, hn, issued⟩ := h.issued entry hentry
    obtain rfl := List.mem_singleton.mp hkey'
    rw [issued]
    apply storageKey_lt
    rw [UInt64.lt_iff_toNat_lt, toNat_add_one room]
    exact Nat.lt_succ_of_le (UInt64.le_iff_toNat_le.mp hn)

/-- A call that only reads leaves a consistent session. -/
theorem Consistent.read {s : Session ι E F} (h : Consistent s) {event : Event ι E F}
    (reads : event.isAppend = false) : Consistent { s with log := s.log ++ [event] } where
  unpoisoned := h.unpoisoned
  counter := by simpa [List.countP_append, reads] using h.counter
  bound := by
    have none : event.binding = none := by
      unfold Event.isAppend at reads
      unfold Event.binding
      cases hc : event.call <;> simp_all
    rw [bindings_append, h.bound]
    simp [bindings, none]
  issued := h.issued
  ascending := h.ascending

section Runs

variable [Unicode] [ScoreOps F] [Episode E] {s t : Session ι E F}

theorem step_eq (s : Session ι E F) (action : ι × Call E) :
    s.step action = some
      { store := (s.store.perform (F := F) action.2).2
        log := s.log ++ [⟨action.1, action.2, (s.store.perform action.2).1⟩] } :=
  rfl

theorem Consistent.step (h : Consistent s) {action : ι × Call E}
    (taken : s.step action = some t) (few : Few t.log) : Consistent t := by
  obtain ⟨client, call⟩ := action
  rw [step_eq] at taken
  obtain rfl := Option.some.inj taken
  cases call with
  | append episode =>
    have room : s.store.nextKey.toNat + 1 < 2 ^ 64 := by
      rw [Few, List.countP_append, ← h.counter] at few
      have : 1 ≤ 2 ^ 64 := by decide
      simp only [List.countP_singleton, Event.isAppend, if_true] at few
      omega
    simp only [perform, append_of_room h.unpoisoned room]
    exact h.appended room client episode
  | get key => exact h.read rfl
  | retrieveSimilar query k => exact h.read rfl

theorem consistent_of_run (run : Free Session.step ({} : Session ι E F) s) (few : Few s.log) :
    Consistent s := by
  have start : Consistent ({} : Session ι E F) := ⟨rfl, rfl, rfl, by simp, by simp⟩
  refine run.invariant (I := fun t => Few t.log → Consistent t) (fun _ => start) ?_ few
  intro t action u ih _ taken few
  refine Consistent.step (ih ?_) taken few
  rw [step_eq] at taken
  obtain rfl := Option.some.inj taken
  exact few.of_append

/-- Every call in the log was answered in a state that the run has passed. -/
theorem exists_before (run : Free Session.step ({} : Session ι E F) s)
    {before after : List (Event ι E F)} {event : Event ι E F}
    (h : s.log = before ++ event :: after) :
    ∃ t, Free Session.step ({} : Session ι E F) t ∧ t.log = before ∧
      event.answer = (t.store.perform event.call).1 := by
  induction run generalizing after with
  | refl => exact absurd h (by simp)
  | @next t u action run ok taken ih =>
    rw [step_eq] at taken
    obtain rfl := Option.some.inj taken
    rcases List.eq_nil_or_concat after with rfl | ⟨rest, last, rfl⟩
    · obtain ⟨same, hevent⟩ := List.append_inj' h rfl
      obtain rfl := (List.cons.inj hevent).1
      exact ⟨t, run, same, rfl⟩
    · rw [List.concat_eq_append, ← List.cons_append, ← List.append_assoc] at h
      exact ih (List.append_inj' h rfl).1

/-- Every append is answered by a key. -/
theorem Consistent.answered (h : Consistent s) (room : s.store.nextKey.toNat + 1 < 2 ^ 64)
    (episode : E) :
    ∃ key, (s.store.perform (F := F) (.append episode)).1 = .appended (.ok key) := by
  rw [perform, append_of_room h.unpoisoned room]
  exact ⟨_, rfl⟩

theorem consistent_before (run : Free Session.step ({} : Session ι E F) s) (few : Few s.log)
    {before after : List (Event ι E F)} {client : ι} {call : Call E} {answer : Answer E F}
    (h : s.log = before ++ ⟨client, call, answer⟩ :: after) :
    ∃ t, Consistent t ∧ t.log = before ∧ answer = (t.store.perform call).1 := by
  obtain ⟨t, reached, log, answer⟩ := exists_before run h
  rw [h] at few
  exact ⟨t, consistent_of_run reached (log ▸ few.of_append), log, answer⟩

section Few

variable (run : Free Session.step ({} : Session ι E F) s) (few : Few s.log)

include run few

theorem pairwise_returnedKeys : (returnedKeys s.log).Pairwise (· < ·) := by
  have now := consistent_of_run run few
  rw [returnedKeys, now.bound]
  exact now.ascending

theorem append_answered {before after : List (Event ι E F)} {client : ι} {episode : E}
    {answer : Answer E F} (h : s.log = before ++ ⟨client, .append episode, answer⟩ :: after) :
    ∃ key, answer = .appended (.ok key) := by
  obtain ⟨t, consistent, rfl, rfl⟩ := consistent_before run few h
  apply consistent.answered
  rw [consistent.counter]
  rw [h, Few, List.countP_append, List.countP_cons] at few
  simp only [Event.isAppend, if_true] at few
  omega

theorem get_after_append {before mid after : List (Event ι E F)} {client client' : ι} {episode : E}
    {key : String} {answer : Answer E F}
    (h : s.log = before ++ ⟨client, .append episode, .appended (.ok key)⟩ ::
      (mid ++ ⟨client', .get key, answer⟩ :: after)) :
    answer = .found (.ok episode) := by
  rw [← List.cons_append, ← List.append_assoc] at h
  obtain ⟨t, consistent, log, rfl⟩ := consistent_before run few h
  have bound : (key, episode) ∈ bindings t.log := by
    rw [log]
    exact mem_bindings_of_event _ _ _ _ _
  exact congrArg (Answer.found (F := F)) (consistent.get_of_bound bound)

theorem get_of_unreturned {before after : List (Event ι E F)} {client : ι} {key : String}
    {answer : Answer E F} (h : s.log = before ++ ⟨client, .get key, answer⟩ :: after)
    (unreturned : key ∉ returnedKeys before) : answer = .found (.error (.notFound key)) := by
  obtain ⟨t, consistent, rfl, rfl⟩ := consistent_before run few h
  exact congrArg (Answer.found (F := F)) (consistent.get_of_unbound unreturned)

theorem get_of_retrieved {before after : List (Event ι E F)} {client : ι} {query : String} {k : Nat}
    {hits : List (InMemoryHit E F)} {hit : InMemoryHit E F} (mem : hit ∈ hits)
    (h : s.log = before ++
      ⟨client, .retrieveSimilar query k, .retrieved (.ok hits)⟩ :: after) :
    s.store.get hit.key = .ok hit.episode := by
  obtain ⟨t, consistent, rfl, answer⟩ := consistent_before run few h
  have retrieved : t.store.retrieveSimilar query k = .ok hits :=
    (Answer.retrieved.inj answer).symm
  apply (consistent_of_run run few).get_of_bound
  rw [h]
  apply bindings_cons_subset
  rw [consistent.bound]
  exact mem_of_retrieved retrieved mem

end Few

/-- Keys of the store are unique, ascending and permanent: in every run of calls by any clients with
few appends, the keys returned ascend in the order of the appends, a key keeps its episode, a key
not returned yet is not found, and a hit's key leads to its episode ever after. -/
theorem keys_permanent (run : Free Session.step ({} : Session ι E F) s) (few : Few s.log) :
    (returnedKeys s.log).Pairwise (· < ·) ∧
    (∀ before after client episode answer,
      s.log = before ++ ⟨client, .append episode, answer⟩ :: after →
      ∃ key, answer = .appended (.ok key)) ∧
    (∀ before mid after client client' episode key answer,
      s.log = before ++ ⟨client, .append episode, .appended (.ok key)⟩ ::
        (mid ++ ⟨client', .get key, answer⟩ :: after) →
      answer = .found (.ok episode)) ∧
    (∀ before after client key answer,
      s.log = before ++ ⟨client, .get key, answer⟩ :: after →
      key ∉ returnedKeys before → answer = .found (.error (.notFound key))) ∧
    (∀ before after client query k hits, ∀ hit ∈ hits,
      s.log = before ++ ⟨client, .retrieveSimilar query k, .retrieved (.ok hits)⟩ :: after →
      s.store.get hit.key = .ok hit.episode) :=
  ⟨pairwise_returnedKeys run few,
    fun _ _ _ _ _ h => append_answered run few h,
    fun _ _ _ _ _ _ _ _ h => get_after_append run few h,
    fun _ _ _ _ _ h unreturned => get_of_unreturned run few h unreturned,
    fun _ _ _ _ _ _ _ mem h => get_of_retrieved run few mem h⟩

end Runs

theorem keys_permanent_two_clients :
    let session : Session Bool String ℚ :=
      { store := ⟨2, [("ep-0000000000000001", "alpha"), ("ep-0000000000000002", "bravo")], false⟩
        log :=
          [⟨true, .append "alpha", .appended (.ok "ep-0000000000000001")⟩,
            ⟨false, .get "ep-0000000000000002",
              .found (.error (.notFound "ep-0000000000000002"))⟩,
            ⟨false, .append "bravo", .appended (.ok "ep-0000000000000002")⟩,
            ⟨true, .get "ep-0000000000000002", .found (.ok "bravo")⟩] }
    (returnedKeys session.log).Pairwise (· < ·) := by
  intro session
  let _ : Unicode := asciiTables
  have run : Transition.run Session.step (fun _ _ => True) {}
      [(true, .append "alpha"), (false, .get "ep-0000000000000002"), (false, .append "bravo"),
        (true, .get "ep-0000000000000002")] = some session := rfl
  have few : Few session.log := by
    show 2 ≤ 2 ^ 64 - 1
    decide
  exact (keys_permanent (reaches_of_run .refl run) few).1

end InMemoryStore

end MemoryPolicy

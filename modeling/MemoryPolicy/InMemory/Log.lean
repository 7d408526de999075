import MemoryPolicy.InMemory.Keys
import MemoryPolicy.InMemory.Retrieval

/-! The in-memory store as an append-only log, over runs of any length: also past the last number of
the key counter, and past a panic under the lock.  Each reply of the store is the one that the
episodes appended so far call for. -/

namespace MemoryPolicy

open StableSort Transition

variable {ι E F : Type}

namespace InMemoryStore

def len (self : InMemoryStore E) : Except PolicyError Nat :=
  if self.poisoned then .error .poisoned else .ok self.episodes.length

def isEmpty (self : InMemoryStore E) : Except PolicyError Bool := do
  return (← self.len) == 0

/-- The key that the `n`-th append returns.  The counter stops at `u64::MAX`. -/
def keyAt (n : Nat) : String := storageKey (.ofNat (min n (2 ^ 64 - 1)))

/-! ### Requests -/

inductive Request (E : Type)
  | call (call : Call E)
  | len
  | isEmpty

inductive Reply (E F : Type)
  | answer (answer : Answer E F)
  | len (result : Except PolicyError Nat)
  | isEmpty (result : Except PolicyError Bool)

inductive LogEvent (ι E F : Type)
  | returned (client : ι) (request : Request E) (reply : Reply E F)
  | panicked (client : ι)

/-- A request of a client, or a panic of a client in the `clone` of an episode, under the lock. -/
inductive LogAction (ι E : Type)
  | request (client : ι) (request : Request E)
  | panic (client : ι)

/-- A store with the history of its requests, in the order in which they took effect. -/
structure Recorded (ι E F : Type) where
  store : InMemoryStore E := {}
  history : List (LogEvent ι E F) := []

section Recorded

variable [Unicode] [ScoreOps F] [Episode E]

def serve (self : InMemoryStore E) : Request E → Reply E F × InMemoryStore E
  | .call call => (.answer (self.perform call).1, (self.perform (F := F) call).2)
  | .len => (.len self.len, self)
  | .isEmpty => (.isEmpty self.isEmpty, self)

def Recorded.step (s : Recorded ι E F) : LogAction ι E → Option (Recorded ι E F)
  | .request client request =>
    let (reply, store) := s.store.serve request
    some { store, history := s.history ++ [.returned client request reply] }
  | .panic client =>
    if s.store.poisoned then none
    else
      some
        { store := { s.store with poisoned := true }
          history := s.history ++ [.panicked client] }

end Recorded

/-! ### The log -/

/-- The episodes that have been appended, in order, and whether a client has panicked. -/
structure EpisodeLog (E : Type) where
  episodes : List E := []
  panicked : Bool := false

namespace LogEvent

def episode : LogEvent ι E F → Option E
  | .returned _ (.call (.append episode)) (.answer (.appended (.ok _))) => some episode
  | _ => none

def isPanic : LogEvent ι E F → Bool
  | .panicked _ => true
  | .returned _ _ _ => false

end LogEvent

def logOf (history : List (LogEvent ι E F)) : EpisodeLog E where
  episodes := history.filterMap LogEvent.episode
  panicked := history.any LogEvent.isPanic

/-- The episodes with the keys that their appends return. -/
def numbered (episodes : List E) : List (String × E) :=
  episodes.zipIdx.map fun (episode, n) => (keyAt (n + 1), episode)

/-- The reply to a request of a client that finds the lock poisoned. -/
def refusal : Request E → Reply E F
  | .call (.append _) => .answer (.appended (.error .poisoned))
  | .call (.get _) => .answer (.found (.error .poisoned))
  | .call (.retrieveSimilar _ _) => .answer (.retrieved (.error .poisoned))
  | .len => .len (.error .poisoned)
  | .isEmpty => .isEmpty (.error .poisoned)

/-- What a log answers.  The first episode of a key is found, and the last key has all the episodes
from its first one on; a panic leaves no answer but the empty retrieval. -/
inductive Answers [Unicode] [Episode E] : EpisodeLog E → Request E → Reply E ℚ → Prop
  | append (episodes : List E) (episode : E) :
      Answers ⟨episodes, false⟩ (.call (.append episode))
        (.answer (.appended (.ok (keyAt (episodes.length + 1)))))
  | found {episodes : List E} {n : Nat} {episode : E} (place : n < 2 ^ 64 - 1)
      (here : episodes[n]? = some episode) :
      Answers ⟨episodes, false⟩ (.call (.get (keyAt (n + 1)))) (.answer (.found (.ok episode)))
  | notFound {episodes : List E} {key : String}
      (unbound : ∀ n < episodes.length, key ≠ keyAt (n + 1)) :
      Answers ⟨episodes, false⟩ (.call (.get key)) (.answer (.found (.error (.notFound key))))
  | retrieved {episodes : List E} {query : String} {ranked : List (String × E)}
      (order : RankedBy query (numbered episodes) ranked) (k : Nat) :
      Answers ⟨episodes, false⟩ (.call (.retrieveSimilar query k))
        (.answer (.retrieved (.ok ((ranked.take k).map (hitOf query)))))
  | len (episodes : List E) : Answers ⟨episodes, false⟩ .len (.len (.ok episodes.length))
  | isEmpty (episodes : List E) :
      Answers ⟨episodes, false⟩ .isEmpty (.isEmpty (.ok episodes.isEmpty))
  | refused {episodes : List E} {request : Request E}
      (used : ∀ query, request ≠ .call (.retrieveSimilar query 0)) :
      Answers ⟨episodes, true⟩ request (refusal request)
  | retrievedNone (log : EpisodeLog E) (query : String) :
      Answers log (.call (.retrieveSimilar query 0)) (.answer (.retrieved (.ok [])))

/-! ### Refinement -/

/-- The store that holds a log. -/
def storeOf (log : EpisodeLog E) : InMemoryStore E where
  nextKey := .ofNat (min log.episodes.length (2 ^ 64 - 1))
  episodes := numbered log.episodes
  poisoned := log.panicked

theorem toNat_saturated (n : Nat) :
    (UInt64.ofNat (min n (2 ^ 64 - 1))).toNat = min n (2 ^ 64 - 1) := by
  apply UInt64.toNat_ofNat_of_lt
  have : min n (2 ^ 64 - 1) ≤ 2 ^ 64 - 1 := Nat.min_le_right _ _
  show min n (2 ^ 64 - 1) < 2 ^ 64
  omega

theorem saturatingAdd_saturated (n : Nat) :
    saturatingAdd (.ofNat (min n (2 ^ 64 - 1))) 1 = .ofNat (min (n + 1) (2 ^ 64 - 1)) := by
  apply UInt64.toNat_inj.mp
  have one : (1 : UInt64).toNat = 1 := rfl
  rw [saturatingAdd, toNat_saturated, toNat_saturated, one]
  split
  · rename_i room
    rw [toNat_add_one (by rwa [toNat_saturated]), toNat_saturated]
    omega
  · rename_i full
    show 2 ^ 64 - 1 = min (n + 1) (2 ^ 64 - 1)
    omega

theorem keyAt_lt {m n : Nat} (h : m < n) (room : m < 2 ^ 64 - 1) : keyAt m < keyAt n := by
  apply storageKey_lt
  rw [UInt64.lt_iff_toNat_lt, toNat_saturated, toNat_saturated]
  omega

theorem keyAt_of_full {n : Nat} (full : 2 ^ 64 - 1 ≤ n) : keyAt n = keyAt (2 ^ 64 - 1) := by
  rw [keyAt, keyAt, Nat.min_eq_right full, Nat.min_self]

theorem numbered_append (xs ys : List E) :
    numbered (xs ++ ys) = numbered xs ++
      (ys.zipIdx xs.length).map fun (episode, n) => (keyAt (n + 1), episode) := by
  rw [numbered, List.zipIdx_append, List.map_append, Nat.zero_add]
  rfl

theorem append_storeOf (episodes : List E) (episode : E) :
    (storeOf ⟨episodes, false⟩).append episode =
      .ok (keyAt (episodes.length + 1), storeOf ⟨episodes ++ [episode], false⟩) := by
  unfold append storeOf
  simp only [Bool.false_eq_true, if_false, saturatingAdd_saturated, numbered_append,
    List.length_append, List.length_singleton]
  rfl

theorem get_storeOf {episodes : List E} {n : Nat} {episode : E} (place : n < 2 ^ 64 - 1)
    (here : episodes[n]? = some episode) :
    (storeOf ⟨episodes, false⟩).get (keyAt (n + 1)) = .ok episode := by
  obtain ⟨bound, rfl⟩ := List.getElem?_eq_some_iff.mp here
  have found : (numbered episodes).find? (fun entry => entry.1 == keyAt (n + 1)) =
      some (keyAt (n + 1), episodes[n]) := by
    rw [List.find?_eq_some_iff_getElem]
    refine ⟨by simp, n, by simpa [numbered] using bound, by simp [numbered], ?_⟩
    intro j hj
    have before : keyAt (j + 1) < keyAt (n + 1) := keyAt_lt (by omega) (by omega)
    simpa [numbered] using ne_of_lt before
  simp [get, storeOf, found]

theorem mem_keys_numbered {episodes : List E} {key : String} :
    key ∈ (numbered episodes).map Prod.fst ↔ ∃ n < episodes.length, key = keyAt (n + 1) := by
  simp [numbered, List.mem_iff_getElem, eq_comm]

theorem logOf_append (history : List (LogEvent ι E F)) (event : LogEvent ι E F) :
    logOf (history ++ [event]) =
      ⟨(logOf history).episodes ++ event.episode.toList,
        (logOf history).panicked || event.isPanic⟩ := by
  cases h : event.episode <;> simp [logOf, List.filterMap_append, h]

section Refinement

variable [Unicode] [Episode E]

theorem answers_get (episodes : List E) (key : String) :
    Answers ⟨episodes, false⟩ (.call (.get key))
      (.answer (.found ((storeOf ⟨episodes, false⟩).get key))) := by
  by_cases bound : ∃ n < episodes.length, key = keyAt (n + 1)
  · obtain ⟨n, hn, rfl⟩ := bound
    by_cases place : n < 2 ^ 64 - 1
    · have here : episodes[n]? = some episodes[n] := List.getElem?_eq_getElem hn
      rw [get_storeOf place here]
      exact .found place here
    · -- The first episode of the last key.
      have last : 2 ^ 64 - 2 < episodes.length := by omega
      have here : episodes[2 ^ 64 - 2]? = some episodes[2 ^ 64 - 2] :=
        List.getElem?_eq_getElem last
      have same : keyAt (n + 1) = keyAt (2 ^ 64 - 2 + 1) := keyAt_of_full (by omega)
      rw [same, get_storeOf (by decide) here]
      exact .found (by decide) here
  · have missing : key ∉ (storeOf ⟨episodes, false⟩).episodes.map Prod.fst :=
      fun mem => bound (mem_keys_numbered.mp mem)
    rw [get_of_not_mem rfl missing]
    exact .notFound fun n hn same => bound ⟨n, hn, same⟩

theorem answers_refused {episodes : List E} {request : Request E} :
    Answers ⟨episodes, true⟩ request ((storeOf ⟨episodes, true⟩).serve request).1 := by
  cases request with
  | len => exact .refused nofun
  | isEmpty => exact .refused nofun
  | call call =>
    cases call with
    | append episode => exact .refused nofun
    | get key => exact .refused nofun
    | retrieveSimilar query k =>
      cases k with
      | zero => exact .retrievedNone _ query
      | succ k => exact .refused (by simp)

/-- A store that holds a log answers as the log does. -/
theorem answers_serve (log : EpisodeLog E) (request : Request E) :
    Answers log request ((storeOf log).serve request).1 := by
  obtain ⟨episodes, panicked⟩ := log
  cases panicked with
  | true => exact answers_refused
  | false =>
    cases request with
    | len =>
      have length : (storeOf ⟨episodes, false⟩).len = .ok episodes.length := by
        simp [len, storeOf, numbered]
      show Answers _ _ (.len _)
      rw [length]
      exact .len episodes
    | isEmpty =>
      have empty : (storeOf ⟨episodes, false⟩).isEmpty = .ok episodes.isEmpty := by
        cases episodes <;> rfl
      show Answers _ _ (.isEmpty _)
      rw [empty]
      exact .isEmpty episodes
    | call call =>
      cases call with
      | append episode =>
        simp only [serve, perform, append_storeOf]
        exact .append episodes episode
      | get key => exact answers_get episodes key
      | retrieveSimilar query k =>
        show Answers _ _ (.answer (.retrieved _))
        rw [storeOf, retrieveSimilar_eq]
        exact .retrieved (rankedBy_ranked query _) k

variable [ScoreOps F]

/-- Serving a request leaves the store that holds the log with it. -/
theorem storeOf_logOf_append (history : List (LogEvent ι E F)) (client : ι)
    (request : Request E) :
    ((storeOf (logOf history)).serve (F := F) request).2 =
      storeOf (logOf (history ++
        [.returned client request ((storeOf (logOf history)).serve request).1])) := by
  rw [logOf_append]
  obtain ⟨episodes, panicked⟩ := logOf history
  cases panicked with
  | true =>
    cases request with
    | call call =>
      cases call <;>
        simp [serve, perform, append, storeOf, LogEvent.episode, LogEvent.isPanic]
    | _ => simp [serve, LogEvent.episode, LogEvent.isPanic]
  | false =>
    cases request with
    | call call =>
      cases call with
      | append episode =>
        simp [serve, perform, append_storeOf, LogEvent.episode, LogEvent.isPanic]
      | _ => simp [serve, perform, LogEvent.episode, LogEvent.isPanic]
    | _ => simp [serve, LogEvent.episode, LogEvent.isPanic]

end Refinement

/-! ### Runs -/

/-- The reply is an answer of the log so far; a panic needs a lock that is not poisoned yet. -/
def LogEvent.Answered [Unicode] [Episode E] (before : List (LogEvent ι E ℚ)) :
    LogEvent ι E ℚ → Prop
  | .returned _ request reply => Answers (logOf before) request reply
  | .panicked _ => (logOf before).panicked = false

/-- The store holds the log of the history, and its replies have been answers of the log. -/
structure Faithful [Unicode] [Episode E] (s : Recorded ι E ℚ) : Prop where
  holds : s.store = storeOf (logOf s.history)
  answered : Throughout LogEvent.Answered s.history

section Runs

variable [Unicode] [Episode E] {s t : Recorded ι E ℚ}

theorem Faithful.step (h : Faithful s) {action : LogAction ι E}
    (taken : s.step action = some t) : Faithful t := by
  obtain ⟨holds, answered⟩ := h
  cases action with
  | request client request =>
    obtain rfl := Option.some.inj taken
    simp only [holds]
    exact ⟨storeOf_logOf_append s.history client request,
      answered.concat (answers_serve (logOf s.history) request)⟩
  | panic client =>
    obtain ⟨unlocked, moved⟩ := Option.ite_none_left_eq_some.mp taken
    obtain rfl := Option.some.inj moved
    have calm : (logOf s.history).panicked = false := by
      rw [holds] at unlocked
      exact eq_false_of_ne_true unlocked
    refine ⟨?_, answered.concat calm⟩
    simp [holds, logOf_append, storeOf, LogEvent.episode, LogEvent.isPanic]

/-- The store is an append-only log: in every run of requests by any clients, with no bound on the
appends and with panics under the lock, each reply is the one of the episodes appended before it. -/
theorem answers_of_run (run : Free Recorded.step ({} : Recorded ι E ℚ) s) : Faithful s :=
  run.invariant ⟨rfl, throughout_nil _⟩ fun _ _ _ h _ taken => h.step taken

end Runs

theorem answers_of_run_panic :
    let _ : Unicode := asciiTables
    ∃ s : Recorded Bool String ℚ, s.history.length = 4 ∧ Faithful s := by
  intro tables
  have appended : Free Recorded.step ({} : Recorded Bool String ℚ) _ :=
    .next .refl (a := .request true (.call (.append "alpha"))) trivial rfl
  have found := appended.next (a := .request false (.call (.get (keyAt 1)))) trivial rfl
  have panicked := found.next (a := .panic false) trivial rfl
  have refused := panicked.next (a := .request true .len) trivial rfl
  exact ⟨_, rfl, answers_of_run refused⟩

end InMemoryStore

end MemoryPolicy

import MemoryPolicy.Reconcile.Consolidation
import MemoryPolicy.Transition

/-! Consolidation by processes that stop at any point: before a text that the resolver has answered
to add is stored, before it is observed, or between two texts.  The next process seeds its resolver
with the first seeds and with what is stored.  Texts may be delivered again, at any time. -/

namespace MemoryPolicy

open ExactHashResolver FirstSeen Transition

/-- How far a process has come: it has no text in hand, or one that the resolver has answered to add
and that is not stored yet, or one that is stored and not observed yet. -/
inductive Progress
  | idle
  | adding (text : String)
  | added (text : String)
deriving DecidableEq

/-- A process, with all texts that were delivered to it and to earlier ones, and those whose
delivery has come to its end: the text was answered to be a duplicate, or it was stored. -/
structure Worker where
  state : Consolidation
  progress : Progress := .idle
  delivered : List String := []
  completed : List String := []

inductive WorkerAction
  | deliver (text : String)
  | store
  | observe
  | restart

namespace Worker

variable (blake3 : List UInt8 → DedupKey) (seeds : List String)

def start : Worker := { state := .start blake3 seeds }

/-- One step of a process, or the start of the next one. -/
def step (s : Worker) : WorkerAction → Option Worker
  | .deliver text =>
    match s.progress, s.state.resolver.reconcile blake3 text with
    | .idle, .add => some { s with progress := .adding text, delivered := s.delivered ++ [text] }
    | .idle, _ =>
      some { s with delivered := s.delivered ++ [text], completed := s.completed ++ [text] }
    | _, _ => none
  | .store =>
    match s.progress with
    | .adding text =>
      some
        { s with
          state := { s.state with stored := s.state.stored ++ [text] }
          progress := .added text
          completed := s.completed ++ [text] }
    | _ => none
  | .observe =>
    match s.progress with
    | .added text =>
      some
        { s with
          state := { s.state with resolver := s.state.resolver.observe blake3 text }
          progress := .idle }
    | _ => none
  | .restart =>
    some
      { s with
        state := { s.state with resolver := .new blake3 (seeds ++ s.state.stored) }
        progress := .idle }

end Worker

namespace Consolidation

variable {blake3 : List UInt8 → DedupKey} {seeds : List String} {s : Consolidation}

/-! ### One process -/

theorem take_of_seen {text : String} (h : contentHash blake3 text ∈ s.resolver.seen) :
    s.take blake3 text = s := by
  rw [take, reconcile, if_pos h]

theorem take_of_unseen {text : String} (h : contentHash blake3 text ∉ s.resolver.seen) :
    s.take blake3 text =
      { resolver := s.resolver.observe blake3 text, stored := s.stored ++ [text] } := by
  rw [take, reconcile, if_neg h]

/-- A process knows the texts that it was given, stored or not. -/
theorem knows_take {given : List String} (h : s.resolver.Knows blake3 given) (text : String) :
    (s.take blake3 text).resolver.Knows blake3 (given ++ [text]) := by
  by_cases seen : contentHash blake3 text ∈ s.resolver.seen
  · have again : insert (contentHash blake3 text) s.resolver.seen = s.resolver.seen :=
      Finset.insert_eq_of_mem seen
    have observed := h.observe text
    rw [Knows, observe, again] at observed
    rwa [take_of_seen seen]
  · rw [take_of_unseen seen]
    exact h.observe text

theorem knows_stored_take (h : s.resolver.Knows blake3 (seeds ++ s.stored)) (text : String) :
    (s.take blake3 text).resolver.Knows blake3 (seeds ++ (s.take blake3 text).stored) := by
  by_cases seen : contentHash blake3 text ∈ s.resolver.seen
  · rwa [take_of_seen seen]
  · rw [take_of_unseen seen, ← List.append_assoc]
    exact h.observe text

theorem run_concat (stream : List String) (text : String) :
    run blake3 seeds (stream ++ [text]) = (run blake3 seeds stream).take blake3 text := by
  rw [run, List.foldl_append]
  rfl

theorem knows_run (stream : List String) :
    (run blake3 seeds stream).resolver.Knows blake3 (seeds ++ stream) := by
  induction stream using List.reverseRecOn with
  | nil => simpa [run, start] using knows_new seeds
  | append_singleton stream text ih =>
    rw [run_concat, ← List.append_assoc]
    exact knows_take ih text

theorem knows_stored_run (stream : List String) :
    (run blake3 seeds stream).resolver.Knows blake3
      (seeds ++ (run blake3 seeds stream).stored) := by
  induction stream using List.reverseRecOn with
  | nil => simpa [run, start] using knows_new seeds
  | append_singleton stream text ih =>
    rw [run_concat]
    exact knows_stored_take ih text

/-- A text that is given again changes nothing. -/
theorem run_eraseDups_concat (stream : List String) (text : String) :
    run blake3 seeds (stream ++ [text]).eraseDups =
      (run blake3 seeds stream.eraseDups).take blake3 text := by
  by_cases h : text ∈ stream
  · rw [eraseDups_concat_of_mem h, take_of_seen]
    rw [knows_run, List.mem_toFinset]
    exact List.mem_map_of_mem (List.mem_append_right _ (List.mem_eraseDups.mpr h))
  · rw [eraseDups_concat_of_not_mem h, run_concat]

end Consolidation

namespace Worker

variable {blake3 : List UInt8 → DedupKey} {seeds : List String} {s t : Worker}

/-! ### Steps and runs -/

/-- The consolidation when the text in hand, if it is stored, is observed. -/
def settled (blake3 : List UInt8 → DedupKey) (s : Worker) : Consolidation :=
  match s.progress with
  | .added text => { s.state with resolver := s.state.resolver.observe blake3 text }
  | _ => s.state

/-- But for a text in hand, the process is one that was given the completed texts once. -/
structure Sound (blake3 : List UInt8 → DedupKey) (seeds : List String) (s : Worker) : Prop where
  settled : s.settled blake3 = .run blake3 seeds s.completed.eraseDups
  adding : ∀ {text}, s.progress = .adding text →
    contentHash blake3 text ∉ s.state.resolver.seen ∧ text ∈ s.delivered
  completed : s.completed ⊆ s.delivered

theorem stored_settled (s : Worker) : (s.settled blake3).stored = s.state.stored := by
  unfold settled
  split <;> rfl

theorem sound_start : Sound blake3 seeds (start blake3 seeds) :=
  ⟨rfl, nofun, List.Subset.refl _⟩

theorem Sound.deliver (h : Sound blake3 seeds s) (idle : s.progress = .idle) (text : String)
    (taken : s.step blake3 seeds (.deliver text) = some t) : Sound blake3 seeds t := by
  have now : s.state = .run blake3 seeds s.completed.eraseDups := by
    rw [← h.settled, Worker.settled, idle]
  by_cases seen : contentHash blake3 text ∈ s.state.resolver.seen
  · simp only [Worker.step, idle, reconcile, if_pos seen, Option.some.injEq] at taken
    subst taken
    refine ⟨?_, ?_, ?_⟩
    · rw [Consolidation.run_eraseDups_concat, ← now, Consolidation.take_of_seen seen]
      rfl
    · rintro _ ⟨⟩
    · exact List.append_subset.mpr ⟨List.subset_append_of_subset_left _ h.completed,
        List.subset_append_right _ _⟩
  · simp only [Worker.step, idle, reconcile, if_neg seen, Option.some.injEq] at taken
    subst taken
    refine ⟨now, ?_, List.subset_append_of_subset_left _ h.completed⟩
    rintro _ ⟨⟩
    exact ⟨seen, by simp⟩

theorem Sound.store (h : Sound blake3 seeds s) {text : String} (adding : s.progress = .adding text)
    (taken : s.step blake3 seeds .store = some t) : Sound blake3 seeds t := by
  have now : s.state = .run blake3 seeds s.completed.eraseDups := by
    rw [← h.settled, Worker.settled, adding]
  obtain ⟨unseen, delivered⟩ := h.adding adding
  simp only [Worker.step, adding, Option.some.injEq] at taken
  subst taken
  refine ⟨?_, nofun, ?_⟩
  · rw [Consolidation.run_eraseDups_concat, ← now, Consolidation.take_of_unseen unseen]
    rfl
  · exact List.append_subset.mpr ⟨h.completed, by simpa using delivered⟩

theorem Sound.observe (h : Sound blake3 seeds s) {text : String} (added : s.progress = .added text)
    (taken : s.step blake3 seeds .observe = some t) : Sound blake3 seeds t := by
  have observed := h.settled
  rw [Worker.settled, added] at observed
  simp only [Worker.step, added, Option.some.injEq] at taken
  subst taken
  exact ⟨observed, nofun, h.completed⟩

/-- A new process knows what the last one would have known. -/
theorem Sound.restart (h : Sound blake3 seeds s) :
    Sound blake3 seeds
      { s with
        state := { s.state with resolver := .new blake3 (seeds ++ s.state.stored) }
        progress := .idle } := by
  refine ⟨?_, nofun, h.completed⟩
  have known := @Consolidation.knows_stored_run blake3 seeds s.completed.eraseDups
  rw [← h.settled, stored_settled] at known
  have same := (knows_new _).unique known fun _ => Iff.rfl
  rw [← h.settled]
  show Consolidation.mk (.new blake3 (seeds ++ s.state.stored)) s.state.stored = _
  rw [same, ← stored_settled]

theorem Sound.step (h : Sound blake3 seeds s) {action : WorkerAction}
    (taken : s.step blake3 seeds action = some t) : Sound blake3 seeds t := by
  cases action with
  | deliver text =>
    cases progress : s.progress with
    | idle => exact h.deliver progress text taken
    | adding _ => simp [Worker.step, progress] at taken
    | added _ => simp [Worker.step, progress] at taken
  | store =>
    cases progress : s.progress with
    | idle => simp [Worker.step, progress] at taken
    | adding _ => exact h.store progress taken
    | added _ => simp [Worker.step, progress] at taken
  | observe =>
    cases progress : s.progress with
    | idle => simp [Worker.step, progress] at taken
    | adding _ => simp [Worker.step, progress] at taken
    | added _ => exact h.observe progress taken
  | restart => exact Option.some.inj taken ▸ h.restart

/-- Whatever the digest, wherever processes stop and however often texts are delivered again, what
is stored is what one process stores that is given each text once, in the order in which the
deliveries first came to their ends.  Once each delivered text has come to its end, a process
without a text in hand knows the seeds and all of them. -/
theorem restarts_change_nothing (run : Free (step blake3 seeds) (start blake3 seeds) s) :
    s.state.stored = (Consolidation.run blake3 seeds s.completed.eraseDups).stored ∧
      (s.progress = .idle → s.state = .run blake3 seeds s.completed.eraseDups) ∧
      (s.progress = .idle → s.delivered ⊆ s.completed →
        s.state.resolver = .new blake3 (seeds ++ s.delivered)) := by
  have sound : Sound blake3 seeds s :=
    run.invariant sound_start fun _ _ _ h _ taken => h.step taken
  have now (idle : s.progress = .idle) : s.state = .run blake3 seeds s.completed.eraseDups := by
    rw [← sound.settled, settled, idle]
  refine ⟨?_, now, ?_⟩
  · rw [← sound.settled, stored_settled]
  · intro idle all
    rw [now idle]
    refine (Consolidation.knows_run _).unique (knows_new _) fun text => ?_
    rw [List.mem_append, List.mem_append, List.mem_eraseDups]
    exact or_congr_right ⟨fun h => sound.completed h, fun h => all h⟩

/-- The first process stops before it stores a text, and the second one before it observes it. -/
def interrupted : List WorkerAction :=
  [.deliver "note", .restart, .deliver "note", .store, .restart, .deliver "hello world", .store,
    .observe]

theorem restarts_change_nothing_note :
    ∃ s : Worker, s.state.stored = ["note", "hello world"] ∧
      s.state = .run Consolidation.noteHash [] ["note", "hello world"] ∧
      s.state.resolver = .new Consolidation.noteHash ["note", "note", "hello world"] := by
  let ran := run (step Consolidation.noteHash []) (fun _ _ => True)
    (start Consolidation.noteHash []) interrupted
  have ends : ran.map (fun s => (s.state.stored, s.progress, s.delivered, s.completed)) =
      some (["note", "hello world"], .idle, ["note", "note", "hello world"],
        ["note", "hello world"]) := by decide +kernel
  obtain ⟨s, taken, ends⟩ := Option.map_eq_some_iff.mp ends
  obtain ⟨stored, idle, delivered, completed⟩ :
      s.state.stored = _ ∧ s.progress = _ ∧ s.delivered = _ ∧ s.completed = _ := by
    simpa only [Prod.mk.injEq] using ends
  obtain ⟨-, once, knows⟩ := restarts_change_nothing (reaches_of_run .refl taken)
  rw [completed] at once knows
  rw [delivered] at knows
  exact ⟨s, stored, once idle, knows idle (by decide)⟩

end Worker

end MemoryPolicy

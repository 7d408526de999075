import MemoryPolicy.Dedup.Gate
import MemoryPolicy.Dedup.Snapshot
import MemoryPolicy.Dedup.Codec

/-! The dedup gate across restarts of its process.  The backing store stays; the set of keys and the
clients are lost, and the new process replays a list of hexadecimal keys into a fresh set.  The list
is the snapshot of a process whose clients have finished, or it is read from the keys that are
stamped into the stored entries, in which case the process may have stopped at any point. -/

namespace MemoryPolicy

open EntryFields (teamEntry teamHash)

variable {ι : Type} (blake3 : List UInt8 → DedupKey)

/-- The keys as they are stamped into the stored entries. -/
def Gate.stamps (s : Gate ι) : List String := (s.keys blake3).map hexEncodeKey

/-- A process at the gate, with the entries of its clients and of those of earlier processes. -/
structure Process (ι : Type) where
  gate : Gate ι
  entries : ι → List EntryFields
  earlier : List (ι → List EntryFields) := []

inductive ProcessAction (ι : Type)
  | gate (action : GateAction ι)
  | restart (hexes : List String) (entries : ι → List EntryFields)

namespace Process

def start (entries : ι → List EntryFields) : Process ι := ⟨Gate.start entries, entries, []⟩

/-- One step of a process, or the start of the next one. -/
def step [DecidableEq ι] (s : Process ι) : ProcessAction ι → Option (Process ι)
  | .gate action => (s.gate.step blake3 action).map fun gate => { s with gate }
  | .restart hexes entries =>
    match DedupSet.new.extendFromSnapshot hexes with
    | .ok set =>
      some
        { gate := { s.gate with set, clients := fun i => { todo := entries i } }
          entries
          earlier := s.earlier ++ [s.entries] }
    | .error _ => none

/-- The process has finished, and the next one replays its snapshot. -/
def Graceful (s : Process ι) (hexes : List String) : Prop :=
  s.gate.Finished ∧ ∃ iteration, s.gate.set.snapshot iteration = .ok hexes

/-- The gate is clear, and processes restart gracefully. -/
def InTurn (s : Process ι) : ProcessAction ι → Prop
  | .gate action => s.gate.Clear blake3 action
  | .restart hexes _ => s.Graceful hexes

/-- The gate is clear, and processes restart gracefully or, wherever the last one has stopped, from
the stamps in the store. -/
def Rebuilt (s : Process ι) : ProcessAction ι → Prop
  | .gate action => s.gate.Clear blake3 action
  | .restart hexes _ => s.Graceful hexes ∨ hexes = s.gate.stamps blake3

variable {blake3} {s t : Process ι}

/-! ### Restarts -/

theorem mem_seen_iff_of_finished {gate : Gate ι} (h : gate.Orderly blake3)
    (finished : gate.Finished) (k : DedupKey) : k ∈ gate.set.seen ↔ k ∈ gate.keys blake3 := by
  have copies := (h.exclusive k).idle (Gate.phase_view_of_finished finished k)
  rw [← List.count_pos_iff]
  simp only [Gate.view] at copies
  rw [copies]
  by_cases seen : k ∈ gate.set.seen <;> simp [seen]

theorem mem_replay_snapshot {gate : Gate ι} (h : gate.Orderly blake3) (finished : gate.Finished)
    {hexes : List String} {iteration : Iteration gate.set.seen}
    (snapshot : gate.set.snapshot iteration = .ok hexes) (k : DedupKey) :
    k ∈ DedupSet.replay ∅ hexes ↔ k ∈ gate.keys blake3 := by
  obtain ⟨hexes', same, exact⟩ := DedupSet.snapshot_of_open h.unlocked iteration
  obtain rfl := Except.ok.inj (snapshot.symm.trans same)
  rw [DedupSet.replay_snapshot exact, Finset.empty_union, mem_seen_iff_of_finished h finished]

theorem mem_replay_stamps (gate : Gate ι) (k : DedupKey) :
    k ∈ DedupSet.replay ∅ (gate.stamps blake3) ↔ k ∈ gate.keys blake3 := by
  rw [DedupSet.mem_replay]
  have none : k ∉ (∅ : Finset DedupKey) := Finset.notMem_empty k
  simp only [none, false_or]
  exact DedupSet.exists_denotes_map_hexEncode

/-- A process that starts with the keys of the store is as orderly as one that starts afresh. -/
theorem orderly_restart {gate : Gate ι} (h : gate.Orderly blake3) {set : DedupSet}
    (unlocked : set.poisoned = false) (seen : ∀ k, k ∈ set.seen ↔ k ∈ gate.keys blake3)
    (entries : ι → List EntryFields) :
    Gate.Orderly blake3 { gate with set, clients := fun i => { todo := entries i } } where
  unlocked := unlocked
  exclusive k :=
    { one := fun _ _ busy => absurd rfl busy
      accounts := fun _ busy => absurd rfl busy
      idle := fun _ => by
        have once := List.nodup_iff_count_le_one.mp h.nodup k
        show (gate.keys blake3).count k = (decide (k ∈ set.seen)).toNat
        by_cases mem : k ∈ gate.keys blake3
        · have := List.count_pos_iff.mpr mem
          simp only [seen, mem, decide_true, Bool.toNat_true]
          omega
        · simp [seen, mem, List.count_eq_zero_of_not_mem mem] }

theorem accounted_restart {gate : Gate ι} {set : DedupSet} (unlocked : set.poisoned = false)
    (entries : ι → List EntryFields) :
    Gate.Accounted blake3 entries { gate with set, clients := fun i => { todo := entries i } } where
  unlocked := unlocked
  sound _ _ := trivial
  traced _ _ he := .inl he

/-! ### Runs -/

variable (blake3) in
/-- The gate writes in order, and it accounts for the entries of the process. -/
structure Sound [DecidableEq ι] (s : Process ι) : Prop where
  orderly : s.gate.Orderly blake3
  accounted : s.gate.Accounted blake3 s.entries

variable [DecidableEq ι]

theorem Sound.restart (h : Sound blake3 s) {hexes : List String} {entries : ι → List EntryFields}
    (seen : ∀ k, k ∈ DedupSet.replay ∅ hexes ↔ k ∈ s.gate.keys blake3)
    (taken : s.step blake3 (.restart hexes entries) = some t) :
    Sound blake3 t ∧ t.earlier = s.earlier ++ [s.entries] ∧
      t.gate.set.seen = DedupSet.replay ∅ hexes := by
  obtain rfl := Option.some.inj taken
  exact ⟨⟨orderly_restart h.orderly rfl seen entries, accounted_restart rfl entries⟩, rfl, rfl⟩

theorem Sound.gate (h : Sound blake3 s) {action : GateAction ι}
    (clear : s.gate.Clear blake3 action) (taken : s.step blake3 (.gate action) = some t) :
    Sound blake3 t ∧ t.earlier = s.earlier ∧ s.gate.set.seen ⊆ t.gate.set.seen := by
  obtain ⟨gate, moved, rfl⟩ := Option.map_eq_some_iff.mp taken
  refine ⟨⟨h.orderly.step clear moved, h.accounted.step moved⟩, rfl, ?_⟩
  have effect := Gate.effect_of_step h.orderly.unlocked moved
  cases effect with
  | insert => exact Finset.subset_insert _ _
  | insertLast => exact Finset.subset_insert _ _
  | _ => exact Finset.Subset.refl _

theorem Sound.replayed (h : Sound blake3 s) {hexes : List String}
    (rebuilt : s.Graceful hexes ∨ hexes = s.gate.stamps blake3) (k : DedupKey) :
    k ∈ DedupSet.replay ∅ hexes ↔ k ∈ s.gate.keys blake3 := by
  rcases rebuilt with ⟨finished, iteration, snapshot⟩ | rfl
  · exact mem_replay_snapshot h.orderly finished snapshot k
  · exact mem_replay_stamps s.gate k

theorem sound_start (entries : ι → List EntryFields) : Sound blake3 (start entries) :=
  ⟨Gate.orderly_start entries, Gate.accounted_start entries⟩

theorem sound_of_run {entries : ι → List EntryFields}
    (run : Transition.Reaches (step blake3) (Rebuilt blake3) (start entries) s) :
    Sound blake3 s := by
  refine run.invariant (sound_start entries) ?_
  intro s action t h allowed taken
  cases action with
  | gate action => exact (h.gate allowed taken).1
  | restart hexes entries => exact (h.restart (h.replayed allowed) taken).1

theorem Sound.written (h : Sound blake3 s) (finished : s.gate.Finished) {i : ι} {e : EntryFields}
    (he : e ∈ s.entries i) : e.key blake3 ∈ s.gate.set.seen := by
  simpa [Gate.Traced, finished i] using h.accounted.traced i e he

theorem Sound.count_eq_one (h : Sound blake3 s) (finished : s.gate.Finished) {k : DedupKey}
    (seen : k ∈ s.gate.set.seen) : (s.gate.keys blake3).count k = 1 := by
  rw [mem_seen_iff_of_finished h.orderly finished] at seen
  have once := List.nodup_iff_count_le_one.mp h.orderly.nodup k
  have := List.count_pos_iff.mpr seen
  omega

theorem step_of_seen {i : ι} {e : EntryFields} {todo : List EntryFields}
    (unlocked : s.gate.set.poisoned = false) (client : s.gate.clients i = ⟨e :: todo, .ready⟩)
    (seen : e.key blake3 ∈ s.gate.set.seen) :
    s.step blake3 (.gate (.contains i)) =
      some { s with gate := s.gate.setClient i ⟨todo, .ready⟩ } := by
  simp only [step, Gate.step, client, DedupSet.contains_of_open unlocked, seen, decide_true,
    Option.map_some]

/-- A set that is rebuilt from the stamps in the store is safe wherever the last process has
stopped: in every clear run no key is written twice, in one process or across restarts, and a
process that finishes has each of its entries in the store exactly once. -/
theorem rebuilt_writes_once {entries : ι → List EntryFields}
    (run : Transition.Reaches (step blake3) (Rebuilt blake3) (start entries) s) :
    (s.gate.keys blake3).Nodup ∧
      (s.gate.Finished → ∀ i, ∀ e ∈ s.entries i,
        (s.gate.keys blake3).count (e.key blake3) = 1) := by
  have sound := sound_of_run run
  refine ⟨sound.orderly.nodup, ?_⟩
  intro finished i e he
  exact sound.count_eq_one finished (sound.written finished he)

/-- A process stops between the append and the `insert`, and the next one has the same entry. -/
theorem rebuilt_writes_once_crash :
    ∃ s : Process Unit, s.earlier = [fun _ => [teamEntry]] ∧ s.entries () = [teamEntry] ∧
      s.gate.Finished ∧ (s.gate.keys teamHash).count (teamEntry.key teamHash) = 1 := by
  have begun : Transition.Reaches (step teamHash) (Rebuilt teamHash)
    (start fun _ : Unit => [teamEntry]) (start fun _ => [teamEntry]) := .refl
  have asked := begun.next (a := ProcessAction.gate (.contains ())) (fun _ _ _ => nofun) rfl
  have appended := asked.next (a := ProcessAction.gate (.append ())) trivial rfl
  have restarted := appended.next
    (a := ProcessAction.restart [hexEncodeKey (teamEntry.key teamHash)] fun _ => [teamEntry])
    (.inr rfl) rfl
  let stored : Gate Unit := { Gate.start (fun _ => []) with store := [teamEntry] }
  have skipped := restarted.next (a := ProcessAction.gate (.contains ())) (fun _ _ _ => nofun)
    (step_of_seen rfl rfl ((mem_replay_stamps stored _).mpr List.mem_cons_self))
  exact ⟨_, rfl, rfl, fun _ => rfl,
    (rebuilt_writes_once skipped).2 (fun _ => rfl) () _ List.mem_cons_self⟩

variable (blake3) in
/-- The entries of earlier processes are recorded. -/
structure Remembers (s : Process ι) : Prop where
  sound : Sound blake3 s
  earlier : ∀ entries ∈ s.earlier, ∀ i, ∀ e ∈ entries i, e.key blake3 ∈ s.gate.set.seen

theorem remembers_of_run {entries : ι → List EntryFields}
    (run : Transition.Reaches (step blake3) (InTurn blake3) (start entries) s) :
    Remembers blake3 s := by
  refine run.invariant ⟨sound_start entries, nofun⟩ ?_
  rintro s action t ⟨sound, earlier⟩ allowed taken
  cases action with
  | gate action =>
    obtain ⟨sound', same, grows⟩ := sound.gate allowed taken
    rw [← same] at earlier
    exact ⟨sound', fun entries mem i e he => grows (earlier entries mem i e he)⟩
  | restart hexes entries =>
    have replayed := sound.replayed (.inl allowed)
    obtain ⟨sound', same, seen⟩ := sound.restart replayed taken
    have kept : ∀ k, k ∈ s.gate.set.seen → k ∈ t.gate.set.seen := by
      intro k hk
      rw [seen, replayed]
      exact (mem_seen_iff_of_finished sound.orderly allowed.1 k).mp hk
    refine ⟨sound', ?_⟩
    intro entries mem i e he
    rw [same] at mem
    rcases List.mem_append.mp mem with old | last
    · exact kept _ (earlier entries old i e he)
    · obtain rfl := List.mem_singleton.mp last
      exact kept _ (sound.written allowed.1 he)

/-- Snapshots make the gate idempotent across restarts: where each process finishes, and the next
one replays its snapshot, every entry of every process is in the store exactly once. -/
theorem graceful_writes_once {entries : ι → List EntryFields}
    (run : Transition.Reaches (step blake3) (InTurn blake3) (start entries) s) :
    (s.gate.keys blake3).Nodup ∧
      (s.gate.Finished → ∀ entries ∈ s.entries :: s.earlier, ∀ i, ∀ e ∈ entries i,
        (s.gate.keys blake3).count (e.key blake3) = 1) := by
  have remembers := remembers_of_run run
  refine ⟨remembers.sound.orderly.nodup, ?_⟩
  intro finished entries mem i e he
  apply remembers.sound.count_eq_one finished
  rcases List.mem_cons.mp mem with rfl | mem
  · exact remembers.sound.written finished he
  · exact remembers.earlier entries mem i e he

/-- A client finishes with an entry, and the next process has the same entry. -/
theorem graceful_writes_once_twice :
    ∃ s : Process Unit, s.earlier = [fun _ => [teamEntry]] ∧ s.entries () = [teamEntry] ∧
      s.gate.Finished ∧ (s.gate.keys teamHash).count (teamEntry.key teamHash) = 1 := by
  have begun : Transition.Reaches (step teamHash) (InTurn teamHash)
    (start fun _ : Unit => [teamEntry]) (start fun _ => [teamEntry]) := .refl
  have asked := begun.next (a := ProcessAction.gate (.contains ())) (fun _ _ _ => nofun) rfl
  have appended := asked.next (a := ProcessAction.gate (.append ())) trivial rfl
  have inserted := appended.next (a := ProcessAction.gate (.insert ())) trivial rfl
  let key := teamEntry.key teamHash
  have iteration : Iteration {key} := ⟨[key], List.nodup_singleton key, by simp⟩
  obtain ⟨hexes, taken, -⟩ := @DedupSet.snapshot_of_open ⟨_, false⟩ rfl iteration
  have restarted := inserted.next (a := ProcessAction.restart hexes fun _ => [teamEntry])
    ⟨fun _ => rfl, iteration, taken⟩ rfl
  have seen := (remembers_of_run restarted).earlier _ List.mem_cons_self () _ List.mem_cons_self
  have skipped := restarted.next (a := ProcessAction.gate (.contains ())) (fun _ _ _ => nofun)
    (step_of_seen rfl rfl seen)
  exact ⟨_, rfl, rfl, fun _ => rfl, (graceful_writes_once skipped).2 (fun _ => rfl) _
    (List.mem_cons_of_mem _ List.mem_cons_self) () _ List.mem_cons_self⟩

end Process

end MemoryPolicy

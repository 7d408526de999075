import MemoryPolicy.Dedup.Hex
import MemoryPolicy.Dedup.Set
import MemoryPolicy.StableSort
import Mathlib.Data.Finset.Lattice.Lemmas

/-! Snapshots of the dedup set of `src/dedup.rs`.  The hash set is listed in an unspecified order,
so this order is an argument; the sorted snapshot does not depend on it. -/

namespace MemoryPolicy

open StableSort

/-- An order in which `HashSet::iter` may list the keys of a set. -/
structure Iteration (seen : Finset DedupKey) where
  keys : List DedupKey
  nodup : keys.Nodup
  mem_iff : ∀ key, key ∈ keys ↔ key ∈ seen

namespace DedupSet

def snapshot (self : DedupSet) (iteration : Iteration self.seen) :
    Except PolicyError (List String) :=
  if self.poisoned then .error .poisoned
  else
    let out := iteration.keys.map hexEncode
    .ok (sortBy compare out)

/-- The loop of `extend_from_snapshot`; malformed entries are skipped. -/
def replay (seen : Finset DedupKey) (hexes : List String) : Finset DedupKey :=
  hexes.foldl
    (fun seen hex =>
      match hexDecode hex with
      | some key => Insert.insert key seen
      | none => seen)
    seen

/-- `DedupSet::extend_from_snapshot`, with the set it leaves. -/
def extendFromSnapshot (self : DedupSet) (hexes : List String) : Except PolicyError DedupSet :=
  if self.poisoned then .error .poisoned else .ok { self with seen := replay self.seen hexes }

/-- The calls that change a set. -/
inductive Call
  | insert (key : DedupKey)
  | extendFromSnapshot (hexes : List String)

def perform (self : DedupSet) : Call → Except PolicyError DedupSet
  | .insert key => self.insert key
  | .extendFromSnapshot hexes => self.extendFromSnapshot hexes

def performAll (self : DedupSet) (calls : List Call) : Except PolicyError DedupSet :=
  calls.foldlM perform self

/-- The key is inserted, or a text of the snapshot denotes it. -/
def Call.Adds (key : DedupKey) : Call → Prop
  | .insert k => key = k
  | .extendFromSnapshot hexes => ∃ hex ∈ hexes, Denotes hex.toList key.toList

/-- A set after some calls, from a set with some keys. -/
def Reachable (self : DedupSet) : Prop :=
  ∃ initial calls, performAll { seen := initial } calls = .ok self

/-! ### Runs of calls -/

theorem mem_replay {seen : Finset DedupKey} {hexes : List String} {key : DedupKey} :
    key ∈ replay seen hexes ↔ key ∈ seen ∨ ∃ hex ∈ hexes, Denotes hex.toList key.toList := by
  simp only [← hexDecode_eq_some_iff]
  rw [replay]
  induction hexes generalizing seen with
  | nil => simp
  | cons hex hexes ih =>
    rw [List.foldl_cons, ih]
    cases hd : hexDecode hex with
    | none => simp [hd]
    | some k => simp [hd, or_assoc, eq_comm, or_left_comm]

theorem perform_of_open {self : DedupSet} (h : self.poisoned = false) (call : Call) :
    ∃ next, self.perform call = .ok next ∧ next.poisoned = false ∧
      ∀ key, key ∈ next.seen ↔ key ∈ self.seen ∨ call.Adds key := by
  cases call with
  | insert k =>
    refine ⟨_, insert_of_open h k, h, fun key => ?_⟩
    rw [Finset.mem_insert, or_comm]
    rfl
  | extendFromSnapshot hexes =>
    refine ⟨{ self with seen := replay self.seen hexes }, ?_, h, fun key => mem_replay⟩
    simp [perform, extendFromSnapshot, h]

/-- After any calls, a set has the keys it had and those that the calls add. -/
theorem performAll_of_open {self : DedupSet} (h : self.poisoned = false) (calls : List Call) :
    ∃ final, self.performAll calls = .ok final ∧ final.poisoned = false ∧
      ∀ key, key ∈ final.seen ↔ key ∈ self.seen ∨ ∃ call ∈ calls, call.Adds key := by
  induction calls generalizing self with
  | nil => exact ⟨self, rfl, h, by simp⟩
  | cons call calls ih =>
    obtain ⟨next, step, hnext, seen⟩ := perform_of_open h call
    obtain ⟨final, rest, hfinal, seen'⟩ := ih hnext
    refine ⟨final, ?_, hfinal, fun key => ?_⟩
    · rw [performAll, List.foldlM_cons, step]
      exact rest
    · rw [seen', seen]
      simp [or_assoc]

theorem Reachable.unpoisoned {self : DedupSet} (h : self.Reachable) : self.poisoned = false := by
  obtain ⟨initial, calls, run⟩ := h
  have fresh : DedupSet.poisoned { seen := initial } = false := rfl
  obtain ⟨final, run', unpoisoned, -⟩ := performAll_of_open fresh calls
  rw [Except.ok.inj (run.symm.trans run')]
  exact unpoisoned

/-! ### Snapshots -/

/-- The snapshot of the keys: their hexadecimal forms, in the byte-lexicographic order of the keys
and so strictly increasing. -/
structure SnapshotOf (seen : Finset DedupKey) (hexes : List String) : Prop where
  keys : ∃ keys : List DedupKey, hexes = keys.map hexEncode ∧
    (keys.Pairwise fun p q => p.toList < q.toList) ∧ ∀ key, key ∈ keys ↔ key ∈ seen
  increasing : hexes.Pairwise (· < ·)
  digits : ∀ hex ∈ hexes, hex.toList.length = 64 ∧ ∀ c ∈ hex.toList, c ∈ lowerDigits
  denotes : ∀ key, (∃ hex ∈ hexes, Denotes hex.toList key.toList) ↔ key ∈ seen

theorem exists_denotes_map_hexEncode {keys : List DedupKey} {key : DedupKey} :
    (∃ hex ∈ keys.map hexEncode, Denotes hex.toList key.toList) ↔ key ∈ keys := by
  simp only [List.mem_map]
  constructor
  · rintro ⟨_, ⟨k, hk, rfl⟩, denotes⟩
    rwa [denotes_hexEncode_iff.mp denotes]
  · intro hk
    exact ⟨_, ⟨key, hk, rfl⟩, denotes_hexEncode key⟩

theorem snapshotOf_sortBy {seen : Finset DedupKey} (iteration : Iteration seen) :
    SnapshotOf seen (sortBy compare (iteration.keys.map hexEncode)) := by
  have sorts := sortBy_perm (fun p q => compare (hexEncode p) (hexEncode q)) iteration.keys
  have sorted := sortBy_pairwise compare (iteration.keys.map hexEncode)
  have nodup : (sortBy compare (iteration.keys.map hexEncode)).Nodup :=
    (sortBy_perm _ _).nodup_iff.mpr (iteration.nodup.map hexEncode_injective)
  have increasing : (sortBy compare (iteration.keys.map hexEncode)).Pairwise (· < ·) := by
    refine (sorted.and nodup).imp fun ⟨before, distinct⟩ => lt_of_le_of_ne ?_ distinct
    exact compare_le_iff_le.mp (Ordering.isLE_iff_ne_gt.mp before)
  refine ⟨⟨_, sortBy_map compare hexEncode iteration.keys, ?_, ?_⟩, increasing, ?_, ?_⟩
  · rw [sortBy_map, List.pairwise_map] at increasing
    exact increasing.imp hexEncode_lt_iff.mp
  · intro key
    rw [sorts.mem_iff]
    exact iteration.mem_iff key
  · intro hex hmem
    obtain ⟨key, -, rfl⟩ := List.mem_map.mp ((sortBy_perm _ _).subset hmem)
    exact ⟨length_hexEncode key, fun c => mem_lowerDigits_of_mem_hexEncode⟩
  · intro key
    rw [sortBy_map, exists_denotes_map_hexEncode, sorts.mem_iff]
    exact iteration.mem_iff key

theorem snapshot_of_open {self : DedupSet} (h : self.poisoned = false)
    (iteration : Iteration self.seen) :
    ∃ hexes, self.snapshot iteration = .ok hexes ∧ SnapshotOf self.seen hexes :=
  ⟨_, by simp [snapshot, h], snapshotOf_sortBy iteration⟩

/-- The snapshot is a function of the set of keys. -/
theorem SnapshotOf.unique {seen : Finset DedupKey} {hexes hexes' : List String}
    (h : SnapshotOf seen hexes) (h' : SnapshotOf seen hexes') : hexes = hexes' := by
  have mem {hexes : List String} (h : SnapshotOf seen hexes) (hex : String) :
      hex ∈ hexes ↔ ∃ key ∈ seen, hexEncode key = hex := by
    obtain ⟨keys, rfl, -, hkeys⟩ := h.keys
    simp only [List.mem_map, hkeys]
  have same : hexes.Perm hexes' :=
    (List.perm_ext_iff_of_nodup (h.increasing.imp ne_of_lt) (h'.increasing.imp ne_of_lt)).mpr
      fun hex => (mem h hex).trans (mem h' hex).symm
  refine same.eq_of_pairwise ?_ h.increasing h'.increasing
  intro _ _ _ _ before behind
  exact absurd behind (lt_asymm before)

theorem SnapshotOf.injective {seen seen' : Finset DedupKey} {hexes : List String}
    (h : SnapshotOf seen hexes) (h' : SnapshotOf seen' hexes) : seen = seen' :=
  Finset.ext fun key => (h.denotes key).symm.trans (h'.denotes key)

theorem replay_snapshot {seen seen' : Finset DedupKey} {hexes : List String}
    (h : SnapshotOf seen hexes) : replay seen' hexes = seen' ∪ seen := by
  ext key
  rw [mem_replay, Finset.mem_union, h.denotes]

theorem snapshot_eq_iff {a b : DedupSet} (ha : a.poisoned = false) (hb : b.poisoned = false)
    (ia : Iteration a.seen) (ib : Iteration b.seen) :
    a.snapshot ia = b.snapshot ib ↔ a.seen = b.seen := by
  obtain ⟨hexes, ea, sa⟩ := snapshot_of_open ha ia
  obtain ⟨hexes', eb, sb⟩ := snapshot_of_open hb ib
  rw [ea, eb, Except.ok.injEq]
  constructor
  · rintro rfl
    exact sa.injective sb
  · intro same
    exact sa.unique (same ▸ sb)

theorem extend_snapshot {a b : DedupSet} (ha : a.poisoned = false) (hb : b.poisoned = false)
    (ia : Iteration a.seen) {hexes : List String} (h : a.snapshot ia = .ok hexes) :
    b.extendFromSnapshot hexes = .ok { b with seen := b.seen ∪ a.seen } := by
  obtain ⟨hexes', ea, sa⟩ := snapshot_of_open ha ia
  obtain rfl := Except.ok.inj (h.symm.trans ea)
  simp [extendFromSnapshot, hb, replay_snapshot sa]

/-- The history of a set and its snapshots: a run of calls leaves exactly the keys that it adds,
a snapshot determines the keys and is determined by them, and to replay it is to take the union. -/
theorem snapshots_exact :
    (∀ initial calls, ∃ self, performAll { seen := initial } calls = .ok self ∧
      ∀ key, key ∈ self.seen ↔ key ∈ initial ∨ ∃ call ∈ calls, call.Adds key) ∧
    (∀ (self : DedupSet) (iteration : Iteration self.seen), self.Reachable →
      ∃ hexes, self.snapshot iteration = .ok hexes ∧ SnapshotOf self.seen hexes) ∧
    (∀ (a b : DedupSet) (ia : Iteration a.seen) (ib : Iteration b.seen), a.Reachable →
      b.Reachable → (a.snapshot ia = b.snapshot ib ↔ a.seen = b.seen)) ∧
    (∀ (a b : DedupSet) (ia : Iteration a.seen) (hexes : List String), a.Reachable →
      b.Reachable → a.snapshot ia = .ok hexes →
      b.extendFromSnapshot hexes = .ok { b with seen := b.seen ∪ a.seen }) ∧
    (∀ (a : DedupSet) (ia : Iteration a.seen) (hexes : List String), a.Reachable →
      a.snapshot ia = .ok hexes → ∃ restored, new.extendFromSnapshot hexes = .ok restored ∧
        ∀ iteration, restored.snapshot iteration = .ok hexes) := by
  refine ⟨?_, ?_, ?_, ?_, ?_⟩
  · intro initial calls
    have fresh : DedupSet.poisoned { seen := initial } = false := rfl
    obtain ⟨final, run, -, seen⟩ := performAll_of_open fresh calls
    exact ⟨final, run, seen⟩
  · intro self iteration reachable
    exact snapshot_of_open reachable.unpoisoned iteration
  · intro a b ia ib ha hb
    exact snapshot_eq_iff ha.unpoisoned hb.unpoisoned ia ib
  · intro a b ia hexes ha hb h
    exact extend_snapshot ha.unpoisoned hb.unpoisoned ia h
  · intro a ia hexes ha h
    refine ⟨_, extend_snapshot ha.unpoisoned rfl ia h, fun iteration => ?_⟩
    rw [← h]
    exact (snapshot_eq_iff rfl ha.unpoisoned iteration ia).mpr (Finset.empty_union a.seen)

end DedupSet

end MemoryPolicy

import MemoryPolicy.FirstSeen
import MemoryPolicy.Reconcile.Resolver

/-! Consolidation of a stream of texts through a resolver.  Each text is asked for, and stored and
observed where the answer is to add it, so each new text is stored once. -/

namespace MemoryPolicy

open Bytes FirstSeen ExactHashResolver

structure Consolidation where
  resolver : ExactHashResolver
  stored : List String := []

namespace Consolidation

variable (blake3 : List UInt8 → DedupKey)

def start (seeds : List String) : Consolidation := { resolver := .new blake3 seeds }

/-- One text of the stream. -/
def take (s : Consolidation) (text : String) : Consolidation :=
  match s.resolver.reconcile blake3 text with
  | .add => { resolver := s.resolver.observe blake3 text, stored := s.stored ++ [text] }
  | _ => s

def run (seeds stream : List String) : Consolidation :=
  stream.foldl (take blake3) (start blake3 seeds)

/-- The texts of the stream that are not seeds, in the order of their first occurrences. -/
def fresh (seeds stream : List String) : List String :=
  stream.eraseDups.filter fun text => text ∉ seeds

theorem mem_fresh {seeds stream : List String} {text : String} :
    text ∈ fresh seeds stream ↔ text ∈ stream ∧ text ∉ seeds := by
  simp [fresh, List.mem_eraseDups]

theorem mem_seeds_append_fresh {seeds stream : List String} {text : String} :
    text ∈ seeds ++ fresh seeds stream ↔ text ∈ seeds ∨ text ∈ stream := by
  rw [List.mem_append, mem_fresh]
  tauto

theorem fresh_concat_of_known {seeds stream : List String} {text : String}
    (known : text ∈ seeds ++ fresh seeds stream) :
    fresh seeds (stream ++ [text]) = fresh seeds stream := by
  by_cases seen : text ∈ stream
  · rw [fresh, eraseDups_concat_of_mem seen, fresh]
  · have seed := (mem_seeds_append_fresh.mp known).resolve_right seen
    rw [fresh, eraseDups_concat_of_not_mem seen, List.filter_append, fresh]
    simp [seed]

theorem fresh_concat_of_new {seeds stream : List String} {text : String}
    (new : text ∉ seeds ++ fresh seeds stream) :
    fresh seeds (stream ++ [text]) = fresh seeds stream ++ [text] := by
  rw [mem_seeds_append_fresh, not_or] at new
  rw [fresh, eraseDups_concat_of_not_mem new.2, List.filter_append, fresh]
  simp [new.1]

variable {blake3} {texts : Set String} {seeds stream : List String}

/-- The resolver knows the seeds and the stored texts, which are the fresh ones. -/
structure UpToDate (blake3 : List UInt8 → DedupKey) (seeds stream : List String)
    (s : Consolidation) : Prop where
  stored : s.stored = fresh seeds stream
  knows : s.resolver.Knows blake3 (seeds ++ s.stored)

theorem upToDate_start (seeds : List String) : UpToDate blake3 seeds [] (start blake3 seeds) where
  stored := rfl
  knows := by simpa [start] using knows_new seeds

theorem UpToDate.within {s : Consolidation} (h : UpToDate blake3 seeds stream s)
    (hseeds : ∀ t ∈ seeds, t ∈ texts) (hstream : ∀ t ∈ stream, t ∈ texts) :
    ∀ t ∈ seeds ++ s.stored, t ∈ texts := by
  intro t ht
  rcases List.mem_append.mp ht with seed | stored
  · exact hseeds t seed
  · rw [h.stored] at stored
    exact hstream t (mem_fresh.mp stored).1

theorem UpToDate.take {s : Consolidation} (h : UpToDate blake3 seeds stream s)
    (distinct : Distinguishes blake3 texts) (hseeds : ∀ t ∈ seeds, t ∈ texts)
    (hstream : ∀ t ∈ stream, t ∈ texts) {text : String} (asked : text ∈ texts) :
    UpToDate blake3 seeds (stream ++ [text]) (s.take blake3 text) := by
  have answer := h.knows.reconcile_eq distinct (h.within hseeds hstream) asked
  rw [h.stored] at answer
  by_cases known : text ∈ seeds ++ fresh seeds stream
  · rw [if_pos known] at answer
    rw [Consolidation.take, answer]
    exact ⟨by rw [fresh_concat_of_known known, h.stored], h.knows⟩
  · rw [if_neg known] at answer
    rw [Consolidation.take, answer]
    refine ⟨by rw [fresh_concat_of_new known, h.stored], ?_⟩
    rw [← List.append_assoc]
    exact h.knows.observe text

theorem upToDate_run (distinct : Distinguishes blake3 texts) (hseeds : ∀ t ∈ seeds, t ∈ texts)
    (hstream : ∀ t ∈ stream, t ∈ texts) :
    UpToDate blake3 seeds stream (run blake3 seeds stream) := by
  induction stream using List.reverseRecOn with
  | nil => exact upToDate_start seeds
  | append_singleton stream text ih =>
    rw [run, List.foldl_append]
    apply (ih fun t ht => hstream t (by simp [ht])).take distinct hseeds
    · exact fun t ht => hstream t (by simp [ht])
    · exact hstream text (by simp)

/-- Each text of the stream that is not a seed is stored once, in the order of first occurrences. -/
structure StoresOnce (seeds stream stored : List String) : Prop where
  nodup : stored.Nodup
  mem_iff : ∀ text, text ∈ stored ↔ text ∈ stream ∧ text ∉ seeds
  order : stored.Pairwise fun a b => stream.idxOf a < stream.idxOf b

theorem storesOnce_fresh (seeds stream : List String) :
    StoresOnce seeds stream (fresh seeds stream) where
  nodup := (nodup_eraseDups stream).filter _
  mem_iff _ := mem_fresh
  order := (pairwise_idxOf_eraseDups stream).filter _

/-- The resolver answers `Noop` to the texts that it was seeded with or has observed and `Add` to
the others, and counts the distinct ones. -/
def Answers (blake3 : List UInt8 → DedupKey) (texts : Set String) (resolver : ExactHashResolver)
    (known : List String) : Prop :=
  (∀ text ∈ texts, resolver.reconcile blake3 text = if text ∈ known then .noop else .add) ∧
    resolver.len = known.toFinset.card

theorem answers_of_knows {resolver : ExactHashResolver} {known : List String}
    (h : resolver.Knows blake3 known) (distinct : Distinguishes blake3 texts)
    (within : ∀ t ∈ known, t ∈ texts) : Answers blake3 texts resolver known :=
  ⟨fun _ asked => h.reconcile_eq distinct within asked, h.len_eq distinct within⟩

/-- A stream that is consolidated through a resolver stores each new text once, and at every moment
the resolver knows the seeds and what it has observed, in whatever order and number. -/
theorem consolidation_stores_once (distinct : Distinguishes blake3 texts)
    (hseeds : ∀ t ∈ seeds, t ∈ texts) (hstream : ∀ t ∈ stream, t ∈ texts) :
    (∀ done, done <+: stream → StoresOnce seeds done (run blake3 seeds done).stored ∧
      Answers blake3 texts (run blake3 seeds done).resolver
        (seeds ++ (run blake3 seeds done).stored)) ∧
    (∀ observed : List String, (∀ t ∈ observed, t ∈ texts) →
      Answers blake3 texts (observed.foldl (observe blake3) (.new blake3 seeds))
        (seeds ++ observed)) ∧
    ∀ seeds' observed observed' : List String,
      (∀ t, t ∈ seeds ++ observed ↔ t ∈ seeds' ++ observed') →
      ∀ text, (observed.foldl (observe blake3) (.new blake3 seeds)).reconcile blake3 text =
        (observed'.foldl (observe blake3) (.new blake3 seeds')).reconcile blake3 text := by
  refine ⟨?_, ?_, ?_⟩
  · intro done front
    have hdone : ∀ t ∈ done, t ∈ texts := fun t ht => hstream t (front.subset ht)
    have now := upToDate_run distinct hseeds hdone
    refine ⟨?_, answers_of_knows now.knows distinct (now.within hseeds hdone)⟩
    rw [now.stored]
    exact storesOnce_fresh seeds done
  · intro observed hobserved
    apply answers_of_knows ((knows_new seeds).observeAll observed) distinct
    intro t ht
    exact (List.mem_append.mp ht).elim (hseeds t) (hobserved t)
  · intro seeds' observed observed' same text
    rw [((knows_new seeds).observeAll observed).unique
      ((knows_new seeds').observeAll observed') same]

/-- The digest of two texts, and another one for all other bytes. -/
def noteHash (bytes : List UInt8) : DedupKey :=
  if bytes = utf8 "note" then
    #v[45, 152, 33, 89, 96, 210, 16, 24, 167, 157, 224, 190, 149, 235, 94, 59, 46, 172, 93, 207,
      175, 136, 15, 112, 13, 138, 141, 98, 118, 149, 131, 221]
  else if bytes = utf8 "hello world" then
    #v[215, 73, 129, 239, 167, 10, 12, 136, 11, 141, 140, 25, 133, 208, 117, 219, 203, 246, 121,
      185, 154, 95, 153, 20, 229, 170, 249, 107, 131, 26, 158, 36]
  else .replicate 32 0

theorem consolidation_stores_once_note :
    StoresOnce ["hello world"] ["note", "hello world", "note"]
        (run noteHash ["hello world"] ["note", "hello world", "note"]).stored ∧
      Answers noteHash {"note", "hello world"}
        (run noteHash ["hello world"] ["note", "hello world", "note"]).resolver
        (["hello world"] ++
          (run noteHash ["hello world"] ["note", "hello world", "note"]).stored) := by
  have distinct : Distinguishes noteHash {"note", "hello world"} := by
    rintro a (rfl | rfl) b (rfl | rfl) same
    · rfl
    · exact absurd same (by decide)
    · exact absurd same (by decide)
    · rfl
  exact (consolidation_stores_once distinct (by simp) (by simp)).1 _ (List.prefix_refl _)

end Consolidation

end MemoryPolicy

import MemoryPolicy.Dedup.Hex
import Mathlib.Data.Finset.Card

/-! The exact-hash resolver of `src/reconcile.rs`: a set of hexadecimal content hashes.  A resolver
knows the texts that it was seeded with or has observed, as far as their digests differ. -/

namespace MemoryPolicy

open Bytes

inductive ReconcileOp
  | add
  | update (target : String)
  | delete (target : String)
  | noop
deriving DecidableEq, Repr

structure ExactHashResolver where
  seen : Finset String := ∅
deriving DecidableEq

namespace ExactHashResolver

variable (blake3 : List UInt8 → DedupKey)

def contentHash (text : String) : String :=
  let key := blake3 (utf8 text)
  hexEncodeKey key

def new (existing : List String) : ExactHashResolver :=
  { seen := (existing.map (contentHash blake3)).toFinset }

def observe (self : ExactHashResolver) (text : String) : ExactHashResolver :=
  { self with seen := Insert.insert (contentHash blake3 text) self.seen }

def len (self : ExactHashResolver) : Nat := self.seen.card

def isEmpty (self : ExactHashResolver) : Bool := self.seen = ∅

def reconcile (self : ExactHashResolver) (incoming : String) : ReconcileOp :=
  if contentHash blake3 incoming ∈ self.seen then .noop else .add

/-! ### What a resolver knows -/

/-- No two of the texts have the same digest. -/
def Distinguishes (texts : Set String) : Prop := texts.InjOn fun text => blake3 (utf8 text)

/-- The resolver has the hashes of these texts and no others. -/
def Knows (self : ExactHashResolver) (texts : List String) : Prop :=
  self.seen = (texts.map (contentHash blake3)).toFinset

variable {blake3} {self : ExactHashResolver} {known : List String} {texts : Set String}

theorem contentHash_inj {a b : String} :
    contentHash blake3 a = contentHash blake3 b ↔ blake3 (utf8 a) = blake3 (utf8 b) :=
  hexEncode_injective.eq_iff

theorem Distinguishes.injOn (h : Distinguishes blake3 texts) :
    texts.InjOn (contentHash blake3) := by
  intro a ha b hb same
  exact h ha hb (contentHash_inj.mp same)

theorem knows_new (existing : List String) : (new blake3 existing).Knows blake3 existing := rfl

theorem Knows.observe (h : self.Knows blake3 known) (text : String) :
    (self.observe blake3 text).Knows blake3 (known ++ [text]) := by
  rw [Knows, ExactHashResolver.observe, h]
  ext hash
  simp

/-- Observing texts adds them to those that a resolver knows. -/
theorem Knows.observeAll (h : self.Knows blake3 known) (observed : List String) :
    (observed.foldl (ExactHashResolver.observe blake3) self).Knows blake3 (known ++ observed) := by
  induction observed generalizing self known with
  | nil => simpa using h
  | cons text observed ih => simpa using ih (h.observe text)

theorem Knows.reconcile_eq (h : self.Knows blake3 known) (distinct : Distinguishes blake3 texts)
    (within : ∀ t ∈ known, t ∈ texts) {incoming : String} (asked : incoming ∈ texts) :
    self.reconcile blake3 incoming = if incoming ∈ known then .noop else .add := by
  have seen : contentHash blake3 incoming ∈ self.seen ↔ incoming ∈ known := by
    rw [h, List.mem_toFinset, List.mem_map]
    constructor
    · rintro ⟨t, ht, same⟩
      exact distinct.injOn (within t ht) asked same ▸ ht
    · intro ht
      exact ⟨incoming, ht, rfl⟩
  simp only [reconcile, seen]

theorem Knows.len_eq (h : self.Knows blake3 known) (distinct : Distinguishes blake3 texts)
    (within : ∀ t ∈ known, t ∈ texts) : self.len = known.toFinset.card := by
  have image : (known.map (contentHash blake3)).toFinset =
      known.toFinset.image (contentHash blake3) := by
    ext hash
    simp
  rw [len, h, image, Finset.card_image_of_injOn]
  exact distinct.injOn.mono fun t ht => within t (by simpa using ht)

/-- A resolver depends on the set of the texts that it knows only. -/
theorem Knows.unique {other : ExactHashResolver} {known' : List String}
    (h : self.Knows blake3 known) (h' : other.Knows blake3 known')
    (same : ∀ t, t ∈ known ↔ t ∈ known') : self = other := by
  cases self
  cases other
  simp only [Knows] at h h'
  rw [h, h']
  congr 1
  ext hash
  simp [same]

end ExactHashResolver

end MemoryPolicy

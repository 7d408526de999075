import MemoryPolicy.Metadata.Frame
import MemoryPolicy.StableSort
import MemoryPolicy.Text
import Mathlib.Algebra.Group.Nat.Defs
import Mathlib.Data.Finset.Card

/-! The in-memory episode store of `src/inmem.rs`.  Each operation reads and writes the store in one
critical section of its lock, so it is one step; retrieval ranks the episodes that it has copied
there.  The Unicode tables and the score arithmetic are parameters. -/

namespace MemoryPolicy

open StableSort Text

/-- What the token normalization takes from the Unicode tables. -/
class Unicode where
  isAlphanumeric : Char → Bool
  toLowercase : String → String

/-- The `f32` operations of the lexical score: casts, division and comparisons. -/
class ScoreOps (F : Type) where
  zero : F
  ofUsize : Nat → F
  div : F → F → F
  gt : F → F → Bool
  partialCmp : F → F → Option Ordering

class Episode (E : Type) where
  summary : E → String

structure InMemoryHit (E F : Type) where
  episode : E
  score : F
  key : String
deriving DecidableEq

/-- `InMemoryStore`.  A lock is poisoned when a holder has panicked. -/
structure InMemoryStore (E : Type) where
  nextKey : UInt64 := 0
  episodes : List (String × E) := []
  poisoned : Bool := false
deriving DecidableEq

section Score

variable [Unicode]

/-- `normalized_tokens`.  The hash set is only asked for its members and their number. -/
def normalizedTokens (input : String) : Finset String :=
  ((((splitWhitespace input).map (trimMatches fun ch => !Unicode.isAlphanumeric ch)).filter
    fun token => token ≠ "").map Unicode.toLowercase).toFinset

def lexicalScore {F : Type} [ScoreOps F] (query summary : String) : F :=
  let queryTokens := normalizedTokens query
  if queryTokens.card = 0 then ScoreOps.zero
  else
    let summaryTokens := normalizedTokens summary
    let intersection : F := ScoreOps.ofUsize (queryTokens ∩ summaryTokens).card
    ScoreOps.div intersection (ScoreOps.ofUsize queryTokens.card)

end Score

namespace InMemoryStore

variable {E : Type}

def new : InMemoryStore E := {}

def saturatingAdd (a b : UInt64) : UInt64 :=
  if a.toNat + b.toNat < 2 ^ 64 then a + b else .ofNat (2 ^ 64 - 1)

/-- `format!("ep-{:016x}", n)` -/
def storageKey (n : UInt64) : String :=
  "ep-" ++ .ofList ((Nat.toDigits 16 n.toNat).leftpad 16 '0')

/-- `InMemoryStore::append`, with the store it leaves. -/
def append (self : InMemoryStore E) (episode : E) :
    Except PolicyError (String × InMemoryStore E) :=
  if self.poisoned then .error .poisoned
  else
    let nextKey := saturatingAdd self.nextKey 1
    let key := storageKey nextKey
    .ok (key, { self with nextKey, episodes := self.episodes ++ [(key, episode)] })

def retrieveSimilar {F : Type} [Unicode] [ScoreOps F] [Episode E] (self : InMemoryStore E)
    (query : String) (k : Nat) : Except PolicyError (List (InMemoryHit E F)) :=
  if k = 0 then .ok []
  else if self.poisoned then .error .poisoned
  else
    let hits : List (InMemoryHit E F) := self.episodes.filterMap fun (key, episode) =>
      let score : F := lexicalScore query (Episode.summary episode)
      if ScoreOps.gt score ScoreOps.zero then some { episode, score, key } else none
    let hits := sortBy (fun a b => (ScoreOps.partialCmp b.score a.score).getD .eq) hits
    .ok (hits.take k)

def get (self : InMemoryStore E) (key : String) : Except PolicyError E :=
  if self.poisoned then .error .poisoned
  else
    match self.episodes.find? fun entry => entry.1 == key with
    | some (_, episode) => .ok episode
    | none => .error (.notFound key)

end InMemoryStore

end MemoryPolicy

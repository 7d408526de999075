import MemoryPolicy.InMemory.Model
import Mathlib.Algebra.Order.Field.Rat

/-! Exact scores for the in-memory store, and tables for ASCII text, with which the store runs. -/

namespace MemoryPolicy

instance : ScoreOps ℚ where
  zero := 0
  ofUsize n := n
  div x y := x / y
  gt x y := decide (y < x)
  partialCmp x y := some (compare x y)

/-- The Unicode tables on ASCII text. -/
abbrev asciiTables : Unicode where
  isAlphanumeric := Char.isAlphanum
  toLowercase s := .ofList (s.toList.map Char.toLower)

instance : Episode String := ⟨id⟩

end MemoryPolicy

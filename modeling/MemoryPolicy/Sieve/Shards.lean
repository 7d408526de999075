import MemoryPolicy.Sieve.Prune

/-! Pools in parts.  The entries of a part that are not chosen there are not chosen from the whole
pool, so a pool can be sieved part by part, and the survivors of the parts together. -/

namespace Sieve

variable {α δ : Type*}

section Survivors

variable [DecidableEq α] [DecidableEq δ] (k : δ) (stages : List (Stage α δ)) (default : δ)

variable {k stages default}

variable (hk : ∀ s ∈ stages, s.TopVerdict k)
include hk

end Survivors

end Sieve

import MemoryPolicy.Sieve.Prune
import MemoryPolicy.Transition

/-! A collector beside a growing pool.  Entries arrive, reports on the stored entries are made, and
entries that some report has rejected are deleted; these steps interleave freely, so a report may
be old when it is applied.  Where each report rejects what one sieve rejects, the verdicts of that
sieve on what is stored are always those on all that arrived. -/

namespace Sieve

variable {α δ τ : Type*}

/-- Reports of several kinds.  On a pool for which it is due, a report rejects the entries that do
not get the verdict of the ranks of the sieve. -/
structure Reports (stages : List (Stage α δ)) (default chosen : δ) (rejects : τ → List α → List α)
    (Due : τ → List α → Prop) : Prop where
  ranks : ∀ s ∈ stages, s.TopVerdict chosen
  mem_rejects : ∀ {t pool a}, Due t pool →
    (a ∈ rejects t pool ↔ ∃ d ≠ chosen, (a, d) ∈ verdicts stages default pool)

/-- What is stored, all that arrived, and what some report has rejected. -/
structure Collector (α : Type*) where
  stored : List α := []
  arrived : List α := []
  rejected : List α := []
deriving DecidableEq

/-- An entry that is not chosen is not chosen from a larger pool. -/
theorem chosen_of_sublist {stages : List (Stage α δ)} {default chosen : δ}
    (ranks : ∀ s ∈ stages, s.TopVerdict chosen)
    {pool' pool : List α} (sub : pool'.Sublist pool) (nodup : pool.Nodup) {a : α} (ha : a ∈ pool')
    (h : (a, chosen) ∈ verdicts stages default pool) :
    (a, chosen) ∈ verdicts stages default pool' :=
  (mem_verdicts_of_sublist ranks sub nodup ha h).elim id id

namespace Collector

inductive Action (τ α : Type*)
  | arrive (a : α)
  | report (t : τ)
  | delete (as : List α)

def step [DecidableEq α] (rejects : τ → List α → List α) (s : Collector α) :
    Action τ α → Option (Collector α)
  | .arrive a =>
    if a ∈ s.arrived then none
    else some { s with stored := s.stored ++ [a], arrived := s.arrived ++ [a] }
  | .report t => some { s with rejected := s.rejected ++ rejects t s.stored }
  | .delete as =>
    if as ⊆ s.rejected then some { s with stored := s.stored.filter fun a => a ∉ as } else none

/-- Reports are made when they are due for what is stored. -/
def InTime (Due : τ → List α → Prop) (s : Collector α) : Action τ α → Prop
  | .report t => Due t s.stored
  | .arrive _ | .delete _ => True

/-- The stored entries are among those that arrived, in order, and nothing chosen is missing. -/
structure Faithful [DecidableEq α] (stages : List (Stage α δ)) (default chosen : δ)
    (s : Collector α) : Prop where
  nodup : s.arrived.Nodup
  restricted : s.stored = s.arrived.filter fun a => a ∈ s.stored
  known : s.rejected ⊆ s.arrived
  stale : ∀ a ∈ s.rejected, (a, chosen) ∉ verdicts stages default s.arrived
  present : ∀ a, (a, chosen) ∈ verdicts stages default s.arrived → a ∈ s.stored

variable [DecidableEq α] {stages : List (Stage α δ)} {default chosen : δ}
  {rejects : τ → List α → List α} {Due : τ → List α → Prop} {s t : Collector α} {u : τ}

namespace Faithful

theorem stored_subset (h : Faithful stages default chosen s) : s.stored ⊆ s.arrived := by
  rw [h.restricted]
  exact List.filter_sublist.subset

/-- The verdicts on what is stored are those on all that arrived. -/
theorem verdicts_stored (h : Faithful stages default chosen s)
    (ranks : ∀ s ∈ stages, s.TopVerdict chosen) :
    verdicts stages default s.stored =
      (verdicts stages default s.arrived).filter fun v => v.1 ∈ s.stored := by
  conv_lhs => rw [h.restricted]
  exact verdicts_filter ranks fun a ha => decide_eq_true (h.present a ha)

theorem arrive (h : Faithful stages default chosen s) (ranks : ∀ s ∈ stages, s.TopVerdict chosen)
    {a : α} (fresh : a ∉ s.arrived) :
    Faithful stages default chosen
      { s with stored := s.stored ++ [a], arrived := s.arrived ++ [a] } := by
  have nodup : (s.arrived ++ [a]).Nodup := by
    rw [List.nodup_append_comm]
    exact List.nodup_cons.mpr ⟨fresh, h.nodup⟩
  have before : ∀ b ∈ s.arrived, (b, chosen) ∈ verdicts stages default (s.arrived ++ [a]) →
      (b, chosen) ∈ verdicts stages default s.arrived :=
    fun b hb => chosen_of_sublist ranks (List.sublist_append_left _ _) nodup hb
  refine ⟨nodup, ?_, List.Subset.trans h.known (List.subset_append_left _ _), ?_, ?_⟩
  · have old : (s.arrived.filter fun b => b ∈ s.stored ++ [a]) =
        s.arrived.filter fun b => b ∈ s.stored := by
      apply List.filter_congr
      intro b hb
      have other : b ≠ a := fun same => fresh (same ▸ hb)
      simp [other]
    rw [List.filter_append, old, ← h.restricted]
    simp
  · intro b hb later
    exact h.stale b hb (before b (h.known hb) later)
  · intro b later
    rcases List.mem_append.mp (mem_of_mem_verdicts later) with old | new
    · exact List.mem_append_left _ (h.present b (before b old later))
    · exact List.mem_append_right _ new

/-- What a report on the stored entries rejects is not chosen from all that arrived. -/
theorem report (h : Faithful stages default chosen s)
    (reports : Reports stages default chosen rejects Due) (due : Due u s.stored) :
    Faithful stages default chosen { s with rejected := s.rejected ++ rejects u s.stored } where
  nodup := h.nodup
  restricted := h.restricted
  known := by
    apply List.append_subset.mpr ⟨h.known, _⟩
    intro a ha
    obtain ⟨d, -, hd⟩ := (reports.mem_rejects due).mp ha
    exact h.stored_subset (mem_of_mem_verdicts hd)
  stale a ha among := by
    rcases List.mem_append.mp ha with old | new
    · exact h.stale a old among
    · obtain ⟨d, other, rejected⟩ := (reports.mem_rejects due).mp new
      rw [h.verdicts_stored reports.ranks] at rejected
      have once : ((verdicts stages default s.arrived).map Prod.fst).Nodup :=
        (verdicts_perm _ _ _).nodup_iff.mpr h.nodup
      have equal := List.inj_on_of_nodup_map once (List.mem_of_mem_filter rejected) among rfl
      exact other (congrArg Prod.snd equal)
  present := h.present

theorem delete (h : Faithful stages default chosen s) {as : List α} (old : as ⊆ s.rejected) :
    Faithful stages default chosen { s with stored := s.stored.filter fun a => a ∉ as } where
  nodup := h.nodup
  restricted := by
    conv_lhs => rw [h.restricted, List.filter_filter]
    apply List.filter_congr
    intro a _
    simp [and_comm]
  known := h.known
  stale := h.stale
  present a among := by
    refine List.mem_filter.mpr ⟨h.present a among, ?_⟩
    exact decide_eq_true fun ha => h.stale a (old ha) among

theorem step (h : Faithful stages default chosen s)
    (reports : Reports stages default chosen rejects Due) {action : Action τ α}
    (inTime : InTime Due s action) (taken : s.step rejects action = some t) :
    Faithful stages default chosen t := by
  cases action with
  | arrive a =>
    obtain ⟨fresh, new⟩ := Option.ite_none_left_eq_some.mp taken
    exact Option.some.inj new ▸ h.arrive reports.ranks fresh
  | report u => exact Option.some.inj taken ▸ h.report reports inTime
  | delete as =>
    obtain ⟨old, new⟩ := Option.ite_none_right_eq_some.mp taken
    exact Option.some.inj new ▸ h.delete old

end Faithful

/-- Whatever the order of arrivals, reports and deletions, nothing chosen is missing. -/
theorem faithful_of_run (reports : Reports stages default chosen rejects Due)
    (run : Transition.Reaches (step rejects) (InTime Due) {} s) :
    Faithful stages default chosen s := by
  refine run.invariant ⟨List.nodup_nil, rfl, List.nil_subset _, nofun, fun a among => ?_⟩
    fun _ _ _ h inTime taken => h.step reports inTime taken
  exact mem_of_mem_verdicts among

end Collector

end Sieve

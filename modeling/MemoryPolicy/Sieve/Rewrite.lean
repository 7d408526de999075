import MemoryPolicy.Sieve.Single

/-! Rewriting a sieve.  An `each` stage that decides nothing which the stages before it have left
undecided can be removed, two adjacent `each` stages can be exchanged where they agree, and a stage
can be replaced by one that acts alike on the pool. -/

namespace Sieve

variable {α δ : Type*} {front back : List (Stage α δ)} {verdict other : α → Option δ}

theorem verdicts_remove (covered : ∀ a, single front a = none → verdict a = none) (default : δ)
    (pool : List α) :
    verdicts (front ++ .each verdict :: back) default pool =
      verdicts (front ++ back) default pool := by
  have undecided : ∀ a ∈ passed front pool, verdict a = none :=
    fun a ha => covered a (single_of_mem_passed ha)
  have settles : (Stage.each verdict).settled (passed front pool) = [] := by
    apply List.filterMap_eq_nil_iff.mpr
    intro a ha
    rw [undecided a ha]
    rfl
  have passes : (Stage.each verdict).passed (passed front pool) = passed front pool := by
    apply List.filter_eq_self.mpr
    intro a ha
    rw [undecided a ha]
    rfl
  rw [verdicts_append, verdicts_append, verdicts_cons, settles, passes, List.nil_append]

/-- Two `each` stages settle what one stage with the first verdict of the two settles. -/
theorem settled_each_each (verdict other : α → Option δ) (pool : List α) :
    ((Stage.each verdict).settled pool ++
      (Stage.each other).settled ((Stage.each verdict).passed pool)).Perm
      ((Stage.each fun a => (verdict a).or (other a)).settled pool) := by
  induction pool with
  | nil => exact List.Perm.refl _
  | cons a pool ih =>
    simp only [Stage.settled, Stage.passed] at ih ⊢
    cases hv : verdict a with
    | some d => simpa [hv] using ih
    | none =>
      cases ho : other a with
      | none => simpa [hv, ho] using ih
      | some d =>
        simp only [List.filterMap_cons, List.filter_cons, hv, ho, Option.map_none, Option.map_some,
          Option.isNone_none, if_true, Option.none_or]
        exact List.perm_middle.trans (ih.cons _)

/-- Adjacent `each` stages that agree can be exchanged. -/
theorem verdicts_each_each
    (agree : ∀ a d e, verdict a = some d → other a = some e → d = e) (default : δ)
    (pool : List α) :
    (verdicts (front ++ .each verdict :: .each other :: back) default pool).Perm
      (verdicts (front ++ .each other :: .each verdict :: back) default pool) := by
  have same : (fun a => (verdict a).or (other a)) = fun a => (other a).or (verdict a) := by
    funext a
    cases hv : verdict a with
    | none => simp
    | some d =>
      cases ho : other a with
      | none => rfl
      | some e => simp [agree a d e hv ho]
  have passes : (Stage.each other).passed ((Stage.each verdict).passed (passed front pool)) =
      (Stage.each verdict).passed ((Stage.each other).passed (passed front pool)) :=
    List.filter_comm ..
  have settles := settled_each_each verdict other (passed front pool)
  rw [same] at settles
  simp only [verdicts_append, verdicts_cons, passes]
  apply List.Perm.append_left
  rw [← List.append_assoc, ← List.append_assoc]
  exact (settles.trans (settled_each_each other verdict _).symm).append_right _

/-- The stages do the same with every part of the pool. -/
def Stage.Alike (pool : List α) (s s' : Stage α δ) : Prop :=
  ∀ part ⊆ pool, s.settled part = s'.settled part ∧ s.passed part = s'.passed part

theorem Stage.Alike.refl (pool : List α) (s : Stage α δ) : Stage.Alike pool s s :=
  fun _ _ => ⟨rfl, rfl⟩

theorem Stage.alike_each {verdict verdict' : α → Option δ} {pool : List α}
    (h : ∀ a ∈ pool, verdict a = verdict' a) :
    Stage.Alike pool (.each verdict) (.each verdict') := by
  intro part sub
  constructor
  · exact List.filterMap_congr fun a ha => by rw [h a (sub ha)]
  · exact List.filter_congr fun a ha => by rw [h a (sub ha)]

/-- Rankings that agree on the pool. -/
theorem Stage.alike_top {r r' : Ranking α} {pool : List α}
    (h : ∀ a ∈ pool, ∀ b ∈ pool, r.cmp a b = r'.cmp a b) (count : Nat) (d : δ) :
    Stage.Alike pool (.top r count d) (.top r' count d) := by
  intro part sub
  have sorts := StableSort.sortBy_congr fun a ha b hb => h a (sub ha) b (sub hb)
  simp only [Stage.settled, Stage.passed, sorts, and_self]

theorem verdicts_congr {κ : Type*} {f g : κ → Stage α δ} {keys : List κ} {pool : List α}
    (h : ∀ key ∈ keys, Stage.Alike pool (f key) (g key)) (default : δ) :
    verdicts (keys.map f) default pool = verdicts (keys.map g) default pool := by
  induction keys generalizing pool with
  | nil => rfl
  | cons key keys ih =>
    obtain ⟨settles, passes⟩ := h key (by simp) pool (List.Subset.refl _)
    have below : (f key).passed pool ⊆ pool :=
      fun a ha => ((f key).perm pool).subset (List.mem_append_right _ ha)
    rw [List.map_cons, List.map_cons, verdicts_cons, verdicts_cons, settles, ← passes]
    rw [ih fun k hk part sub => h k (by simp [hk]) part (List.Subset.trans sub below)]

end Sieve

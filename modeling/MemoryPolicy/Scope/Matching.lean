import MemoryPolicy.Scope

/-! What `scope_matches` decides.  An optional scope denotes a list of segments, an absent one the
empty list.  The function compares these lists, except that a required scope without segments
rejects an absent candidate. -/

namespace MemoryPolicy

/-- The segments that an optional scope denotes. -/
def segments (scope : Option String) : List String := (scope.map scopePath).getD []

/-- A scope that is present and normalizes to nothing. -/
def Blank (scope : Option String) : Prop := scope.map scopePath = some []

def BlankAgainstNone (required candidate : Option String) : Prop :=
  Blank required ∧ candidate = none

theorem segments_of_blank {scope : Option String} (h : Blank scope) : segments scope = [] := by
  rw [segments, h, Option.getD_some]

theorem not_blank_none : ¬ Blank none := by simp [Blank]

theorem blank_iff {scope : Option String} : Blank scope ↔ segments scope = [] ∧ scope ≠ none := by
  cases scope <;> simp [Blank, segments]

theorem scopeMatches_none (candidate : Option String) :
    scopeMatches none candidate = true ↔ segments candidate = [] := by
  cases candidate with
  | none => simp [scopeMatches, segments]
  | some c =>
    rw [scopeMatches, Option.map_some, Option.getD_some, beq_iff_eq, normalizeScope_eq_empty_iff]
    rfl

theorem scopeMatches_some_some (required candidate : String) :
    scopeMatches (some required) (some candidate) = true ↔
      scopePath required = scopePath candidate := by
  rw [scopeMatches, Scope.matches, Option.map_some, Option.getD_some, beq_iff_eq, Scope.new,
    normalizeScope_eq_iff, eq_comm]

theorem scopeMatches_some_none (required : String) : scopeMatches (some required) none = false :=
  rfl

/-- `scope_matches` compares segments, with one exception. -/
theorem scopeMatches_iff (required candidate : Option String) :
    scopeMatches required candidate = true ↔
      segments required = segments candidate ∧ ¬ BlankAgainstNone required candidate := by
  cases required with
  | none =>
    rw [scopeMatches_none, show segments none = [] from rfl, eq_comm]
    simp [BlankAgainstNone, not_blank_none]
  | some r =>
    cases candidate with
    | none =>
      rw [scopeMatches_some_none, BlankAgainstNone, blank_iff]
      simp [segments]
    | some c =>
      rw [scopeMatches_some_some]
      simp [segments, BlankAgainstNone]

theorem segments_eq_of_blankAgainstNone {required candidate : Option String}
    (h : BlankAgainstNone required candidate) : segments required = segments candidate := by
  rw [segments_of_blank h.1, h.2]
  rfl

theorem scopeMatches_of_blankAgainstNone {required candidate : Option String}
    (h : BlankAgainstNone required candidate) : scopeMatches required candidate = false := by
  rw [← Bool.not_eq_true, scopeMatches_iff]
  exact fun matched => matched.2 h

theorem scopeMatches_iff_segments (a b : Option String) :
    (scopeMatches a b = true ↔ segments a = segments b) ↔ ¬ BlankAgainstNone a b := by
  rw [scopeMatches_iff]
  constructor
  · intro agree h
    exact (agree.mpr (segments_eq_of_blankAgainstNone h)).2 h
  · intro h
    exact and_iff_left h

theorem scopeMatches_refl (a : Option String) : scopeMatches a a = true := by
  rw [scopeMatches_iff]
  refine ⟨rfl, ?_⟩
  rintro ⟨blank, rfl⟩
  exact not_blank_none blank

theorem scopeMatches_comm_iff (a b : Option String) :
    scopeMatches a b = scopeMatches b a ↔ ¬ BlankAgainstNone a b ∧ ¬ BlankAgainstNone b a := by
  have one_way {a b : Option String} (h : BlankAgainstNone a b) :
      scopeMatches a b ≠ scopeMatches b a := by
    obtain ⟨blank, rfl⟩ := h
    rw [scopeMatches_of_blankAgainstNone ⟨blank, rfl⟩]
    exact fun same => Bool.false_ne_true (same.trans
      ((scopeMatches_none a).mpr (segments_of_blank blank)))
  constructor
  · intro same
    exact ⟨fun h => one_way h same, fun h => one_way h same.symm⟩
  · rintro ⟨hab, hba⟩
    rw [Bool.eq_iff_iff, scopeMatches_iff, scopeMatches_iff]
    simp only [hab, hba, not_false_eq_true, and_true]
    exact eq_comm

theorem scopeMatches_trans_iff {a b c : Option String} (hab : scopeMatches a b = true)
    (hbc : scopeMatches b c = true) :
    scopeMatches a c = true ↔ ¬ BlankAgainstNone a c := by
  have same := ((scopeMatches_iff a b).mp hab).1.trans ((scopeMatches_iff b c).mp hbc).1
  rw [scopeMatches_iff]
  exact and_iff_right same

theorem scopeMatches_none_eq_iff (required : Option String) {candidate : Option String}
    (blank : Blank candidate) :
    scopeMatches required none = scopeMatches required candidate ↔ ¬ Blank required := by
  have present : ¬ BlankAgainstNone required candidate := fun h =>
    not_blank_none (h.2 ▸ blank)
  have absent : BlankAgainstNone required none ↔ Blank required := and_iff_left rfl
  rw [Bool.eq_iff_iff, scopeMatches_iff, scopeMatches_iff, segments_of_blank blank, absent,
    show segments none = [] from rfl]
  simp only [present, not_false_eq_true, and_true]
  constructor
  · intro alike h
    exact (alike.mpr (segments_of_blank h)).2 h
  · intro h
    exact and_iff_left h

/-- Exactly how far `scope_matches` is an equivalence on optional scopes: it compares segments
unless a required scope without segments meets an absent candidate, and this pair alone breaks
symmetry, transitivity and the like treatment of absent and blank candidates. -/
theorem scopeMatches_equivalence_iff (a b c : Option String) :
    ((scopeMatches a b = true ↔ segments a = segments b) ↔ ¬ BlankAgainstNone a b) ∧
      scopeMatches a a = true ∧
      (scopeMatches a b = scopeMatches b a ↔
        ¬ BlankAgainstNone a b ∧ ¬ BlankAgainstNone b a) ∧
      (scopeMatches a b = true → scopeMatches b c = true →
        (scopeMatches a c = true ↔ ¬ BlankAgainstNone a c)) ∧
      (Blank b → (scopeMatches a none = scopeMatches a b ↔ ¬ Blank a)) :=
  ⟨scopeMatches_iff_segments a b, scopeMatches_refl a, scopeMatches_comm_iff a b,
    scopeMatches_trans_iff, scopeMatches_none_eq_iff a⟩

/-- A slash required of an unscoped candidate is not met, and nothing required of a slash is. -/
theorem scopeMatches_slash_none :
    ¬ (scopeMatches (some "/") none = true ↔ segments (some "/") = segments none) ∧
      scopeMatches none (some "/") = true ∧ scopeMatches (some "/") (some "/") = true := by
  decide

end MemoryPolicy

import MemoryPolicy.Scope

/-! Containment of scopes.  `Scope::contains` strips one joined text from another and looks at the
next character.  It decides whether one list of segments begins with another, where a scope without
segments contains only itself. -/

namespace MemoryPolicy

open Text

theorem scopePath_append_cons {scope front back : String}
    (h : scope.toList = front.toList ++ '/' :: back.toList) :
    scopePath scope = scopePath front ++ scopePath back := by
  rw [scopePath, split_append_cons h, List.map_append, List.filter_append]
  rfl

theorem toList_intercalate_append {xs ys : List String} (hx : xs ≠ []) (hy : ys ≠ []) :
    ("/".intercalate (xs ++ ys)).toList =
      ("/".intercalate xs).toList ++ '/' :: ("/".intercalate ys).toList := by
  rw [String.toList_intercalate, List.map_append, intercalate_append (by simpa using hx)
    (by simpa using hy), ← String.toList_intercalate, ← String.toList_intercalate]
  rfl

/-- Beginning with a joined text and a slash is beginning with its segments. -/
theorem prefix_iff_intercalate {xs ys : List String} (hx : ∀ s ∈ xs, Segment s)
    (hy : ∀ s ∈ ys, Segment s) (hne : xs ≠ []) :
    ("/".intercalate ys = "/".intercalate xs ∨
      ∃ back : String, ("/".intercalate ys).toList =
        ("/".intercalate xs).toList ++ '/' :: back.toList) ↔ xs <+: ys := by
  constructor
  · rintro (h | ⟨back, h⟩)
    · have same := congrArg scopePath h
      rw [scopePath_intercalate hx, scopePath_intercalate hy] at same
      exact same ▸ List.prefix_refl ys
    · have := scopePath_append_cons h
      rw [scopePath_intercalate hx, scopePath_intercalate hy] at this
      exact ⟨_, this.symm⟩
  · rintro ⟨rest, rfl⟩
    cases rest with
    | nil => exact .inl (by rw [List.append_nil])
    | cons z rest => exact .inr ⟨_, toList_intercalate_append hne (by simp)⟩

namespace Scope

theorem value_eq (self : Scope) : self.value = "/".intercalate self.path := self.normalized.symm

@[simp] theorem path_new (value : String) : (Scope.new value).path = scopePath value :=
  scopePath_normalizeScope value

theorem ext_path {a b : Scope} (h : a.path = b.path) : a = b := by
  have values : a.value = b.value := by rw [a.value_eq, b.value_eq, h]
  cases a
  cases b
  simpa using values

theorem isEmpty_iff (self : Scope) : self.isEmpty = true ↔ self.path = [] := by
  rw [isEmpty, beq_iff_eq, path, ← normalizeScope_eq_empty_iff, self.normalized]

theorem matches_some_iff (self : Scope) (candidate : String) :
    self.matches (some candidate) = true ↔ scopePath candidate = self.path := by
  rw [Scope.matches, Option.map_some, Option.getD_some, beq_iff_eq, ← self.normalized,
    normalizeScope_eq_iff, path]

theorem contains_of_empty {self : Scope} (h : self.path = []) (candidate : String) :
    self.contains (some candidate) = true ↔ scopePath candidate = [] := by
  simp only [contains, (isEmpty_iff self).mpr h, if_true, beq_iff_eq]
  exact normalizeScope_eq_empty_iff

theorem contains_of_nonempty {self : Scope} (h : self.path ≠ []) (candidate : String) :
    self.contains (some candidate) = true ↔ self.path <+: scopePath candidate := by
  have nonempty : ¬ self.isEmpty = true := fun e => h ((isEmpty_iff self).mp e)
  simp only [contains, nonempty, Bool.false_eq_true, if_false, Bool.or_eq_true, beq_iff_eq,
    startsWith_stripPrefix_iff]
  rw [self.value_eq, normalizeScope_eq]
  exact prefix_iff_intercalate (fun _ => segment_of_mem_scopePath)
    (fun _ => segment_of_mem_scopePath) h

/-- Containment as an order on lists of segments. -/
theorem contains_iff (self : Scope) (candidate : String) :
    self.contains (some candidate) = true ↔
      self.path <+: scopePath candidate ∧ (self.path = [] → scopePath candidate = []) := by
  by_cases h : self.path = []
  · simp [contains_of_empty h, h]
  · simp [contains_of_nonempty h, h]

theorem contains_refl (a : Scope) : a.contains (some a.asStr) = true :=
  (contains_iff a _).mpr ⟨List.prefix_refl _, id⟩

theorem contains_trans {a b : Scope} {candidate : String} (hab : a.contains (some b.asStr) = true)
    (hb : b.contains (some candidate) = true) : a.contains (some candidate) = true := by
  obtain ⟨front, empty⟩ := (contains_iff a _).mp hab
  obtain ⟨front', empty'⟩ := (contains_iff b _).mp hb
  exact (contains_iff a _).mpr ⟨front.trans front', fun h => empty' (empty h)⟩

theorem contains_antisymm {a b : Scope} (hab : a.contains (some b.asStr) = true)
    (hba : b.contains (some a.asStr) = true) : a = b := by
  obtain ⟨front, -⟩ := (contains_iff a _).mp hab
  obtain ⟨back, -⟩ := (contains_iff b _).mp hba
  exact ext_path (front.eq_of_length_le back.length_le)

theorem contains_of_matches {self : Scope} {candidate : Option String}
    (h : self.matches candidate = true) : self.contains candidate = true := by
  cases candidate with
  | none => exact h
  | some c =>
    rw [matches_some_iff] at h
    rw [contains_iff, h]
    exact ⟨List.prefix_refl _, id⟩

/-- A scope that has another segment at some place is not contained. -/
theorem not_contains_of_sibling {self : Scope} {candidate seg seg' : String}
    {front back rest : List String} (hs : self.path = front ++ seg :: back)
    (hc : scopePath candidate = front ++ seg' :: rest) (hne : seg ≠ seg') :
    self.contains (some candidate) = false := by
  rw [← Bool.not_eq_true, contains_iff, hs, hc]
  rintro ⟨begins, -⟩
  rw [List.prefix_append_right_inj, List.cons_prefix_cons] at begins
  exact hne begins.1

end Scope

theorem append_ne_self {s more : String} (h : more ≠ "") : s ≠ s ++ more := by
  intro hs
  have := congrArg String.toList hs
  simp [h] at this

/-- `contains` is containment of segment lists: a partial order on scopes that extends `matches`
and never crosses to a sibling, whose name only extends a segment. -/
theorem Scope.contains_segments :
    (∀ s c : String, scopePath s ≠ [] →
      ((Scope.new s).contains (some c) = true ↔ scopePath s <+: scopePath c)) ∧
    (∀ s c : String, scopePath s = [] →
      ((Scope.new s).contains (some c) = true ↔ scopePath c = [])) ∧
    (∀ a : Scope, a.contains none = false) ∧
    (∀ a : Scope, a.contains (some a.asStr) = true) ∧
    (∀ a b c : Scope, a.contains (some b.asStr) = true → b.contains (some c.asStr) = true →
      a.contains (some c.asStr) = true) ∧
    (∀ a b : Scope, a.contains (some b.asStr) = true → b.contains (some a.asStr) = true →
      a = b) ∧
    (∀ (a : Scope) (candidate : Option String), a.matches candidate = true →
      a.contains candidate = true) ∧
    (∀ (s c seg more : String) (front back rest : List String),
      scopePath s = front ++ seg :: back → scopePath c = front ++ (seg ++ more) :: rest →
      more ≠ "" → (Scope.new s).contains (some c) = false) := by
  refine ⟨?_, ?_, fun _ => rfl, contains_refl, fun _ _ _ => contains_trans,
    fun _ _ => contains_antisymm, fun _ _ => contains_of_matches, ?_⟩
  · intro s c h
    rw [contains_of_nonempty (by simpa using h), path_new]
  · intro s c h
    rw [contains_of_empty (by simpa using h)]
  · intro s c seg more front back rest hs hc hmore
    exact not_contains_of_sibling ((path_new s).trans hs) hc (append_ne_self hmore)

example : (Scope.new "tenant-a").contains (some "tenant-ab/project-1") = false := by decide

end MemoryPolicy

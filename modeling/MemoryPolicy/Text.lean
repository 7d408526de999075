import Mathlib.Data.List.DropRight

/-! Splitting, trimming and joining text.  A string is a list of Unicode scalar values; whitespace
is the Unicode property White_Space. -/

namespace Text

variable {α : Type*}

/-- The characters with the Unicode property White_Space. -/
def isWhitespace (c : Char) : Bool :=
  (0x09 ≤ c.toNat && c.toNat ≤ 0x0D) || c.toNat == 0x20 || c.toNat == 0x85 || c.toNat == 0xA0 ||
    c.toNat == 0x1680 || (0x2000 ≤ c.toNat && c.toNat ≤ 0x200A) || c.toNat == 0x2028 ||
    c.toNat == 0x2029 || c.toNat == 0x202F || c.toNat == 0x205F || c.toNat == 0x3000

def trimBy (p : α → Bool) (l : List α) : List α := (l.dropWhile p).rdropWhile p

def trim (s : String) : String := .ofList (trimBy isWhitespace s.toList)

def trimMatches (p : Char → Bool) (s : String) : String := .ofList (trimBy p s.toList)

/-- The maximal pieces of `s` without whitespace. -/
def splitWhitespace (s : String) : List String :=
  ((s.toList.splitOnP isWhitespace).map .ofList).filter fun piece => piece ≠ ""

/-- The pieces of `s` between the occurrences of `sep`. -/
def split (sep : Char) (s : String) : List String := (s.toList.splitOn sep).map .ofList

/-- The rest of `s` after the prefix `front`. -/
def stripPrefix (s front : String) : Option String :=
  if front.toList.isPrefixOf s.toList then some (.ofList (s.toList.drop front.toList.length))
  else none

def startsWith (s : String) (c : Char) : Bool := s.toList.head? == some c

theorem splitWhitespace_eq (s : String) :
    splitWhitespace s =
      ((s.toList.splitOnP isWhitespace).filter fun piece => piece ≠ []).map .ofList := by
  rw [splitWhitespace, List.filter_map]
  congr 2
  funext piece
  simp

/-- The text is that of `a` and that of `b` with whitespace between them. -/
def Joined (a b text : String) : Prop :=
  ∃ gap : List Char, gap ≠ [] ∧ (∀ c ∈ gap, isWhitespace c = true) ∧
    text.toList = a.toList ++ (gap ++ b.toList)

theorem splitOnP_gap {p : α → Bool} {gap : List α} (space : ∀ c ∈ gap, p c = true) (l : List α) :
    ((gap ++ l).splitOnP p).filter (fun piece => !piece.isEmpty) =
      (l.splitOnP p).filter fun piece => !piece.isEmpty := by
  induction gap with
  | nil => rfl
  | cons c gap ih =>
    have first := List.splitOnP_append_cons [] (gap ++ l) (space c List.mem_cons_self)
    rw [List.nil_append] at first
    rw [List.cons_append, first, List.filter_append, ih fun c h => space c (by simp [h])]
    simp

/-- The words of a joined text are those of its parts. -/
theorem splitWhitespace_of_joined {a b text : String} (h : Joined a b text) :
    splitWhitespace text = splitWhitespace a ++ splitWhitespace b := by
  obtain ⟨gap, some, space, chars⟩ := h
  obtain ⟨c, gap, rfl⟩ := List.exists_cons_of_ne_nil some
  have used : (fun piece : List Char => decide (piece ≠ [])) = fun piece => !piece.isEmpty := by
    funext piece
    cases piece <;> rfl
  simp only [splitWhitespace_eq, used]
  rw [chars, List.cons_append,
    List.splitOnP_append_cons a.toList (gap ++ b.toList) (space c List.mem_cons_self),
    List.filter_append, splitOnP_gap fun c h => space c (by simp [h]), List.map_append]

theorem trimBy_subset (p : α → Bool) (l : List α) : trimBy p l ⊆ l := by
  intro a h
  exact (l.dropWhile_sublist p).subset ((List.rdropWhile_prefix p _).subset h)

theorem dropWhile_of_prefix {p : α → Bool} {l m : List α} (h : l.dropWhile p = l)
    (hm : m <+: l) : m.dropWhile p = m := by
  cases m with
  | nil => rfl
  | cons a m =>
    obtain ⟨rest, rfl⟩ := hm
    rw [List.cons_append, List.dropWhile_cons] at h
    rw [List.dropWhile_cons]
    split
    · rename_i hp
      rw [if_pos hp] at h
      have := congrArg List.length h
      have := (List.dropWhile_sublist (l := m ++ rest) p).length_le
      simp only [List.length_cons] at *
      omega
    · rfl

theorem rdropWhile_append_of_pos {p : α → Bool} {l back : List α} (h : ∀ a ∈ back, p a = true) :
    (l ++ back).rdropWhile p = l.rdropWhile p := by
  rw [List.rdropWhile, List.reverse_append, List.dropWhile_append_of_pos (by simpa using h)]
  rfl

/-- Trimming takes away what is added at the ends to be trimmed. -/
theorem trimBy_append {p : α → Bool} {front back : List α} (hf : ∀ a ∈ front, p a = true)
    (hb : ∀ a ∈ back, p a = true) (l : List α) : trimBy p (front ++ l ++ back) = trimBy p l := by
  rw [trimBy, trimBy, List.append_assoc, List.dropWhile_append_of_pos hf, List.dropWhile_append]
  split
  · rename_i used
    have backGone : back.dropWhile p = [] := List.dropWhile_eq_nil_iff.mpr hb
    rw [List.isEmpty_iff.mp used, backGone]
  · exact rdropWhile_append_of_pos hb

/-- A list is what is left of it by trimming, between what is trimmed away. -/
theorem exists_trimBy (p : α → Bool) (l : List α) :
    ∃ front back, l = front ++ trimBy p l ++ back ∧ (∀ a ∈ front, p a = true) ∧
      ∀ a ∈ back, p a = true := by
  refine ⟨l.takeWhile p, (l.dropWhile p).rtakeWhile p, ?_, ?_, ?_⟩
  · rw [List.append_assoc, trimBy, List.rdropWhile_append_rtakeWhile,
      List.takeWhile_append_dropWhile]
  · exact fun a h => List.mem_takeWhile_imp h
  · exact fun a h => List.mem_rtakeWhile_imp h

theorem trimBy_trimBy (p : α → Bool) (l : List α) : trimBy p (trimBy p l) = trimBy p l := by
  have front := dropWhile_of_prefix (List.dropWhile_idempotent p l) (List.rdropWhile_prefix p _)
  rw [trimBy, trimBy, front, List.rdropWhile_idempotent]

/-- Neither end of the list is to be trimmed. -/
structure Bare (p : α → Bool) (l : List α) : Prop where
  front : ∀ a ∈ l.head?, p a = false
  back : ∀ a ∈ l.getLast?, p a = false

theorem dropWhile_eq_self_iff_head {p : α → Bool} {l : List α} :
    l.dropWhile p = l ↔ ∀ a ∈ l.head?, p a = false := by
  rw [List.dropWhile_eq_self_iff]
  cases l <;> simp

theorem rdropWhile_eq_self_iff_getLast {p : α → Bool} {l : List α} :
    l.rdropWhile p = l ↔ ∀ a ∈ l.getLast?, p a = false := by
  rw [List.rdropWhile, List.reverse_eq_iff, dropWhile_eq_self_iff_head, List.head?_reverse]

theorem trimBy_eq_self_iff {p : α → Bool} {l : List α} : trimBy p l = l ↔ Bare p l := by
  have ends : trimBy p l = l ↔ l.dropWhile p = l ∧ l.rdropWhile p = l := by
    constructor
    · intro h
      have front : l.dropWhile p = l := by
        apply (l.dropWhile_sublist p).eq_of_length_le
        exact (congrArg List.length h).symm.trans_le (List.rdropWhile_prefix p _).length_le
      rw [trimBy, front] at h
      exact ⟨front, h⟩
    · rintro ⟨front, back⟩
      rw [trimBy, front, back]
  rw [ends, dropWhile_eq_self_iff_head, rdropWhile_eq_self_iff_getLast]
  exact ⟨fun h => ⟨h.1, h.2⟩, fun h => ⟨h.front, h.back⟩⟩

theorem bare_trimBy (p : α → Bool) (l : List α) : Bare p (trimBy p l) :=
  trimBy_eq_self_iff.mp (trimBy_trimBy p l)

/-- The last entry that is not to be trimmed is the last one after trimming. -/
theorem getLast?_filter (p : α → Bool) (l : List α) :
    (l.filter p).getLast? = (trimBy (fun a => !p a) l).getLast? := by
  obtain ⟨front, back, parts, dropF, dropB⟩ := exists_trimBy (fun a => !p a) l
  have bare := bare_trimBy (fun a => !p a) l
  generalize trimBy (fun a => !p a) l = core at parts bare
  have noneF : front.filter p = [] := by simpa [List.filter_eq_nil_iff] using dropF
  have noneB : back.filter p = [] := by simpa [List.filter_eq_nil_iff] using dropB
  rw [parts, List.filter_append, List.filter_append, noneF, noneB, List.nil_append,
    List.append_nil]
  rcases List.eq_nil_or_concat core with rfl | ⟨init, a, rfl⟩
  · rfl
  · have last : p a = true := by simpa using bare.back a (by simp)
    rw [List.concat_eq_append, List.filter_append, List.filter_singleton, last]
    simp

@[simp] theorem trim_trim (s : String) : trim (trim s) = trim s := by
  simp [trim, trimBy_trimBy]

theorem trim_eq_self_iff {s : String} : trim s = s ↔ Bare isWhitespace s.toList := by
  rw [← trimBy_eq_self_iff, trim, ← String.toList_inj, String.toList_ofList]

theorem mem_trim {c : Char} {s : String} (h : c ∈ (trim s).toList) : c ∈ s.toList :=
  trimBy_subset isWhitespace s.toList (by simpa [trim] using h)

theorem not_mem_splitOn [BEq α] [LawfulBEq α] (sep : α) {l piece : List α}
    (h : piece ∈ l.splitOn sep) : sep ∉ piece := by
  induction l generalizing piece with
  | nil =>
    obtain rfl : piece = [] := by simpa using h
    simp
  | cons a l ih =>
    rw [List.splitOn_cons_eq_if_modifyHead] at h
    split at h
    · rcases List.mem_cons.mp h with rfl | h
      · simp
      · exact ih h
    · rename_i ha
      cases hs : l.splitOn sep with
      | nil => exact absurd hs (List.splitOn_ne_nil _ _)
      | cons first rest =>
        rw [hs, List.modifyHead_cons] at h
        rcases List.mem_cons.mp h with rfl | h
        · have := @ih first (by simp [hs])
          simp only [List.mem_cons, not_or]
          exact ⟨fun he => ha (by simp [he]), this⟩
        · exact ih (by simp [hs, h])

theorem not_mem_split {sep : Char} {s piece : String} (h : piece ∈ split sep s) :
    sep ∉ piece.toList := by
  obtain ⟨l, hl, rfl⟩ := List.mem_map.mp h
  simpa using not_mem_splitOn sep hl

theorem split_append_cons {sep : Char} {s front back : String}
    (h : s.toList = front.toList ++ sep :: back.toList) :
    split sep s = split sep front ++ split sep back := by
  rw [split, split, split, h, List.splitOn_append_cons_self, List.map_append]

theorem startsWith_iff {s : String} {c : Char} :
    startsWith s c = true ↔ ∃ back : String, s.toList = c :: back.toList := by
  rw [startsWith, beq_iff_eq, List.head?_eq_some_iff]
  constructor
  · rintro ⟨rest, h⟩
    exact ⟨.ofList rest, by simpa using h⟩
  · rintro ⟨back, h⟩
    exact ⟨back.toList, h⟩

/-- A strip that leaves text starting with `c` splits the whole text there. -/
theorem startsWith_stripPrefix_iff {s front : String} {c : Char} :
    ((stripPrefix s front).map fun suffix => startsWith suffix c).getD false = true ↔
      ∃ back : String, s.toList = front.toList ++ c :: back.toList := by
  rw [stripPrefix]
  split
  · rename_i h
    obtain ⟨rest, hrest⟩ := List.isPrefixOf_iff_prefix.mp h
    rw [Option.map_some, Option.getD_some, startsWith_iff, ← hrest]
    simp
  · rename_i h
    simp only [Option.map_none, Option.getD_none, Bool.false_eq_true, false_iff]
    rintro ⟨back, hs⟩
    exact h (List.isPrefixOf_iff_prefix.mpr ⟨_, hs.symm⟩)

theorem intercalate_append {sep : List α} {xs ys : List (List α)} (hx : xs ≠ [])
    (hy : ys ≠ []) :
    sep.intercalate (xs ++ ys) = sep.intercalate xs ++ (sep ++ sep.intercalate ys) := by
  induction xs with
  | nil => exact absurd rfl hx
  | cons x xs ih =>
    cases xs with
    | nil => rw [List.cons_append, List.nil_append, List.intercalate_cons_of_ne_nil hy,
        List.intercalate_singleton, List.append_assoc]
    | cons x' xs =>
      rw [List.cons_append, List.intercalate_cons_of_ne_nil (by simp), ih (by simp),
        List.intercalate_cons_of_ne_nil (List.cons_ne_nil x' xs)]
      simp only [List.append_assoc]

/-- Splitting a joined list of pieces gives the pieces back. -/
theorem split_intercalate {sep : Char} {pieces : List String}
    (h : ∀ piece ∈ pieces, sep ∉ piece.toList) (hne : pieces ≠ []) :
    split sep ((String.singleton sep).intercalate pieces) = pieces := by
  rw [split, String.toList_intercalate, String.toList_singleton, List.splitOn_intercalate]
  · simp
  · simpa using h
  · simpa using hne

end Text

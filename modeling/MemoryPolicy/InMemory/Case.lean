import MemoryPolicy.InMemory.Exact
import MemoryPolicy.InMemory.Retrieval
import MemoryPolicy.Text.Case

/-! Case of queries and summaries.  Words are trimmed before they are lowercased, so a word whose
last alphanumeric character is the dotted capital I has a token that ends in a dot above; of the
same text in lower case that dot is trimmed away.  In all other texts case does not matter. -/

namespace MemoryPolicy

open Text CaseTables

section Tables

variable [CaseTables]

instance : Unicode where
  isAlphanumeric := CaseTables.isAlphanumeric
  toLowercase := Text.toLowercase

/-- The last alphanumeric character of the word is the dotted capital I. -/
def EndsDotted (word : String) : Prop :=
  (word.toList.filter isAlphanumeric).getLast? = some dottedI

instance (word : String) : Decidable (EndsDotted word) :=
  inferInstanceAs (Decidable (_ = _))

theorem toList_core (word : String) :
    (core word).toList = trimBy (fun c => !isAlphanumeric c) word.toList :=
  String.toList_ofList

theorem endsDotted_iff {word : String} :
    EndsDotted word ↔ (core word).toList.getLast? = some dottedI := by
  rw [EndsDotted, toList_core, getLast?_filter]

theorem bare_core (word : String) : Bare (fun c => !isAlphanumeric c) (core word).toList := by
  rw [toList_core]
  exact bare_trimBy _ _

section Laws

variable (laws : LawfulCase)

include laws

theorem core_toLowercase (word : String) :
    core (toLowercase word) = core (toLowercase (core word)) := by
  rw [← String.toList_inj, toList_core, toList_core, toLowercase, toLowercase,
    String.toList_ofList, String.toList_ofList, trimBy_lowerList laws, toList_core]

/-- A word of a text in lower case has the token of the word, if that has alphanumeric ends. -/
theorem core_toLowercase_of_not_endsDotted {word : String} (h : ¬ EndsDotted word) :
    core (toLowercase word) = toLowercase (core word) := by
  rw [endsDotted_iff] at h
  have bare := (bare_lowerList_iff laws (bare_core word)).mpr h
  rw [core_toLowercase laws, ← String.toList_inj, toList_core, toLowercase, String.toList_ofList,
    trimBy_eq_self_iff.mpr bare]

theorem not_bare_of_endsDotted {word : String} (h : EndsDotted word) :
    ¬ Bare (fun c => !isAlphanumeric c) (toLowercase (core word)).toList := by
  rw [toLowercase, String.toList_ofList, bare_lowerList_iff laws (bare_core word), not_not]
  exact endsDotted_iff.mp h

theorem toLowercase_core_toLowercase (word : String) :
    toLowercase (core (toLowercase word)) = core (toLowercase word) := by
  apply toLowercase_of_settled
  intro c mem
  rw [toList_core] at mem
  exact settled_toLowercase laws c (trimBy_subset _ _ mem)

theorem mem_normalizedTokens_toLowercase {text token : String} :
    token ∈ normalizedTokens (toLowercase text) ↔
      ∃ word ∈ splitWhitespace text, core (toLowercase word) ≠ "" ∧
        core (toLowercase word) = token := by
  rw [mem_normalizedTokens, splitWhitespace_toLowercase laws]
  simp only [List.mem_map, exists_exists_and_eq_and]
  constructor
  · rintro ⟨word, mem, used, lower⟩
    exact ⟨word, mem, used, by rwa [← toLowercase_core_toLowercase laws word]⟩
  · rintro ⟨word, mem, used, same⟩
    refine ⟨word, mem, used, ?_⟩
    rw [← same]
    exact toLowercase_core_toLowercase laws word

theorem toLowercase_eq_empty_iff {s : String} : toLowercase s = "" ↔ s = "" := by
  rw [← String.toList_inj, ← String.toList_inj, toLowercase, String.toList_ofList]
  exact lowerList_eq_nil_iff laws

theorem normalizedTokens_toLowercase_iff (text : String) :
    normalizedTokens (toLowercase text) = normalizedTokens text ↔
      ∀ word ∈ splitWhitespace text, ¬ EndsDotted word := by
  constructor
  · intro same word mem dotted
    have used : core word ≠ "" := by
      intro empty
      rw [endsDotted_iff, empty] at dotted
      exact absurd dotted (by simp)
    have token : toLowercase (core word) ∈ normalizedTokens text :=
      mem_normalizedTokens.mpr ⟨word, mem, used, rfl⟩
    rw [← same, mem_normalizedTokens_toLowercase laws] at token
    obtain ⟨word', -, -, token⟩ := token
    apply not_bare_of_endsDotted laws dotted
    rw [← token]
    exact bare_core _
  · intro plain
    ext token
    rw [mem_normalizedTokens_toLowercase laws, mem_normalizedTokens]
    apply exists_congr
    intro word
    apply and_congr_right
    intro mem
    rw [core_toLowercase_of_not_endsDotted laws (plain word mem), Ne, Ne,
      toLowercase_eq_empty_iff laws]
    rfl

end Laws

/-- Lowercasing a text beforehand changes none of its tokens, and no score of it as a query or as a
summary. -/
structure CaseInsensitive (F : Type) [ScoreOps F] (text : String) : Prop where
  tokens : normalizedTokens (toLowercase text) = normalizedTokens text
  query : ∀ summary : String,
    lexicalScore (F := F) (toLowercase text) summary = lexicalScore text summary
  summary : ∀ query : String,
    lexicalScore (F := F) query (toLowercase text) = lexicalScore query text

/-- Case does not matter in a text, unless a word of it has the dotted capital I as its last
alphanumeric character. -/
theorem caseInsensitive_iff (laws : LawfulCase) {F : Type} [ScoreOps F] (text : String) :
    CaseInsensitive F text ↔ ∀ word ∈ splitWhitespace text, ¬ EndsDotted word := by
  rw [← normalizedTokens_toLowercase_iff laws]
  refine ⟨CaseInsensitive.tokens, fun same => ⟨same, ?_, ?_⟩⟩
  · intro summary
    rw [lexicalScore, lexicalScore, same]
  · intro query
    rw [lexicalScore, lexicalScore, same]

end Tables

/-- The letter `i` in both cases, the dotted capital I and the sigmas. -/
def letters : List Char := ['i', 'I', dottedI, capitalSigma, smallSigma, finalSigma]

/-- The tables of Unicode for some letters. -/
abbrev letterTables : CaseTables where
  isAlphanumeric c := decide (c ∈ letters)
  isCased c := decide (c ∈ letters)
  isCaseIgnorable c := c == dotAbove
  lower c :=
    if c = 'I' then ['i']
    else if c = dottedI then ['i', dotAbove]
    else if c = capitalSigma then [smallSigma]
    else [c]

theorem lawfulCase_letterTables : @LawfulCase letterTables := by
  let _ : CaseTables := letterTables
  have plain : ∀ c, c ∉ letters → lower c = [c] := by
    intro c h
    simp only [letters, List.mem_cons, not_or] at h
    show (if c = 'I' then ['i'] else _) = [c]
    rw [if_neg h.2.1, if_neg h.2.2.1, if_neg h.2.2.2.1]
  have visible : ∀ c ∈ dotAbove :: letters, isWhitespace c = false := by
    have all : (dotAbove :: letters).all (fun c => !isWhitespace c) = true := by decide
    simpa using List.all_eq_true.mp all
  have images : ∀ c ∈ letters, ∀ d ∈ lower c, lower d = [d] ∧ d ≠ capitalSigma ∧
      isWhitespace d = isWhitespace c := by
    have all : letters.all (fun c => (lower c).all fun d => decide (lower d = [d] ∧
        d ≠ capitalSigma ∧ isWhitespace d = isWhitespace c)) = true := by decide
    simpa only [List.all_eq_true, decide_eq_true_eq] using all
  constructor
  · exact fun c h => h
  · intro c space
    have notIn : c ∉ dotAbove :: letters := fun mem => absurd space (by simp [visible c mem])
    rw [List.mem_cons, not_or] at notIn
    exact ⟨decide_eq_false notIn.2, beq_eq_false_iff_ne.mpr notIn.1⟩
  · exact fun c h => plain c (of_decide_eq_false h)
  · intro c d mem
    by_cases h : c ∈ letters
    · exact images c h d mem
    · rw [plain c h, List.mem_singleton] at mem
      subst mem
      refine ⟨plain d h, ?_, rfl⟩
      rintro rfl
      exact h (by decide)
  · intro c h
    have h : c ∈ letters := of_decide_eq_true h
    simp only [letters, List.mem_cons, List.not_mem_nil, or_false] at h
    rcases h with rfl | rfl | rfl | rfl | rfl | rfl
    · exact ⟨'i', [], rfl, by decide⟩
    · exact ⟨'i', [], rfl, by decide⟩
    · exact ⟨'i', [dotAbove], rfl, by decide⟩
    · exact ⟨smallSigma, [], rfl, by decide⟩
    · exact ⟨smallSigma, [], rfl, by decide⟩
    · exact ⟨finalSigma, [], rfl, by decide⟩
  · intro c h notDotted
    have h : c ∈ letters := of_decide_eq_true h
    simp only [letters, List.mem_cons, List.not_mem_nil, or_false] at h
    rcases h with rfl | rfl | rfl | rfl | rfl | rfl
    · exact ⟨[], 'i', rfl, by decide⟩
    · exact ⟨[], 'i', rfl, by decide⟩
    · exact absurd rfl notDotted
    · exact ⟨[], smallSigma, rfl, by decide⟩
    · exact ⟨[], smallSigma, rfl, by decide⟩
    · exact ⟨[], finalSigma, rfl, by decide⟩
  · exact ⟨rfl, by decide⟩
  · intro c mem
    rcases List.mem_pair.mp mem with rfl | rfl
    · exact ⟨rfl, by decide⟩
    · exact ⟨rfl, by decide⟩

/-- A text in mixed case, with the dotted capital I inside a word. -/
theorem caseInsensitive_iff_mixedCase :
    let _ : CaseTables := letterTables
    CaseInsensitive ℚ "i\u0130I I\u03a3" := by
  intro _
  exact (caseInsensitive_iff lawfulCase_letterTables _).mpr (by decide)

/-- The dotted capital I does not match itself in lower case. -/
theorem dottedI_lowercase_unmatched :
    let _ : CaseTables := letterTables
    lexicalScore (F := ℚ) "\u0130" "\u0130" = 1 ∧
      lexicalScore (F := ℚ) (toLowercase "\u0130") "\u0130" = 0 ∧
      ¬ CaseInsensitive ℚ "\u0130" := by
  intro _
  have itself : lexicalScore (F := ℚ) "\u0130" "\u0130" = 1 := by decide +kernel
  have lowered : lexicalScore (F := ℚ) (toLowercase "\u0130") "\u0130" = 0 := by decide +kernel
  refine ⟨itself, lowered, fun insensitive => ?_⟩
  have same := insensitive.query "\u0130"
  rw [itself, lowered] at same
  exact absurd same (by decide)

end MemoryPolicy

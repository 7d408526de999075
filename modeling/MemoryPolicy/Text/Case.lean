import MemoryPolicy.Text

/-! Lowercasing text.  Characters are mapped one by one, each to one character or more; only a
capital sigma looks around, for it becomes a final sigma at the end of a word.  Of the tables of
Unicode a few laws are used, one of which names the exception that they have: the dotted capital I
is alphanumeric, and what it is mapped to ends in a character that is not. -/

namespace Text

/-- Character classes and mappings of Unicode. -/
class CaseTables where
  isAlphanumeric : Char → Bool
  isCased : Char → Bool
  isCaseIgnorable : Char → Bool
  /-- `char::to_lowercase` -/
  lower : Char → List Char

open CaseTables

def capitalSigma : Char := '\u03a3'

def smallSigma : Char := '\u03c3'

def finalSigma : Char := '\u03c2'

def dottedI : Char := '\u0130'

def dotAbove : Char := '\u0307'

section Lowercase

variable [CaseTables]

def caseIgnorableThenCased (cs : List Char) : Bool :=
  (cs.dropWhile isCaseIgnorable).head?.any isCased

/-- A character in lower case, where `before` comes before it, last character first, and `after`
after it. -/
def lowerAt (before : List Char) (c : Char) (after : List Char) : List Char :=
  if c = capitalSigma then
    if caseIgnorableThenCased before && !caseIgnorableThenCased after then [finalSigma]
    else [smallSigma]
  else lower c

def lowerIn (after : List Char) : List Char → List Char → List Char
  | _, [] => []
  | before, c :: cs => lowerAt before c (cs ++ after) ++ lowerIn after (c :: before) cs

def lowerList (cs : List Char) : List Char := lowerIn [] [] cs

/-- `str::to_lowercase` -/
def toLowercase (s : String) : String := .ofList (lowerList s.toList)

/-- What is used of the tables. -/
structure LawfulCase : Prop where
  cased : ∀ c, isCased c = true → isAlphanumeric c = true
  whitespace : ∀ c, isWhitespace c = true → isAlphanumeric c = false ∧ isCaseIgnorable c = false
  plain : ∀ c, isAlphanumeric c = false → lower c = [c]
  image : ∀ c, ∀ d ∈ lower c, lower d = [d] ∧ d ≠ capitalSigma ∧ isWhitespace d = isWhitespace c
  head : ∀ c, isAlphanumeric c = true → ∃ d ds, lower c = d :: ds ∧ isAlphanumeric d = true
  last : ∀ c, isAlphanumeric c = true → c ≠ dottedI →
    ∃ ds d, lower c = ds ++ [d] ∧ isAlphanumeric d = true
  dotted : lower dottedI = ['i', dotAbove] ∧ isAlphanumeric dotAbove = false
  sigmas : ∀ c ∈ [smallSigma, finalSigma], lower c = [c] ∧ isAlphanumeric c = true

/-! ### Contexts -/

theorem caseIgnorableThenCased_append (cs : List Char) {ctx ctx' : List Char}
    (same : caseIgnorableThenCased ctx = caseIgnorableThenCased ctx') :
    caseIgnorableThenCased (cs ++ ctx) = caseIgnorableThenCased (cs ++ ctx') := by
  induction cs with
  | nil => exact same
  | cons c cs ih =>
    by_cases h : isCaseIgnorable c = true
    · simpa [caseIgnorableThenCased, h] using ih
    · simp [caseIgnorableThenCased, h]

/-- Lowercasing depends on the context only through the case that it lends. -/
theorem lowerIn_congr {before before' after after' : List Char}
    (front : caseIgnorableThenCased before = caseIgnorableThenCased before')
    (back : caseIgnorableThenCased after = caseIgnorableThenCased after') (cs : List Char) :
    lowerIn after before cs = lowerIn after' before' cs := by
  induction cs generalizing before before' with
  | nil => rfl
  | cons c cs ih =>
    have next := ih (caseIgnorableThenCased_append [c] front)
    rw [List.singleton_append, List.singleton_append] at next
    rw [lowerIn, lowerIn, next, lowerAt, lowerAt, front, caseIgnorableThenCased_append cs back]

theorem lowerIn_append (after before xs ys : List Char) :
    lowerIn after before (xs ++ ys) =
      lowerIn (ys ++ after) before xs ++ lowerIn after (xs.reverse ++ before) ys := by
  induction xs generalizing before with
  | nil => rfl
  | cons x xs ih =>
    rw [List.cons_append, lowerIn, ih, lowerIn, List.append_assoc, List.append_assoc,
      List.reverse_cons, List.append_assoc, List.singleton_append]

theorem caseIgnorableThenCased_of_not_cased {cs : List Char}
    (h : ∀ c ∈ cs, isCased c = false) : caseIgnorableThenCased cs = false := by
  rw [caseIgnorableThenCased]
  cases first : (cs.dropWhile isCaseIgnorable).head? with
  | none => rfl
  | some c => exact h c ((List.dropWhile_sublist _).subset (List.mem_of_head? first))

/-- In any context, a character is mapped as by the tables, or is a sigma and becomes one. -/
theorem lowerAt_cases (before : List Char) (c : Char) (after : List Char) :
    lowerAt before c after = lower c ∨
      c = capitalSigma ∧ ∃ s ∈ [smallSigma, finalSigma], lowerAt before c after = [s] := by
  rw [lowerAt]
  split
  · rename_i sigma
    refine .inr ⟨sigma, ?_⟩
    split
    · exact ⟨finalSigma, by simp, rfl⟩
    · exact ⟨smallSigma, by simp, rfl⟩
  · exact .inl rfl

/-- A character that is its own lower case, whatever is around it. -/
def Settled (c : Char) : Prop := lower c = [c] ∧ c ≠ capitalSigma

theorem lowerIn_of_settled {cs : List Char} (h : ∀ c ∈ cs, Settled c) (after before : List Char) :
    lowerIn after before cs = cs := by
  induction cs generalizing before with
  | nil => rfl
  | cons c cs ih =>
    obtain ⟨fixed, notSigma⟩ := h c List.mem_cons_self
    rw [lowerIn, lowerAt, if_neg notSigma, fixed, List.singleton_append,
      ih fun d mem => h d (List.mem_cons_of_mem c mem)]

theorem lowerList_concat (cs : List Char) (c : Char) :
    ∃ ds, lowerList (cs ++ [c]) = ds ++ lowerAt cs.reverse c [] := by
  refine ⟨lowerIn ([c] ++ []) [] cs, ?_⟩
  rw [lowerList, lowerIn_append]
  simp [lowerIn]

theorem toLowercase_of_settled {s : String} (h : ∀ c ∈ s.toList, Settled c) :
    toLowercase s = s := by
  rw [toLowercase, lowerList, lowerIn_of_settled h, String.ofList_toList]

section Laws

variable (laws : LawfulCase)

include laws

theorem caseIgnorableThenCased_of_plain {cs : List Char}
    (h : ∀ c ∈ cs, isAlphanumeric c = false) : caseIgnorableThenCased cs = false := by
  apply caseIgnorableThenCased_of_not_cased
  intro c mem
  by_contra cased
  have := laws.cased c (by simpa using cased)
  rw [h c mem] at this
  exact absurd this (by decide)

theorem caseIgnorableThenCased_whitespace {c : Char} (h : isWhitespace c = true)
    (cs : List Char) : caseIgnorableThenCased (c :: cs) = false := by
  obtain ⟨plain, stops⟩ := laws.whitespace c h
  have cased : isCased c = false := by
    by_contra cased
    have := laws.cased c (by simpa using cased)
    rw [plain] at this
    exact absurd this (by decide)
  simp [caseIgnorableThenCased, stops, cased]

/-! ### Images -/

theorem settled_of_plain {c : Char} (h : isAlphanumeric c = false) : Settled c := by
  have fixed := laws.plain c h
  exact ⟨fixed, (laws.image c c (by simp [fixed])).2.1⟩

theorem lowerAt_image {before after : List Char} {c d : Char} (h : d ∈ lowerAt before c after) :
    Settled d ∧ isWhitespace d = isWhitespace c := by
  rcases lowerAt_cases before c after with mapped | ⟨rfl, s, mem, mapped⟩
  · rw [mapped] at h
    obtain ⟨fixed, notSigma, space⟩ := laws.image c d h
    exact ⟨⟨fixed, notSigma⟩, space⟩
  · rw [mapped, List.mem_singleton] at h
    subst h
    refine ⟨⟨(laws.sigmas d mem).1, ?_⟩, ?_⟩
    · rcases List.mem_pair.mp mem with rfl | rfl <;> decide
    · rcases List.mem_pair.mp mem with rfl | rfl <;> decide

theorem lowerAt_head {c : Char} (h : isAlphanumeric c = true) (before after : List Char) :
    ∃ d ds, lowerAt before c after = d :: ds ∧ isAlphanumeric d = true := by
  rcases lowerAt_cases before c after with mapped | ⟨-, s, mem, mapped⟩
  · rw [mapped]
    exact laws.head c h
  · exact ⟨s, [], mapped, (laws.sigmas s mem).2⟩

theorem lowerAt_last {c : Char} (h : isAlphanumeric c = true) (notDotted : c ≠ dottedI)
    (before after : List Char) :
    ∃ ds d, lowerAt before c after = ds ++ [d] ∧ isAlphanumeric d = true := by
  rcases lowerAt_cases before c after with mapped | ⟨-, s, mem, mapped⟩
  · rw [mapped]
    exact laws.last c h notDotted
  · exact ⟨[], s, mapped, (laws.sigmas s mem).2⟩

theorem lowerAt_ne_nil (before : List Char) (c : Char) (after : List Char) :
    lowerAt before c after ≠ [] := by
  cases h : isAlphanumeric c with
  | true =>
    obtain ⟨d, ds, mapped, -⟩ := lowerAt_head laws h before after
    simp [mapped]
  | false =>
    obtain ⟨fixed, notSigma⟩ := settled_of_plain laws h
    simp [lowerAt, notSigma, fixed]

theorem lowerIn_image {after before cs : List Char} {d : Char} (h : d ∈ lowerIn after before cs) :
    Settled d ∧ ∃ c ∈ cs, isWhitespace d = isWhitespace c := by
  induction cs generalizing before with
  | nil => exact absurd h List.not_mem_nil
  | cons c cs ih =>
    rcases List.mem_append.mp h with h | h
    · obtain ⟨settled, space⟩ := lowerAt_image laws h
      exact ⟨settled, c, List.mem_cons_self, space⟩
    · obtain ⟨settled, c', mem, space⟩ := ih h
      exact ⟨settled, c', List.mem_cons_of_mem c mem, space⟩

theorem settled_toLowercase {s : String} : ∀ c ∈ (toLowercase s).toList, Settled c := by
  intro c mem
  rw [toLowercase, String.toList_ofList] at mem
  exact (lowerIn_image laws mem).1

/-! ### Words -/

theorem lowerList_eq_nil_iff {cs : List Char} : lowerList cs = [] ↔ cs = [] := by
  cases cs with
  | nil => exact ⟨fun _ => rfl, fun _ => rfl⟩
  | cons c cs => simp [lowerList, lowerIn, lowerAt_ne_nil laws]

/-- Whitespace separates what is lowercased. -/
theorem lowerList_append_whitespace {w : Char} (h : isWhitespace w = true) (u v : List Char) :
    lowerList (u ++ w :: v) = lowerList u ++ w :: lowerList v := by
  obtain ⟨fixed, notSigma⟩ := settled_of_plain laws (laws.whitespace w h).1
  have stop := caseIgnorableThenCased_whitespace laws h
  have front : lowerIn (w :: v ++ []) [] u = lowerList u :=
    lowerIn_congr rfl (stop (v ++ [])) u
  have back : lowerIn [] (w :: (u.reverse ++ [])) v = lowerList v :=
    lowerIn_congr (stop (u.reverse ++ [])) rfl v
  rw [lowerList, lowerIn_append, front, lowerIn, back, lowerAt, if_neg notSigma, fixed,
    List.singleton_append]

theorem splitOnP_lowerList (cs : List Char) :
    (lowerList cs).splitOnP isWhitespace = (cs.splitOnP isWhitespace).map lowerList := by
  induction size : cs.length using Nat.strong_induction_on generalizing cs with
  | _ n ih =>
  by_cases word : ∀ c ∈ cs, isWhitespace c = false
  · have word' : ∀ d ∈ lowerList cs, isWhitespace d = false := by
      intro d mem
      obtain ⟨-, c, mem, space⟩ := lowerIn_image laws mem
      rw [space, word c mem]
    rw [List.splitOnP_eq_singleton word, List.splitOnP_eq_singleton word', List.map_singleton]
  · obtain ⟨w, mem, space⟩ : ∃ w ∈ cs, isWhitespace w = true := by simpa using word
    obtain ⟨u, v, rfl⟩ := List.append_of_mem mem
    rw [List.length_append, List.length_cons] at size
    rw [lowerList_append_whitespace laws space, List.splitOnP_append_cons _ _ space,
      List.splitOnP_append_cons _ _ space, List.map_append, ih u.length (by omega) u rfl,
      ih v.length (by omega) v rfl]

theorem splitWhitespace_toLowercase (s : String) :
    splitWhitespace (toLowercase s) = (splitWhitespace s).map toLowercase := by
  rw [splitWhitespace_eq, splitWhitespace_eq, toLowercase, String.toList_ofList,
    splitOnP_lowerList laws, List.filter_map, List.map_map, List.map_map]
  simp [Function.comp_def, lowerList_eq_nil_iff laws, toLowercase]

/-! ### Trimming -/

/-- What is trimmed away is not lowercased. -/
theorem lowerList_trimmed {front back : List Char} (plainF : ∀ c ∈ front, isAlphanumeric c = false)
    (plainB : ∀ c ∈ back, isAlphanumeric c = false) (core : List Char) :
    lowerList (front ++ core ++ back) = front ++ lowerList core ++ back := by
  have settledF : ∀ c ∈ front, Settled c := fun c mem => settled_of_plain laws (plainF c mem)
  have settledB : ∀ c ∈ back, Settled c := fun c mem => settled_of_plain laws (plainB c mem)
  have alone : lowerIn (back ++ []) (front.reverse ++ []) core = lowerList core := by
    apply lowerIn_congr
    · apply caseIgnorableThenCased_of_plain laws
      simpa using plainF
    · apply caseIgnorableThenCased_of_plain laws
      simpa using plainB
  rw [lowerList, lowerIn_append, lowerIn_append, lowerIn_of_settled settledF,
    lowerIn_of_settled settledB, alone]

theorem lowerList_head {cs : List Char} (h : ∀ c ∈ cs.head?, isAlphanumeric c = true) :
    ∀ d ∈ (lowerList cs).head?, isAlphanumeric d = true := by
  cases cs with
  | nil => simp [lowerList, lowerIn]
  | cons c cs =>
    obtain ⟨d, ds, mapped, alphanumeric⟩ := lowerAt_head laws (h c rfl) [] (cs ++ [])
    rw [lowerList, lowerIn, mapped]
    simpa using alphanumeric

/-- Lowercasing takes alphanumeric ends to such, but for a dotted capital I at the end. -/
theorem bare_lowerList_iff {cs : List Char} (bare : Bare (fun c => !isAlphanumeric c) cs) :
    Bare (fun c => !isAlphanumeric c) (lowerList cs) ↔ cs.getLast? ≠ some dottedI := by
  have front : ∀ d ∈ (lowerList cs).head?, (!isAlphanumeric d) = false := by
    simpa using lowerList_head laws (by simpa using bare.front)
  have ends : Bare (fun c => !isAlphanumeric c) (lowerList cs) ↔
      ∀ d ∈ (lowerList cs).getLast?, (!isAlphanumeric d) = false :=
    ⟨Bare.back, fun back => ⟨front, back⟩⟩
  rw [ends]
  rcases List.eq_nil_or_concat cs with rfl | ⟨init, c, rfl⟩
  · simp [lowerList, lowerIn]
  · obtain ⟨ds, mapped⟩ := lowerList_concat init c
    rw [List.concat_eq_append, mapped, List.getLast?_concat]
    by_cases dotted : c = dottedI
    · obtain ⟨image, plain⟩ := laws.dotted
      have notSigma : dottedI ≠ capitalSigma := by decide
      rw [dotted, lowerAt, if_neg notSigma, image]
      simp [plain]
    · have alphanumeric : isAlphanumeric c = true := by simpa using bare.back c (by simp)
      obtain ⟨ds', d, image, last⟩ := lowerAt_last laws alphanumeric dotted init.reverse []
      rw [image, ← List.append_assoc]
      simp [last, dotted]

theorem trimBy_lowerList (cs : List Char) :
    trimBy (fun c => !isAlphanumeric c) (lowerList cs) =
      trimBy (fun c => !isAlphanumeric c)
        (lowerList (trimBy (fun c => !isAlphanumeric c) cs)) := by
  obtain ⟨front, back, parts, dropF, dropB⟩ := exists_trimBy (fun c => !isAlphanumeric c) cs
  generalize trimBy (fun c => !isAlphanumeric c) cs = core at parts
  rw [parts, lowerList_trimmed laws (by simpa using dropF) (by simpa using dropB),
    trimBy_append dropF dropB]

end Laws

end Lowercase

end Text

import Mathlib.Algebra.Group.Nat.Defs

/-! Positional numerals of a fixed width and the order of texts.  Lists are ordered
lexicographically.  Blocks of one width keep that order when they are strung together, and numerals
of one width, with leading zeros, are ordered as the numbers are. -/

namespace Positional

/-! ### Lexicographic order -/

section Order

variable {α β : Type*} [LT α] [LT β]

theorem lt_of_first_difference (front : List α) {x y : α} (h : x < y) (us vs : List α) :
    front ++ x :: us < front ++ y :: vs :=
  List.append_left_lt (List.cons_lt_cons_iff.mpr (.inl h))

/-- Lists of one length are ordered by the first place where they differ. -/
theorem exists_first_difference {xs ys : List α} (length : xs.length = ys.length) (h : xs < ys) :
    ∃ front x y us vs, x < y ∧ xs = front ++ x :: us ∧ ys = front ++ y :: vs := by
  induction xs generalizing ys with
  | nil =>
    obtain rfl : ys = [] := List.length_eq_zero_iff.mp length.symm
    exact absurd h (List.not_lt_nil _)
  | cons x xs ih =>
    cases ys with
    | nil => exact absurd h (List.not_lt_nil _)
    | cons y ys =>
      rcases List.cons_lt_cons_iff.mp h with first | ⟨rfl, rest⟩
      · exact ⟨[], x, y, xs, ys, first, rfl, rfl⟩
      · obtain ⟨front, x', y', us, vs, first, rfl, rfl⟩ := ih (by simpa using length) rest
        exact ⟨x :: front, x', y', us, vs, first, rfl, rfl⟩

theorem append_lt_append {xs ys : List α} (length : xs.length = ys.length) (h : xs < ys)
    (us vs : List α) : xs ++ us < ys ++ vs := by
  obtain ⟨front, x, y, us', vs', first, rfl, rfl⟩ := exists_first_difference length h
  rw [List.append_assoc, List.append_assoc]
  exact lt_of_first_difference front first _ _

theorem map_lt_map {f : α → β} {xs ys : List α} (length : xs.length = ys.length)
    (increasing : ∀ x ∈ xs, ∀ y ∈ ys, x < y → f x < f y) (h : xs < ys) :
    xs.map f < ys.map f := by
  obtain ⟨front, x, y, us, vs, first, rfl, rfl⟩ := exists_first_difference length h
  rw [List.map_append, List.map_append]
  exact lt_of_first_difference _ (increasing x (by simp) y (by simp) first) _ _

/-- Strung blocks of one width are ordered as their contents are. -/
theorem flatMap_lt_flatMap {block : α → List β} {width : Nat}
    (length : ∀ a, (block a).length = width) (increasing : ∀ a b, a < b → block a < block b)
    {xs ys : List α} (same : xs.length = ys.length) (h : xs < ys) :
    xs.flatMap block < ys.flatMap block := by
  obtain ⟨front, x, y, us, vs, first, rfl, rfl⟩ := exists_first_difference same h
  rw [List.flatMap_append, List.flatMap_append, List.flatMap_cons, List.flatMap_cons]
  apply List.append_left_lt
  exact append_lt_append ((length x).trans (length y).symm) (increasing x y first) _ _

end Order

/-! ### Numerals -/

/-- The digits of `n` at the last `width` places, most significant first. -/
def digits (base : Nat) : Nat → Nat → List Nat
  | 0, _ => []
  | width + 1, n => digits base width (n / base) ++ [n % base]

@[simp] theorem length_digits (base width n : Nat) : (digits base width n).length = width := by
  induction width generalizing n with
  | zero => rfl
  | succ width ih => simp [digits, ih]

theorem lt_of_mem_digits {base : Nat} (positive : 0 < base) {width n d : Nat}
    (h : d ∈ digits base width n) : d < base := by
  induction width generalizing n with
  | zero => exact absurd h List.not_mem_nil
  | succ width ih =>
    rcases List.mem_append.mp h with h | h
    · exact ih h
    · obtain rfl := List.mem_singleton.mp h
      exact Nat.mod_lt n positive

theorem digits_zero (base width : Nat) : digits base width 0 = List.replicate width 0 := by
  induction width with
  | zero => rfl
  | succ width ih => rw [digits, Nat.zero_div, Nat.zero_mod, ih, List.replicate_succ']

/-- Numerals of one width are ordered as numbers. -/
theorem digits_lt_digits {base width m n : Nat} (h : m < n) (fits : n < base ^ width) :
    digits base width m < digits base width n := by
  induction width generalizing m n with
  | zero =>
    rw [Nat.pow_zero] at fits
    omega
  | succ width ih =>
    rw [digits, digits]
    have fits : n / base < base ^ width := Nat.div_lt_of_lt_mul (by rwa [← Nat.pow_succ'])
    have rest : m / base ≤ n / base := Nat.div_le_div_right (Nat.le_of_lt h)
    rcases Nat.lt_or_eq_of_le rest with front | front
    · exact append_lt_append (by simp) (ih front fits) _ _
    · rw [front]
      apply List.append_left_lt
      have := Nat.div_add_mod m base
      have := Nat.div_add_mod n base
      rw [front] at *
      exact List.cons_lt_cons_iff.mpr (.inl (by omega))

theorem digitChar_lt_digitChar : ∀ d < 16, ∀ e < 16, d < e →
    Nat.digitChar d < Nat.digitChar e := by
  decide

/-- Hexadecimal numerals of one width are ordered, as texts, as numbers. -/
theorem hex_lt_hex {width m n : Nat} (h : m < n) (fits : n < 16 ^ width) :
    (digits 16 width m).map Nat.digitChar < (digits 16 width n).map Nat.digitChar := by
  apply map_lt_map (by simp)
  · intro d hd e he
    exact digitChar_lt_digitChar d (lt_of_mem_digits (by decide) hd) e
      (lt_of_mem_digits (by decide) he)
  · exact digits_lt_digits h fits

/-- A printed number, padded with zeros, is its numeral of that width. -/
theorem leftpad_toDigits {base width n : Nat} (hb : 1 < base) (positive : 0 < width)
    (fits : n < base ^ width) :
    (Nat.toDigits base n).leftpad width '0' = (digits base width n).map Nat.digitChar := by
  induction width generalizing n with
  | zero => omega
  | succ width ih =>
    rw [digits, List.map_append, List.map_singleton, Nat.toDigits_eq_if hb]
    split
    · rename_i small
      rw [Nat.div_eq_of_lt small, Nat.mod_eq_of_lt small, digits_zero]
      simp [List.leftpad]
    · rename_i large
      have fits' : n / base < base ^ width := Nat.div_lt_of_lt_mul (by rwa [← Nat.pow_succ'])
      have room : 0 < width := by
        rcases Nat.eq_zero_or_pos width with rfl | room
        · simp only [Nat.zero_add, Nat.pow_one] at fits
          omega
        · exact room
      rw [← ih room fits', List.leftpad, List.leftpad, List.length_append, List.length_singleton,
        Nat.add_sub_add_right, List.append_assoc]

end Positional

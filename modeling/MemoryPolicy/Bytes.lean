import Mathlib.Algebra.BigOperators.Group.List.Basic
import Mathlib.Algebra.GroupWithZero.Nat
import Mathlib.Data.List.Count

/-! Byte streams: the UTF-8 bytes of strings, and pieces joined by a separator.  Joined pieces can
be told apart when they hold no separator. -/

namespace Bytes

/-! ### UTF-8 -/

/-- The UTF-8 bytes of a string. -/
def utf8 (s : String) : List UInt8 := s.toByteArray.data.toList

theorem utf8_eq_flatMap (s : String) : utf8 s = s.toList.flatMap String.utf8EncodeChar := by
  rw [utf8, ← String.utf8Encode_toList, List.utf8Encode, List.toList_data_toByteArray]

theorem utf8_injective : Function.Injective utf8 := by
  intro s t h
  apply String.toByteArray_inj.mp
  exact ByteArray.ext (Array.ext' h)

theorem utf8_append (s t : String) : utf8 (s ++ t) = utf8 s ++ utf8 t := by
  simp [utf8_eq_flatMap]

theorem zero_mem_utf8EncodeChar {c : Char} : 0 ∈ String.utf8EncodeChar c ↔ c = '\x00' := by
  have nul : c = '\x00' ↔ c.val.toNat = 0 := by
    rw [Char.ext_iff, ← UInt32.toNat_inj]
    rfl
  have byte : ∀ n, 0 = UInt8.ofNat n ↔ n % 256 = 0 := fun n => by
    rw [← UInt8.toNat_inj, UInt8.toNat_ofNat']
    exact eq_comm
  rw [nul, String.utf8EncodeChar]
  split_ifs <;> simp only [List.mem_cons, List.not_mem_nil, or_false, byte] <;> omega

theorem zero_mem_utf8 {s : String} : 0 ∈ utf8 s ↔ '\x00' ∈ s.toList := by
  simp [utf8_eq_flatMap, zero_mem_utf8EncodeChar]

/-! ### ASCII -/

theorem utf8EncodeChar_of_ascii {c : Char} (h : c.toNat < 128) :
    String.utf8EncodeChar c = [UInt8.ofNat c.toNat] := by
  have small : c.val.toNat ≤ 127 := Nat.lt_succ_iff.mp h
  rw [String.utf8EncodeChar, if_pos small]
  rfl

theorem high_byte_of_not_ascii {c : Char} (h : 128 ≤ c.toNat) :
    ∃ b ∈ String.utf8EncodeChar c, 128 ≤ b.toNat := by
  have large : ¬ c.val.toNat ≤ 127 := Nat.not_le.mpr h
  rw [String.utf8EncodeChar, if_neg large]
  split_ifs <;> refine ⟨_, List.mem_cons_self, ?_⟩ <;> rw [UInt8.toNat_ofNat'] <;> omega

/-- An ASCII text has one byte for each character. -/
theorem utf8_of_ascii {s : String} (h : ∀ c ∈ s.toList, c.toNat < 128) :
    utf8 s = s.toList.map fun c => UInt8.ofNat c.toNat := by
  rw [utf8_eq_flatMap, List.map_eq_flatMap]
  exact List.flatMap_congr fun c hc => utf8EncodeChar_of_ascii (h c hc)

theorem ascii_of_utf8 {s : String} (h : ∀ b ∈ utf8 s, b.toNat < 128) :
    ∀ c ∈ s.toList, c.toNat < 128 := by
  intro c hc
  by_contra high
  obtain ⟨b, hb, large⟩ := high_byte_of_not_ascii (Nat.not_lt.mp high)
  have := h b (by rw [utf8_eq_flatMap]; exact List.mem_flatMap.mpr ⟨c, hc, hb⟩)
  omega

/-! ### Joined pieces -/

section Joined

variable {α : Type*} [DecidableEq α]

theorem count_intercalate (sep : α) {pieces : List (List α)} (h : pieces ≠ []) :
    ([sep].intercalate pieces).count sep + 1 =
      pieces.length + (pieces.map (List.count sep)).sum := by
  induction pieces with
  | nil => exact absurd rfl h
  | cons first rest ih =>
    cases rest with
    | nil => simp; omega
    | cons second rest =>
      have := ih (by simp)
      simp [List.intercalate] at this ⊢
      omega

/-- Pieces without the separator can be read off their joined list, among as many pieces. -/
theorem eq_of_intercalate_eq {sep : α} {xs ys : List (List α)} (free : ∀ x ∈ xs, sep ∉ x)
    (length : ys.length = xs.length) (h : [sep].intercalate ys = [sep].intercalate xs) :
    ys = xs := by
  rcases eq_or_ne xs [] with rfl | nonempty
  · exact List.length_eq_zero_iff.mp length
  have nonempty' : ys ≠ [] := by
    intro he
    exact nonempty (List.length_eq_zero_iff.mp (by simp [← length, he]))
  have free' : ∀ y ∈ ys, sep ∉ y := by
    have none : (xs.map (List.count sep)).sum = 0 :=
      List.sum_eq_zero_iff_forall_eq_nat.mpr (by simpa [List.count_eq_zero] using free)
    have same := count_intercalate sep nonempty'
    rw [h, count_intercalate sep nonempty, none, length] at same
    have none' : (ys.map (List.count sep)).sum = 0 := by omega
    simpa [List.sum_eq_zero_iff_forall_eq_nat, List.count_eq_zero] using none'
  rw [← List.splitOn_intercalate sep free nonempty, ← h,
    List.splitOn_intercalate sep free' nonempty']

end Joined

end Bytes

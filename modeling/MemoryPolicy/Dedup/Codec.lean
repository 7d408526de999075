import MemoryPolicy.Dedup.Hex

/-! The codec of dedup keys as a whole: the decoder accepts the texts of 64 hexadecimal digits,
undoes the encoder, and is undone by it up to the case of the digits; the encoder keeps the order of
the keys. -/

namespace MemoryPolicy

open Bytes

/-- The hexadecimal digits of either case. -/
def hexDigits : List Char := "0123456789abcdefABCDEF".toList

theorem exists_digitValue {c : Char} (h : c ∈ hexDigits) : ∃ n, digitValue c = some n := by
  have values : hexDigits.all (fun c => (digitValue c).isSome) = true := by decide
  exact Option.isSome_iff_exists.mp (List.all_eq_true.mp values c h)

theorem hexDigits_of_digitValue : ∀ m < 128, (digitValue (Char.ofNat m)).all fun n =>
    Char.ofNat m ∈ hexDigits ∧ Nat.digitChar n = (Char.ofNat m).toLower := by
  decide

theorem mem_hexDigits_of_digitValue {c : Char} {n : Nat} (h : digitValue c = some n) :
    c ∈ hexDigits ∧ Nat.digitChar n = c.toLower := by
  have whole := hexDigits_of_digitValue c.toNat (digitValue_lt h).2
  rw [Char.ofNat_toNat, h] at whole
  simpa using whole

/-! ### What the decoder accepts -/

theorem Denotes.digits {cs : List Char} {bytes : List UInt8} (h : Denotes cs bytes) :
    ∀ c ∈ cs, c ∈ hexDigits := by
  induction h with
  | nil => simp
  | byte high low _ ih =>
    simp only [List.forall_mem_cons]
    exact ⟨(mem_hexDigits_of_digitValue high).1, (mem_hexDigits_of_digitValue low).1, ih⟩

theorem exists_denotes (n : Nat) {cs : List Char} (length : cs.length = 2 * n)
    (digits : ∀ c ∈ cs, c ∈ hexDigits) : ∃ bytes, Denotes cs bytes ∧ bytes.length = n := by
  induction n generalizing cs with
  | zero =>
    obtain rfl : cs = [] := List.length_eq_zero_iff.mp length
    exact ⟨[], .nil, rfl⟩
  | succ n ih =>
    obtain ⟨hi, lo, cs, rfl⟩ : ∃ hi lo rest, cs = hi :: lo :: rest := by
      rcases cs with _ | ⟨hi, _ | ⟨lo, rest⟩⟩
      · simp at length
      · simp at length; omega
      · exact ⟨hi, lo, rest, rfl⟩
    simp only [List.forall_mem_cons] at digits
    obtain ⟨high, low, rest⟩ := digits
    obtain ⟨h, high⟩ := exists_digitValue high
    obtain ⟨l, low⟩ := exists_digitValue low
    obtain ⟨bytes, denotes, size⟩ := ih (by simp at length; omega) rest
    exact ⟨_, .byte high low denotes, by simp [size]⟩

theorem exists_hexDecode_iff {hex : String} :
    (∃ key, hexDecode hex = some key) ↔
      hex.toList.length = 64 ∧ ∀ c ∈ hex.toList, c ∈ hexDigits := by
  simp only [hexDecode_eq_some_iff]
  constructor
  · rintro ⟨key, denotes⟩
    exact ⟨by rw [denotes.length, Vector.length_toList], denotes.digits⟩
  · rintro ⟨length, digits⟩
    obtain ⟨bytes, denotes, size⟩ := exists_denotes 32 length digits
    exact ⟨⟨bytes.toArray, by simpa using size⟩, by simpa using denotes⟩

/-! ### Round trips -/

theorem hexDecode_hexEncode (key : DedupKey) : hexDecode (hexEncode key) = some key :=
  hexDecode_eq_some_iff.mpr (denotes_hexEncode key)

theorem Denotes.lower {cs : List Char} {bytes : List UInt8} (h : Denotes cs bytes) :
    bytes.flatMap hexByte = cs.map Char.toLower := by
  induction h with
  | nil => rfl
  | @byte hi lo h l cs bytes high low _ ih =>
    have hh := (digitValue_lt high).1
    have hl := (digitValue_lt low).1
    have value : (UInt8.ofNat (16 * h + l)).toNat = 16 * h + l :=
      UInt8.toNat_ofNat_of_lt' (show 16 * h + l < 256 by omega)
    have front : (16 * h + l) / 16 = h := by omega
    have back : (16 * h + l) % 16 = l := by omega
    rw [List.flatMap_cons, ih, hexByte_eq, digits_toNat, value, front, back]
    simp [(mem_hexDigits_of_digitValue high).2, (mem_hexDigits_of_digitValue low).2]

theorem hexEncode_of_hexDecode {hex : String} {key : DedupKey} (h : hexDecode hex = some key) :
    hexEncode key = hex.toLower := by
  rw [← String.toList_inj, toList_hexEncode, (hexDecode_eq_some_iff.mp h).lower]
  exact String.toList_map.symm

/-- Hexadecimal forms are ordered as the bytes of the keys. -/
theorem hexEncode_le_iff {p q : DedupKey} : hexEncode p ≤ hexEncode q ↔ p.toList ≤ q.toList :=
  not_congr hexEncode_lt_iff

/-- The codec is exact: it decodes the texts of 64 digits and no others, decoding undoes encoding,
encoding undoes decoding up to case, and the order of the keys is that of their forms. -/
theorem hexCodec_exact :
    (∀ hex, (hexDecode hex).isSome ↔
      hex.toList.length = 64 ∧ ∀ c ∈ hex.toList, c ∈ hexDigits) ∧
    (∀ key, hexDecode (hexEncode key) = some key) ∧
    (∀ hex key, hexDecode hex = some key → hexEncode key = hex.toLower) ∧
    ∀ p q : DedupKey, hexEncode p ≤ hexEncode q ↔ p.toList ≤ q.toList := by
  refine ⟨fun hex => ?_, hexDecode_hexEncode, fun _ _ => hexEncode_of_hexDecode,
    fun _ _ => hexEncode_le_iff⟩
  rw [Option.isSome_iff_exists, exists_hexDecode_iff]

end MemoryPolicy

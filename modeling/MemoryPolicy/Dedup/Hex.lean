import MemoryPolicy.Dedup.Key
import MemoryPolicy.Positional
import Mathlib.Data.List.Lex
import Mathlib.Data.String.Basic

/-! The hexadecimal form of dedup keys in `src/dedup.rs`.  The encoder writes two lowercase digits
for each byte; the decoder reads the UTF-8 bytes of a text two by two and accepts exactly the texts
that denote a key, in either case. -/

namespace MemoryPolicy

open Bytes Positional

def nibbleToHex (n : UInt8) : Char :=
  let n := n &&& 0x0f
  if n < 10 then Char.ofUInt8 (0x30 + n) else Char.ofUInt8 (0x61 + n - 10)

def hexEncode (key : DedupKey) : String :=
  key.toList.foldl
    (fun out (b : UInt8) => (out.push (nibbleToHex (b >>> 4))).push (nibbleToHex (b &&& 0x0f))) ""

def hexEncodeKey (key : DedupKey) : String := hexEncode key

def nibble (b : UInt8) : Option UInt8 :=
  if 0x30 ≤ b ∧ b ≤ 0x39 then some (b - 0x30)
  else if 0x61 ≤ b ∧ b ≤ 0x66 then some (b - 0x61 + 10)
  else if 0x41 ≤ b ∧ b ≤ 0x46 then some (b - 0x41 + 10)
  else none

/-- The body of the loop of `hex_decode`: the byte of the key at place `i`. -/
def decodeAt (bytes : List UInt8) (i : Nat) : Option UInt8 := do
  let hi ← nibble (← bytes[i * 2]?)
  let lo ← nibble (← bytes[i * 2 + 1]?)
  some ((hi <<< 4) ||| lo)

def hexDecode (hex : String) : Option DedupKey :=
  let bytes := utf8 hex
  if bytes.length ≠ 64 then none
  else
    (List.range 32).foldlM
      (fun out i => (decodeAt bytes i).map fun b => out.setIfInBounds i b) (Vector.replicate 32 0)

/-! ### What a text denotes -/

/-- The value of an ASCII hexadecimal digit of either case. -/
def digitValue (c : Char) : Option Nat :=
  if '0' ≤ c ∧ c ≤ '9' then some (c.toNat - '0'.toNat)
  else if 'a' ≤ c ∧ c ≤ 'f' then some (c.toNat - 'a'.toNat + 10)
  else if 'A' ≤ c ∧ c ≤ 'F' then some (c.toNat - 'A'.toNat + 10)
  else none

/-- Two digits for each byte, the more significant one first. -/
inductive Denotes : List Char → List UInt8 → Prop
  | nil : Denotes [] []
  | byte {hi lo : Char} {h l : Nat} {cs : List Char} {bytes : List UInt8}
    (high : digitValue hi = some h) (low : digitValue lo = some l) (rest : Denotes cs bytes) :
    Denotes (hi :: lo :: cs) (UInt8.ofNat (16 * h + l) :: bytes)

theorem Denotes.length {cs : List Char} {bytes : List UInt8} (h : Denotes cs bytes) :
    cs.length = 2 * bytes.length := by
  induction h with
  | nil => rfl
  | byte _ _ _ ih => simp only [List.length_cons, ih]; omega

theorem digitValue_lt {c : Char} {n : Nat} (h : digitValue c = some n) :
    n < 16 ∧ c.toNat < 128 := by
  have order (a b : Char) : a ≤ b ↔ a.toNat ≤ b.toNat := Iff.rfl
  simp only [digitValue, order] at h
  have h0 : '0'.toNat = 48 := rfl
  have h9 : '9'.toNat = 57 := rfl
  have ha : 'a'.toNat = 97 := rfl
  have hf : 'f'.toNat = 102 := rfl
  have hA : 'A'.toNat = 65 := rfl
  have hF : 'F'.toNat = 70 := rfl
  split_ifs at h <;> simp only [Option.some.injEq] at h <;> omega

theorem Denotes.ascii {cs : List Char} {bytes : List UInt8} (h : Denotes cs bytes) :
    ∀ c ∈ cs, c.toNat < 128 := by
  induction h with
  | nil => simp
  | byte high low _ ih =>
    intro c hc
    rcases List.mem_cons.mp hc with rfl | hc
    · exact (digitValue_lt high).2
    · rcases List.mem_cons.mp hc with rfl | hc
      · exact (digitValue_lt low).2
      · exact ih c hc

/-! ### The decoder -/

theorem nibble_ofNat : ∀ n < 128, nibble (UInt8.ofNat n) =
    (digitValue (Char.ofNat n)).map UInt8.ofNat := by
  decide

theorem nibble_lt {b n : UInt8} (h : nibble b = some n) : b.toNat < 128 := by
  unfold nibble at h
  simp only [UInt8.le_iff_toNat_le] at h
  split_ifs at h <;> simp_all <;> omega

def code (c : Char) : UInt8 := UInt8.ofNat c.toNat

theorem nibble_code {c : Char} (h : c.toNat < 128) :
    nibble (code c) = (digitValue c).map UInt8.ofNat := by
  rw [code, nibble_ofNat _ h, Char.ofNat_toNat]

theorem shift_or_nibbles : ∀ h < 16, ∀ l < 16,
    (UInt8.ofNat h <<< 4) ||| UInt8.ofNat l = UInt8.ofNat (16 * h + l) := by
  decide

theorem decodeAt_zero {hi lo : Char} {rest : List UInt8} (hhi : hi.toNat < 128)
    (hlo : lo.toNat < 128) {b : UInt8} :
    decodeAt (code hi :: code lo :: rest) 0 = some b ↔
      ∃ h l, digitValue hi = some h ∧ digitValue lo = some l ∧ UInt8.ofNat (16 * h + l) = b := by
  have whole : decodeAt (code hi :: code lo :: rest) 0 =
      (nibble (code hi)).bind fun h => (nibble (code lo)).bind fun l => some ((h <<< 4) ||| l) :=
    rfl
  rw [whole, nibble_code hhi, nibble_code hlo]
  cases hh : digitValue hi with
  | none => simp
  | some h =>
    cases hl : digitValue lo with
    | none => simp
    | some l =>
      simp [shift_or_nibbles h (digitValue_lt hh).1 l (digitValue_lt hl).1]

theorem decodeAt_succ (x y : UInt8) (bytes : List UInt8) (i : Nat) :
    decodeAt (x :: y :: bytes) (i + 1) = decodeAt bytes i := by
  rw [decodeAt, decodeAt, Nat.add_mul]
  rfl

/-- The loop decodes what an ASCII text denotes. -/
theorem decodeAt_iff_denotes {cs : List Char} (ascii : ∀ c ∈ cs, c.toNat < 128)
    {bytes : List UInt8} (length : cs.length = 2 * bytes.length) :
    (∀ i (h : i < bytes.length), decodeAt (cs.map code) i = some bytes[i]) ↔
      Denotes cs bytes := by
  induction bytes generalizing cs with
  | nil =>
    obtain rfl : cs = [] := List.length_eq_zero_iff.mp length
    exact iff_of_true (fun i h => absurd h (Nat.not_lt_zero i)) .nil
  | cons b bytes ih =>
    obtain ⟨hi, lo, cs, rfl⟩ : ∃ hi lo rest, cs = hi :: lo :: rest := by
      rcases cs with _ | ⟨hi, _ | ⟨lo, rest⟩⟩
      · simp at length
      · simp at length; omega
      · exact ⟨hi, lo, rest, rfl⟩
    have hhi := ascii hi (by simp)
    have hlo := ascii lo (by simp)
    have rest := @ih cs (fun c hc => ascii c (by simp [hc])) (by simp at length; omega)
    constructor
    · intro decodes
      obtain ⟨h, l, high, low, rfl⟩ := (decodeAt_zero hhi hlo).mp (decodes 0 (by simp))
      refine .byte high low (rest.mp fun i hi => ?_)
      have := decodes (i + 1) (by simp [hi])
      rwa [List.map_cons, List.map_cons, decodeAt_succ] at this
    · intro denotes
      cases denotes with
      | byte high low denotes =>
        rintro (_ | i) hi
        · exact (decodeAt_zero hhi hlo).mpr ⟨_, _, high, low, rfl⟩
        · rw [List.map_cons, List.map_cons, decodeAt_succ]
          exact rest.mpr denotes i (by simpa using hi)

section Filling

variable {α : Type} {n : Nat} {f : Nat → Option α} {start out v : Vector α n} {m : Nat}

/-- The first `m` places have their values, the others are as at the start. -/
def Filled (f : Nat → Option α) (start : Vector α n) (m : Nat) (v : Vector α n) : Prop :=
  ∀ i (h : i < n), if i < m then f i = some v[i] else v[i] = start[i]

theorem filled_zero : Filled f start 0 v ↔ start = v := by
  simp only [Filled, Nat.not_lt_zero, if_false]
  constructor
  · intro same
    exact Vector.ext fun i h => (same i h).symm
  · rintro rfl
    exact fun _ _ => rfl

theorem Filled.set (filled : Filled f start m out) {a : α} (ha : f m = some a) :
    Filled f start (m + 1) (out.setIfInBounds m a) := by
  intro i hi
  have filled := filled i hi
  rcases Nat.lt_trichotomy i m with before | rfl | behind
  · rw [if_pos (by omega), Vector.getElem_setIfInBounds_ne _ (by omega)]
    rwa [if_pos before] at filled
  · rw [if_pos (by omega), Vector.getElem_setIfInBounds_self]
    exact ha
  · rw [if_neg (by omega), Vector.getElem_setIfInBounds_ne _ (by omega)]
    rwa [if_neg (by omega)] at filled

theorem Filled.reset (filled : Filled f start (m + 1) v) (hm : m < n) :
    Filled f start m (v.setIfInBounds m start[m]) := by
  intro i hi
  have filled := filled i hi
  rcases Nat.lt_trichotomy i m with before | rfl | behind
  · rw [if_pos (by omega)] at filled
    rwa [if_pos before, Vector.getElem_setIfInBounds_ne _ (by omega)]
  · rw [if_neg (by omega), Vector.getElem_setIfInBounds_self]
  · rw [if_neg (by omega)] at filled
    rwa [if_neg (by omega), Vector.getElem_setIfInBounds_ne _ (by omega)]

theorem setIfInBounds_reset (a : α) (hm : m < n) :
    (v.setIfInBounds m a).setIfInBounds m v[m] = v := by
  ext i hi
  by_cases same : m = i
  · subst same
    rw [Vector.getElem_setIfInBounds_self]
  · rw [Vector.getElem_setIfInBounds_ne _ same, Vector.getElem_setIfInBounds_ne _ same]

/-- A loop that fills the places of a vector in turn. -/
theorem foldlM_setIfInBounds (f : Nat → Option α) (start : Vector α n) (hm : m ≤ n) :
    (List.range m).foldlM (fun out i => (f i).map fun a => out.setIfInBounds i a) start = some v ↔
      Filled f start m v := by
  induction m generalizing v with
  | zero =>
    rw [filled_zero, List.range_zero, List.foldlM_nil]
    exact Option.some_inj
  | succ m ih =>
    have last : (List.range (m + 1)).foldlM
        (fun out i => (f i).map fun a => out.setIfInBounds i a) start = some v ↔
        ∃ out, (List.range m).foldlM
          (fun out i => (f i).map fun a => out.setIfInBounds i a) start = some out ∧
          ∃ a, f m = some a ∧ out.setIfInBounds m a = v := by
      simp [List.range_succ, List.foldlM_append, Option.bind_eq_some_iff, Option.map_eq_some_iff]
    rw [last]
    constructor
    · rintro ⟨out, run, a, ha, rfl⟩
      exact ((ih (by omega)).mp run).set ha
    · intro filled
      have here := filled m (by omega)
      rw [if_pos (by omega)] at here
      exact ⟨_, (ih (by omega)).mpr (filled.reset (by omega)), v[m], here,
        setIfInBounds_reset _ _⟩

end Filling

theorem decodeAt_ascii {bytes : List UInt8} {i : Nat} {b : UInt8}
    (h : decodeAt bytes i = some b) :
    (∀ x, bytes[i * 2]? = some x → x.toNat < 128) ∧
      ∀ x, bytes[i * 2 + 1]? = some x → x.toNat < 128 := by
  simp only [decodeAt, Option.bind_eq_bind, Option.bind_eq_some_iff] at h
  obtain ⟨x, hx, hi, hhi, y, hy, lo, hlo, -⟩ := h
  constructor
  · intro z hz
    rw [Option.some.inj (hz.symm.trans hx)]
    exact nibble_lt hhi
  · intro z hz
    rw [Option.some.inj (hz.symm.trans hy)]
    exact nibble_lt hlo

theorem hexDecode_eq_some_iff_decodeAt {hex : String} {key : DedupKey} :
    hexDecode hex = some key ↔ (utf8 hex).length = 64 ∧
      ∀ i (h : i < key.toList.length), decodeAt (utf8 hex) i = some key.toList[i] := by
  rw [hexDecode]
  split
  · rename_i other
    exact iff_of_false (by simp) fun decoded => other decoded.1
  · rename_i length
    rw [foldlM_setIfInBounds _ _ (Nat.le_refl 32)]
    simp only [not_not.mp length, true_and, Vector.length_toList, Vector.getElem_toList]
    exact forall₂_congr fun i h => by rw [if_pos h]

/-- A decoded text is ASCII, since every byte of it is a digit. -/
theorem ascii_of_decoded {hex : String} {key : DedupKey} (length : (utf8 hex).length = 64)
    (decoded : ∀ i (h : i < key.toList.length), decodeAt (utf8 hex) i = some key.toList[i]) :
    ∀ c ∈ hex.toList, c.toNat < 128 := by
  apply ascii_of_utf8
  intro b hb
  obtain ⟨j, hj, rfl⟩ := List.mem_iff_getElem.mp hb
  have pair := decodeAt_ascii (decoded (j / 2) (by simp; omega))
  rcases Nat.mod_two_eq_zero_or_one j with even | odd
  · exact pair.1 _ (by rw [show j / 2 * 2 = j by omega]; exact List.getElem?_eq_getElem hj)
  · exact pair.2 _ (by rw [show j / 2 * 2 + 1 = j by omega]; exact List.getElem?_eq_getElem hj)

/-- The decoder accepts the texts that denote a key. -/
theorem hexDecode_eq_some_iff {hex : String} {key : DedupKey} :
    hexDecode hex = some key ↔ Denotes hex.toList key.toList := by
  rw [hexDecode_eq_some_iff_decodeAt]
  constructor
  · rintro ⟨length, decoded⟩
    have ascii := ascii_of_decoded length decoded
    rw [utf8_of_ascii ascii] at decoded length
    exact (decodeAt_iff_denotes ascii (by simpa using length)).mp decoded
  · intro denotes
    rw [utf8_of_ascii denotes.ascii]
    refine ⟨?_, (decodeAt_iff_denotes denotes.ascii denotes.length).mpr denotes⟩
    rw [List.length_map, denotes.length, Vector.length_toList]

/-! ### The encoder -/

def hexByte (b : UInt8) : List Char := [nibbleToHex (b >>> 4), nibbleToHex (b &&& 0x0f)]

theorem length_hexByte (b : UInt8) : (hexByte b).length = 2 := rfl

theorem toList_hexEncode (key : DedupKey) :
    (hexEncode key).toList = key.toList.flatMap hexByte := by
  have run : ∀ (bytes : List UInt8) (out : String),
      (bytes.foldl (fun out (b : UInt8) =>
        (out.push (nibbleToHex (b >>> 4))).push (nibbleToHex (b &&& 0x0f))) out).toList =
      out.toList ++ bytes.flatMap hexByte := by
    intro bytes
    induction bytes with
    | nil => simp
    | cons b bytes ih => intro out; simp [ih, hexByte]
  rw [hexEncode, run]
  rfl

theorem nibbleToHex_ofNat : ∀ n < 16, nibbleToHex (UInt8.ofNat n) = Nat.digitChar n := by
  decide

theorem digits_toNat (b : UInt8) : digits 16 2 b.toNat = [b.toNat / 16, b.toNat % 16] := by
  have hb := b.toNat_lt
  have high : b.toNat / 16 % 16 = b.toNat / 16 := Nat.mod_eq_of_lt (by omega)
  simp [digits, high]

theorem hexByte_eq (b : UInt8) : hexByte b = (digits 16 2 b.toNat).map Nat.digitChar := by
  have hb := b.toNat_lt
  have high : b >>> 4 = UInt8.ofNat (b.toNat / 16) := by
    apply UInt8.toNat_inj.mp
    rw [UInt8.toNat_shiftRight, UInt8.toNat_ofNat']
    simp [Nat.shiftRight_eq_div_pow]
    omega
  have low : b &&& 0x0f = UInt8.ofNat (b.toNat % 16) := by
    apply UInt8.toNat_inj.mp
    rw [UInt8.toNat_and, UInt8.toNat_ofNat']
    have := Nat.and_two_pow_sub_one_eq_mod b.toNat 4
    simp at this ⊢
    omega
  rw [hexByte, high, low, nibbleToHex_ofNat _ (by omega), nibbleToHex_ofNat _ (by omega),
    digits_toNat]
  rfl

theorem digitValue_digitChar : ∀ d < 16, digitValue (Nat.digitChar d) = some d := by
  decide

theorem hexByte_lt_hexByte (b c : UInt8) (h : b < c) : hexByte b < hexByte c := by
  rw [hexByte_eq, hexByte_eq]
  exact hex_lt_hex (UInt8.lt_iff_toNat_lt.mp h) c.toNat_lt

/-- The lowercase digits of hexadecimal numerals. -/
def lowerDigits : List Char := "0123456789abcdef".toList

theorem digitChar_mem_lowerDigits : ∀ d < 16, Nat.digitChar d ∈ lowerDigits := by
  decide

theorem mem_lowerDigits_of_mem_hexEncode {key : DedupKey} {c : Char}
    (h : c ∈ (hexEncode key).toList) : c ∈ lowerDigits := by
  rw [toList_hexEncode] at h
  obtain ⟨b, -, hc⟩ := List.mem_flatMap.mp h
  rw [hexByte_eq] at hc
  obtain ⟨d, hd, rfl⟩ := List.mem_map.mp hc
  exact digitChar_mem_lowerDigits d (lt_of_mem_digits (by decide) hd)

theorem denotes_flatMap_hexByte (bytes : List UInt8) :
    Denotes (bytes.flatMap hexByte) bytes := by
  induction bytes with
  | nil => exact .nil
  | cons b bytes ih =>
    have hb := b.toNat_lt
    have whole := Denotes.byte (digitValue_digitChar (b.toNat / 16) (by omega))
      (digitValue_digitChar (b.toNat % 16) (by omega)) ih
    rw [Nat.div_add_mod, UInt8.ofNat_toNat] at whole
    rw [List.flatMap_cons, hexByte_eq, digits_toNat]
    exact whole

theorem denotes_hexEncode (key : DedupKey) : Denotes (hexEncode key).toList key.toList := by
  rw [toList_hexEncode]
  exact denotes_flatMap_hexByte key.toList

/-- A text denotes at most one list of bytes. -/
theorem Denotes.unique {cs : List Char} {bytes bytes' : List UInt8} (h : Denotes cs bytes)
    (h' : Denotes cs bytes') : bytes = bytes' := by
  induction h generalizing bytes' with
  | nil =>
    cases h'
    rfl
  | byte high low _ ih =>
    cases h' with
    | byte high' low' rest' =>
      rw [Option.some.inj (high.symm.trans high'), Option.some.inj (low.symm.trans low'),
        ih rest']

theorem denotes_hexEncode_iff {key key' : DedupKey} :
    Denotes (hexEncode key).toList key'.toList ↔ key' = key := by
  constructor
  · intro h
    exact Vector.toList_inj.mp (h.unique (denotes_hexEncode key))
  · rintro rfl
    exact denotes_hexEncode key'

theorem hexEncode_injective : Function.Injective hexEncode := by
  intro p q h
  exact denotes_hexEncode_iff.mp (h ▸ denotes_hexEncode p)

theorem length_hexEncode (key : DedupKey) : (hexEncode key).toList.length = 64 := by
  rw [(denotes_hexEncode key).length, Vector.length_toList]

theorem hexEncode_lt_of_lt {p q : DedupKey} (h : p.toList < q.toList) :
    hexEncode p < hexEncode q := by
  rw [String.lt_iff, toList_hexEncode, toList_hexEncode]
  exact flatMap_lt_flatMap length_hexByte hexByte_lt_hexByte (by simp) h

/-- Hexadecimal forms are ordered as the bytes of the keys. -/
theorem hexEncode_lt_iff {p q : DedupKey} :
    hexEncode p < hexEncode q ↔ p.toList < q.toList := by
  refine ⟨fun h => ?_, hexEncode_lt_of_lt⟩
  by_contra not_before
  have not_behind : ¬ q.toList < p.toList := fun behind => lt_asymm h (hexEncode_lt_of_lt behind)
  have same : p.toList = q.toList :=
    Std.Trichotomous.trichotomous (r := List.Lex (· < ·)) _ _ not_before not_behind
  exact lt_irrefl _ (Vector.toList_inj.mp same ▸ h)

end MemoryPolicy

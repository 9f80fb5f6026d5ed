/-
Texts and the bytes that encode them. Decoding takes back what encoding makes and nothing else, and characters
of ASCII are encoded as one byte each.
-/
import Exprc.Text.Utf8
import Mathlib

namespace Exprc.Text

variable {text : String} {bytes : List UInt8} {cs : List Char}

theorem encodeUtf8_eq (text : String) : encodeUtf8 text = text.toList.flatMap String.utf8EncodeChar := by
  rw [encodeUtf8, String.toUTF8, ← String.utf8Encode_toList, List.utf8Encode, List.toList_data_toByteArray]

theorem encodeUtf8_append (text text' : String) : encodeUtf8 (text ++ text') = encodeUtf8 text ++ encodeUtf8 text' := by
  rw [encodeUtf8_eq, encodeUtf8_eq, encodeUtf8_eq, String.toList_append, List.flatMap_append]

theorem encodeUtf8_eq_nil_iff : encodeUtf8 text = [] ↔ text = "" := by
  have hchar : ∀ c : Char, String.utf8EncodeChar c ≠ [] := fun c =>
    List.ne_nil_of_length_pos (by rw [String.length_utf8EncodeChar]; exact c.utf8Size_pos)
  rw [encodeUtf8_eq, List.flatMap_eq_nil_iff, ← String.toList_eq_nil_iff, List.eq_nil_iff_forall_not_mem]
  exact forall₂_congr fun c _ => iff_false_intro (hchar c)

/-- Bytes are decoded to the text that they encode. -/
theorem decodeUtf8?_eq_some : decodeUtf8? bytes = some text ↔ bytes = encodeUtf8 text := by
  unfold decodeUtf8? String.fromUTF8?
  constructor
  · intro h
    split at h
    · cases h
      rfl
    · cases h
  · rintro rfl
    exact dif_pos text.isValidUTF8

/-! ## ASCII -/

theorem toUInt8_toChar (b : UInt8) : b.toChar.toUInt8 = b :=
  UInt8.toNat_inj.1 (Nat.mod_eq_of_lt b.toNat_lt)

theorem toChar_toUInt8 {c : Char} (h : c.toNat < 128) : c.toUInt8.toChar = c :=
  Char.toNat_inj.1 (Nat.mod_eq_of_lt (Nat.lt_trans h (by decide)))

theorem toNat_lt_of_isDigit {c : Char} (h : c.isDigit = true) : c.toNat < 128 := by
  simp only [Char.isDigit, Bool.and_eq_true, decide_eq_true_eq, UInt32.le_iff_toNat_le] at h
  exact Nat.lt_of_le_of_lt h.2 (by decide)

theorem utf8EncodeChar_of_ascii {c : Char} (h : c.toNat < 128) : String.utf8EncodeChar c = [c.toUInt8] := by
  refine String.utf8EncodeChar_eq_singleton (Char.utf8Size_eq_one_iff.2 ?_)
  exact UInt32.le_iff_toNat_le.2 (Nat.le_of_lt_succ h)

/-- Characters of ASCII are encoded as one byte each. -/
theorem encodeUtf8_of_ascii (h : ∀ c ∈ cs, c.toNat < 128) :
    encodeUtf8 (String.ofList cs) = cs.map Char.toUInt8 := by
  rw [encodeUtf8_eq, String.toList_ofList]
  induction cs with
  | nil => rfl
  | cons c cs ih =>
    rw [List.forall_mem_cons] at h
    rw [List.flatMap_cons, utf8EncodeChar_of_ascii h.1, ih h.2]
    rfl

/-- Bytes of ASCII stand for the characters that were encoded. -/
theorem map_toChar_encodeUtf8 (h : ∀ c ∈ cs, c.toNat < 128) :
    (encodeUtf8 (String.ofList cs)).map UInt8.toChar = cs := by
  rw [encodeUtf8_of_ascii h, List.map_map]
  exact (List.map_congr_left fun c hc => toChar_toUInt8 (h c hc)).trans (List.map_id' cs)

/-- Characters of ASCII are encoded as the bytes that stand for them. -/
theorem encodeUtf8_map_toChar (h : ∀ c ∈ bytes.map UInt8.toChar, c.toNat < 128) :
    encodeUtf8 (String.ofList (bytes.map UInt8.toChar)) = bytes := by
  rw [encodeUtf8_of_ascii h, List.map_map]
  exact (List.map_congr_left fun b _ => toUInt8_toChar b).trans (List.map_id' bytes)

end Exprc.Text

/-
Numerals without a sign. A run of digits denotes the number that its digits spell in base ten, if that
fits; written back, a number has the same digits, but for the zeros in front.
-/
import Exprc.Text.Numeral
import Mathlib

namespace Exprc.Text

/-- Digits without the zeros in front. -/
def withoutZeros : List Char → List Char
  | '0' :: c :: cs => withoutZeros (c :: cs)
  | cs => cs

/-! ## Digits -/

theorem foldlM_digits {cs : List Char} (h : ∀ c ∈ cs, c.isDigit = true) (n : Nat) :
    cs.foldlM (fun n c => (digit? c).map (10 * n + ·)) n = some (Nat.ofDigitChars 10 cs n) := by
  induction cs generalizing n with
  | nil => rfl
  | cons c cs ih =>
    obtain ⟨hc, hcs⟩ := List.forall_mem_cons.1 h
    rw [List.foldlM_cons, digit?, if_pos hc, Nat.ofDigitChars_cons]
    exact ih hcs _

/-- A run of digits has no sign. -/
theorem int64?_digits {cs : List Char} (hne : cs ≠ []) (h : ∀ c ∈ cs, c.isDigit = true) :
    int64? cs = fit? (Nat.ofDigitChars 10 cs 0) := by
  have hmagnitude : magnitude? cs = some (Nat.ofDigitChars 10 cs 0) := by
    unfold magnitude?
    split
    · contradiction
    · exact foldlM_digits h 0
  have hsigned : signed? cs = some (Nat.ofDigitChars 10 cs 0 : Int) := by
    unfold signed?
    split
    · cases h '-' List.mem_cons_self
    · cases h '+' List.mem_cons_self
    · rw [hmagnitude]
      rfl
  rw [int64?, hsigned]
  rfl

theorem toInt_of_fit? {n : Int} {value : Int64} (h : fit? n = some value) : value.toInt = n := by
  unfold fit? at h
  split at h
  · rename_i hfit
    cases h
    exact Int64.toInt_ofInt_of_le hfit.1 (Int.lt_of_le_of_lt hfit.2 (by decide))
  · cases h

theorem fit?_toInt (value : Int64) : fit? value.toInt = some value := by
  rw [fit?, if_pos ⟨value.minValue_le_toInt, value.toInt_le⟩, Int64.ofInt_toInt]

/-! ## Numbers -/

theorem toList_toString_of_toInt {value : Int64} {n : Nat} (h : value.toInt = n) :
    (toString value).toList = Nat.toDigits 10 n := by
  have htext : toString value = n.repr := by
    show toString value.toInt = _
    rw [h]
    rfl
  rw [htext, Nat.toList_repr]

theorem isDigit_toString {value : Int64} (h : 0 ≤ value.toInt) :
    (toString value).toList ≠ [] ∧ ∀ c ∈ (toString value).toList, c.isDigit = true := by
  rw [toList_toString_of_toInt (Int.toNat_of_nonneg h).symm]
  exact ⟨Nat.toDigits_ne_nil, fun c hc => Nat.isDigit_of_mem_toDigits (by decide) (by decide) hc⟩

/-- A number that is not negative is read back from its digits. -/
theorem int64?_toString {value : Int64} (h : 0 ≤ value.toInt) :
    int64? (toString value).toList = some value := by
  obtain ⟨hne, hdigits⟩ := isDigit_toString h
  rw [int64?_digits hne hdigits, toList_toString_of_toInt (Int.toNat_of_nonneg h).symm,
    Nat.ofDigitChars_ten_toDigits, Int.toNat_of_nonneg h, fit?_toInt]

/-- The value of a digit, and the digit with that value. -/
theorem digitChar_of_isDigit {c : Char} (h : c.isDigit = true) :
    c.toNat - '0'.toNat < 10 ∧ (c.toNat - '0'.toNat).digitChar = c := by
  have hrange : '0'.toNat ≤ c.toNat ∧ c.toNat ≤ '9'.toNat := by
    simpa [Char.isDigit, UInt32.le_iff_toNat_le] using h
  have hlow : '0'.toNat = 48 := rfl
  have hhigh : '9'.toNat = 57 := rfl
  have hlt : c.toNat - '0'.toNat < 10 := by omega
  refine ⟨hlt, Char.toNat_inj.1 ?_⟩
  rw [Nat.toNat_digitChar_of_lt_ten hlt]
  omega

/-- Digits behind a number that is not zero are its last digits. -/
theorem toDigits_ofDigitChars {cs : List Char} (h : ∀ c ∈ cs, c.isDigit = true) {n : Nat} (hn : 0 < n) :
    Nat.toDigits 10 (Nat.ofDigitChars 10 cs n) = Nat.toDigits 10 n ++ cs := by
  induction cs generalizing n with
  | nil => rw [Nat.ofDigitChars_nil, List.append_nil]
  | cons c cs ih =>
    obtain ⟨hc, hcs⟩ := List.forall_mem_cons.1 h
    obtain ⟨hlt, hchar⟩ := digitChar_of_isDigit hc
    rw [Nat.ofDigitChars_cons, ih hcs (by omega), ← Nat.toDigits_append_toDigits (by decide) hn hlt,
      Nat.toDigits_of_lt_base hlt, hchar, List.append_assoc, List.singleton_append]

theorem withoutZeros_eq_toDigits {cs : List Char} (hne : cs ≠ []) (h : ∀ c ∈ cs, c.isDigit = true) :
    withoutZeros cs = Nat.toDigits 10 (Nat.ofDigitChars 10 cs 0) := by
  fun_induction withoutZeros cs with
  | case1 c cs ih =>
    rw [ih (List.cons_ne_nil _ _) (List.forall_mem_cons.1 h).2, Nat.ofDigitChars_cons]
    rfl
  | case2 cs hzero =>
    obtain ⟨c, cs, rfl⟩ := List.exists_cons_of_ne_nil hne
    obtain ⟨hc, hcs⟩ := List.forall_mem_cons.1 h
    obtain ⟨hlt, hchar⟩ := digitChar_of_isDigit hc
    rw [Nat.ofDigitChars_cons, Nat.mul_zero, Nat.zero_add]
    -- A zero stands alone; any other first digit begins the number.
    obtain hn | hn := Nat.eq_zero_or_pos (c.toNat - '0'.toNat)
    · rw [hn] at hchar
      subst hchar
      cases cs with
      | nil => rfl
      | cons c cs => exact absurd rfl (hzero c cs)
    · rw [toDigits_ofDigitChars hcs hn, Nat.toDigits_of_lt_base hlt, hchar, List.singleton_append]

/-- Written back, a number has the digits that it was read from, but for the zeros in front. -/
theorem toString_of_int64? {cs : List Char} {value : Int64} (hne : cs ≠ [])
    (h : ∀ c ∈ cs, c.isDigit = true) (hvalue : int64? cs = some value) :
    (toString value).toList = withoutZeros cs := by
  rw [int64?_digits hne h] at hvalue
  rw [toList_toString_of_toInt (toInt_of_fit? hvalue), withoutZeros_eq_toDigits hne h]

end Exprc.Text

/-
Lines that hold an integer: a numeral with blanks before and behind it. What counts as a blank is left open, and
so is whether the integer fits into 64 bits. A run reads an integer from a line if and only if the line holds
one that fits, between any blanks at all.
-/
import Exprc.IR.World
import Exprc.Proofs.Text.Numeral
import Exprc.Proofs.Text.Utf8

namespace Exprc.IR

open Text

variable {before middle after cs numeral digits : List Char} {n : Int}

/-! ## Blanks -/

theorem dropWhile_isBlank (h : ∀ c ∈ cs, isBlank c = false) : cs.dropWhile isBlank = cs := by
  cases cs with
  | nil => rfl
  | cons c cs => exact List.dropWhile_cons_of_neg (by rw [h c List.mem_cons_self]; decide)

/-- A text between blanks is what is left without them. -/
theorem trim_append (hbefore : ∀ c ∈ before, isBlank c = true) (hafter : ∀ c ∈ after, isBlank c = true)
    (hne : middle ≠ []) (hmiddle : ∀ c ∈ middle, isBlank c = false) : trim (before ++ middle ++ after) = middle := by
  have hfirst : (before ++ middle ++ after).dropWhile isBlank = middle ++ after := by
    rw [List.append_assoc, List.dropWhile_append_of_pos hbefore]
    obtain ⟨c, middle, rfl⟩ := List.exists_cons_of_ne_nil hne
    exact List.dropWhile_cons_of_neg (by rw [hmiddle c List.mem_cons_self]; decide)
  have hlast : (middle ++ after).reverse.dropWhile isBlank = middle.reverse := by
    rw [List.reverse_append, List.dropWhile_append_of_pos fun c hc => hafter c (List.mem_reverse.1 hc)]
    exact dropWhile_isBlank fun c hc => hmiddle c (List.mem_reverse.1 hc)
  rw [trim, trimEnd, hfirst, hlast, List.reverse_reverse]

/-- Only blanks are taken away. -/
theorem exists_eq_trim (cs : List Char) :
    ∃ before after, cs = before ++ trim cs ++ after ∧ (∀ c ∈ before, isBlank c = true) ∧
      ∀ c ∈ after, isBlank c = true := by
  let rest := cs.dropWhile isBlank
  refine ⟨cs.takeWhile isBlank, (rest.reverse.takeWhile isBlank).reverse, ?_,
    fun c hc => List.mem_takeWhile_imp hc, fun c hc => List.mem_takeWhile_imp (List.mem_reverse.1 hc)⟩
  have hrest : trim cs ++ (rest.reverse.takeWhile isBlank).reverse = rest := by
    rw [trim, trimEnd, ← List.reverse_append, List.takeWhile_append_dropWhile, List.reverse_reverse]
  rw [List.append_assoc, hrest, List.takeWhile_append_dropWhile]

/-! ## Numerals -/

/-- The characters that may stand before the digits. -/
def isSign (c : Char) : Bool := c = '-' || c = '+'

theorem isSign_iff {c : Char} : isSign c = true ↔ c = '-' ∨ c = '+' := by
  simp only [isSign, Bool.or_eq_true, decide_eq_true_eq]

/-- The number that digits behind a sign stand for. -/
def numberOf (sign : Option Char) (digits : List Char) : Int :=
  if sign = some '-' then -(Nat.ofDigitChars 10 digits 0 : Int) else Nat.ofDigitChars 10 digits 0

/-- What is folded as digits is made of digits. -/
theorem isDigit_of_foldlM {m k : Nat} (h : cs.foldlM (fun n c => (digit? c).map (10 * n + ·)) m = some k) :
    ∀ c ∈ cs, c.isDigit = true := by
  induction cs generalizing m with
  | nil => exact fun _ hc => absurd hc List.not_mem_nil
  | cons c cs ih =>
    rw [List.foldlM_cons] at h
    obtain ⟨next, hnext, hrest⟩ := Option.bind_eq_some_iff.1 h
    refine List.forall_mem_cons.2 ⟨?_, ih hrest⟩
    by_contra hc
    rw [digit?, if_neg hc] at hnext
    cases hnext

theorem magnitude?_eq_some {m : Nat} :
    magnitude? digits = some m ↔ digits ≠ [] ∧ (∀ c ∈ digits, c.isDigit = true) ∧ Nat.ofDigitChars 10 digits 0 = m := by
  cases digits with
  | nil => exact ⟨nofun, fun h => absurd rfl h.1⟩
  | cons c cs =>
    rw [magnitude?]
    constructor
    · intro h
      have hdigits := isDigit_of_foldlM h
      rw [foldlM_digits hdigits] at h
      exact ⟨List.cons_ne_nil c cs, hdigits, Option.some.inj h⟩
    · rintro ⟨-, hdigits, rfl⟩
      exact foldlM_digits hdigits 0
    · exact List.cons_ne_nil c cs

/-- A numeral is a run of digits, perhaps behind a sign. -/
theorem signed?_eq_some :
    signed? numeral = some n ↔ ∃ (sign : Option Char) (digits : List Char), numeral = sign.toList ++ digits ∧
      (∀ c ∈ sign, isSign c = true) ∧ digits ≠ [] ∧ (∀ c ∈ digits, c.isDigit = true) ∧ numberOf sign digits = n := by
  constructor
  · intro h
    unfold signed? at h
    split at h <;> obtain ⟨_, hvalue, rfl⟩ := Option.map_eq_some_iff.1 h <;>
      obtain ⟨m, hm, ⟨⟩⟩ := Option.bind_eq_some_iff.1 hvalue <;>
      obtain ⟨hne, hdigits, rfl⟩ := magnitude?_eq_some.1 hm
    · exact ⟨some '-', _, rfl, by rintro _ ⟨⟩; rfl, hne, hdigits, rfl⟩
    · exact ⟨some '+', _, rfl, by rintro _ ⟨⟩; rfl, hne, hdigits, rfl⟩
    · exact ⟨none, _, rfl, nofun, hne, hdigits, rfl⟩
  · rintro ⟨sign, digits, rfl, hsign, hne, hdigits, rfl⟩
    have hm := magnitude?_eq_some.2 ⟨hne, hdigits, rfl⟩
    cases sign with
    | some c =>
      rcases isSign_iff.1 (hsign c rfl) with rfl | rfl <;>
        · rw [Option.toList_some, List.singleton_append, signed?, hm]
          rfl
    | none =>
      show signed? digits = _
      unfold signed?
      split
      · cases hdigits '-' List.mem_cons_self
      · cases hdigits '+' List.mem_cons_self
      · rw [hm]
        rfl

/-- No character of a numeral is blank. -/
theorem isBlank_of_signed? (h : signed? numeral = some n) : numeral ≠ [] ∧ ∀ c ∈ numeral, isBlank c = false := by
  obtain ⟨sign, digits, rfl, hsign, hne, hdigits, -⟩ := signed?_eq_some.1 h
  refine ⟨List.append_ne_nil_of_right_ne_nil _ hne, List.forall_mem_append.2 ⟨fun c hc => ?_, fun c hc => ?_⟩⟩
  · rcases isSign_iff.1 (hsign c (Option.mem_toList.1 hc)) with rfl | rfl <;> decide
  · by_contra hblank
    rw [Bool.not_eq_false, isBlank, List.contains_iff_mem] at hblank
    have hnone : ∀ c ∈ blanks, c.isDigit = false := by simp [blanks]
    exact absurd ((hnone c hblank).symm.trans (hdigits c hc)) (by decide)

/-! ## Lines -/

/-- A line holds an integer between characters of a class. -/
def HoldsInteger (blank : Char → Bool) (line : List UInt8) (n : Int) : Prop :=
  ∃ before numeral after, line = encodeUtf8 (String.ofList (before ++ numeral ++ after)) ∧
    (∀ c ∈ before, blank c = true) ∧ (∀ c ∈ after, blank c = true) ∧ signed? numeral = some n

/-- The blanks of a line, if it is a text, are all of a class. -/
def BlanksAre (blank : Char → Bool) (line : List UInt8) : Prop :=
  ∀ text, decodeUtf8? line = some text → ∀ c ∈ text.toList, isBlank c = true → blank c = true

section

variable {blank blank' : Char → Bool} {line : List UInt8} {value : Int64}

theorem HoldsInteger.mono (h : HoldsInteger blank line n) (hblank : ∀ c, blank c = true → blank' c = true) :
    HoldsInteger blank' line n := by
  obtain ⟨before, numeral, after, hline, hbefore, hafter, hn⟩ := h
  exact ⟨before, numeral, after, hline, fun c hc => hblank c (hbefore c hc), fun c hc => hblank c (hafter c hc), hn⟩

/-- Between blanks of a class there are only blanks of that class. -/
theorem HoldsInteger.blanksAre (h : HoldsInteger blank line n) : BlanksAre blank line := by
  obtain ⟨before, numeral, after, rfl, hbefore, hafter, hn⟩ := h
  intro text htext c hc hblank
  rw [decodeUtf8?_eq_some.2 rfl] at htext
  obtain rfl := Option.some.inj htext
  rw [String.toList_ofList, List.mem_append, List.mem_append] at hc
  rcases hc with (hc | hc) | hc
  · exact hbefore c hc
  · exact absurd (((isBlank_of_signed? hn).2 c hc).symm.trans hblank) (by decide)
  · exact hafter c hc

theorem HoldsInteger.of_blanksAre (h : HoldsInteger isBlank line n) (hblanks : BlanksAre blank line) :
    HoldsInteger blank line n := by
  obtain ⟨before, numeral, after, rfl, hbefore, hafter, hn⟩ := h
  have hall : ∀ c ∈ before ++ numeral ++ after, isBlank c = true → blank c = true := by
    have htext := hblanks _ (decodeUtf8?_eq_some.2 rfl)
    rwa [String.toList_ofList] at htext
  refine ⟨before, numeral, after, rfl, fun c hc => ?_, fun c hc => ?_, hn⟩
  · exact hall c (by simp [hc]) (hbefore c hc)
  · exact hall c (by simp [hc]) (hafter c hc)

/-- A run reads the integers that fit from lines that hold one, and no other. -/
theorem integerOfLine_eq_ok :
    integerOfLine line = .ok value ↔ ∃ n, HoldsInteger isBlank line n ∧ fit? n = some value := by
  constructor
  · intro h
    unfold integerOfLine at h
    split at h
    · cases h
    split at h
    · cases h
    rename_i text htext
    obtain ⟨before, after, hparts, hbefore, hafter⟩ := exists_eq_trim text.toList
    cases hvalue : int64? (trim text.toList) with
    | none => simp only [hvalue] at h; cases h
    | some value' =>
      simp only [hvalue] at h
      cases h
      obtain ⟨n, hn, hfit⟩ := Option.bind_eq_some_iff.1 hvalue
      refine ⟨n, ⟨before, _, after, ?_, hbefore, hafter, hn⟩, hfit⟩
      rw [← hparts, String.ofList_toList]
      exact decodeUtf8?_eq_some.1 htext
  · rintro ⟨n, ⟨before, numeral, after, rfl, hbefore, hafter, hn⟩, hfit⟩
    obtain ⟨hne, hnumeral⟩ := isBlank_of_signed? hn
    have hdecode := decodeUtf8?_eq_some.2 (rfl : encodeUtf8 (String.ofList (before ++ numeral ++ after)) = _)
    have hempty : (encodeUtf8 (String.ofList (before ++ numeral ++ after))).isEmpty = false := by
      rw [List.isEmpty_eq_false_iff, ne_eq, encodeUtf8_eq_nil_iff, ← String.toList_eq_nil_iff, String.toList_ofList]
      exact fun hnil => hne (List.append_eq_nil_iff.1 (List.append_eq_nil_iff.1 hnil).1).2
    have hvalue : int64? (trim (before ++ numeral ++ after)) = some value := by
      rw [trim_append hbefore hafter hne hnumeral, int64?, hn]
      exact hfit
    simp only [integerOfLine, hempty, hdecode, String.toList_ofList, hvalue]
    rfl

end

end Exprc.IR

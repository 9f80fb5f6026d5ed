/-
What stands in the text of an instruction: a word, and in parentheses the operands with commas between them.
Operands have none of the characters that the text puts around them (`IsField`), if variables that hold values are
not named, as in modules that were lowered (`Module.Legible`); then a terminal shows the text as it is.
-/
import Exprc.IR.Text
import Exprc.Proofs.IR.WellFormed
import Exprc.Proofs.Text.Shown
import Exprc.Syntax.Lexer

namespace Exprc.IR

open Syntax Text

/-! ## Fields -/

/-- Whether a character may stand in an operand: a letter, a digit, an underscore, or part of an operator. -/
def isFieldChar (c : Char) : Bool := isWordPart c || "+-*/%<>=!".toList.contains c

/-- A text of an operand. -/
abbrev IsField (text : String) : Prop := MadeOf isFieldChar text

theorem isPrinted_of_isWordPart {c : Char} (h : isWordPart c = true) : isPrinted c = true := by
  have hrange : 0x20 ≤ c.toNat ∧ c.toNat ≤ 0x7e := by
    simp only [isWordPart, Char.isAlphanum, Char.isAlpha, Char.isUpper, Char.isLower, Char.isDigit,
      Bool.or_eq_true, Bool.and_eq_true, decide_eq_true_eq, beq_iff_eq] at h
    rcases h with ((⟨hlow, hhigh⟩ | ⟨hlow, hhigh⟩) | ⟨hlow, hhigh⟩) | rfl
    · exact ⟨Nat.le_trans (by decide) hlow, Nat.le_trans hhigh (by decide)⟩
    · exact ⟨Nat.le_trans (by decide) hlow, Nat.le_trans hhigh (by decide)⟩
    · exact ⟨Nat.le_trans (by decide) hlow, Nat.le_trans hhigh (by decide)⟩
    · decide
  simpa only [isPrinted, within, Bool.and_eq_true, decide_eq_true_eq] using hrange

theorem isPrinted_of_isFieldChar (c : Char) (h : isFieldChar c = true) : isPrinted c = true := by
  rcases Bool.or_eq_true _ _ ▸ h with hword | hoperator
  · exact isPrinted_of_isWordPart hword
  · have hall : "+-*/%<>=!".toList.all isPrinted = true := by decide
    exact List.all_eq_true.1 hall c (List.contains_iff_mem.1 hoperator)

theorem IsField.printed {text : String} (h : IsField text) : MadeOf isPrinted text :=
  h.mono isPrinted_of_isFieldChar

theorem isFieldChar_of_isWordPart {c : Char} (h : isWordPart c = true) : isFieldChar c = true := by
  rw [isFieldChar, h, Bool.true_or]

theorem isFieldChar_toDigits (n : Nat) : ∀ c ∈ Nat.toDigits 10 n, isFieldChar c = true := by
  intro c hc
  have hdigit := Nat.isDigit_of_mem_toDigits (by decide) (by decide) hc
  exact isFieldChar_of_isWordPart (by rw [isWordPart, Char.isAlphanum, hdigit, Bool.or_true, Bool.true_or])

theorem isField_toString (n : Int) : IsField (toString n) := by
  have htext : toString n = n.repr := rfl
  intro c hc
  rw [htext] at hc
  cases n with
  | ofNat n =>
    rw [Int.repr, Nat.toList_repr] at hc
    exact isFieldChar_toDigits n c hc
  | negSucc n =>
    rw [Int.repr, String.toList_append, Nat.toList_repr] at hc
    rcases List.mem_append.1 hc with hc | hc
    · obtain rfl : c = '-' := List.mem_singleton.1 hc
      rfl
    · exact isFieldChar_toDigits _ c hc

theorem isField_int (value : Int64) : IsField (toString value) := isField_toString value.toInt

theorem isField_bool (value : Bool) : IsField (toString value) := by
  apply MadeOf.of_all
  cases value <;> decide

theorem toList_text_temp (n : Nat) : (Var.temp n).text.toList = 'x' :: Nat.toDigits 10 n := by
  simp [Var.text]

theorem isField_var {v : Var} (h : v.isNamed = false) : IsField v.text := by
  cases v with
  | temp n =>
    intro c hc
    rw [toList_text_temp, List.mem_cons] at hc
    rcases hc with rfl | hc
    · rfl
    · exact isFieldChar_toDigits n c hc
  | named x => cases h
  | unit =>
    exact MadeOf.of_all (by decide)

theorem toList_text_label (l : Label) : l.text.toList = 'L' :: Nat.toDigits 10 l.number := by
  simp [Label.text]

theorem isField_label (l : Label) : IsField l.text := by
  intro c hc
  rw [toList_text_label, List.mem_cons] at hc
  rcases hc with rfl | hc
  · rfl
  · exact isFieldChar_toDigits l.number c hc

theorem toDigits_inj {n n' : Nat} (h : Nat.toDigits 10 n = Nat.toDigits 10 n') : n = n' := by
  have hvalue := congrArg (Nat.ofDigitChars 10 · 0) h
  simpa only [Nat.ofDigitChars_ten_toDigits] using hvalue

theorem label_inj {l l' : Label} (h : l.text = l'.text) : l = l' := by
  have hdigits := congrArg String.toList h
  rw [toList_text_label, toList_text_label] at hdigits
  exact congrArg Label.mk (toDigits_inj (List.tail_eq_of_cons_eq hdigits))

theorem isField_builtin (b : Builtin) : IsField b.name := by
  apply MadeOf.of_all
  cases b <;> decide

/-! ## Legible modules -/

/-- Whether an instruction works on unnamed variables, and what it calls has a name that is a field. -/
structure Op.Legible (op : Op) : Prop where
  values : ∀ v ∈ op.reads ++ op.writes, v.isNamed = false
  callee : ∀ callee arguments target, op = .call callee arguments target → ∃ x, callee = .named x ∧ IsField x

/-- Whether the text of a function shows what it is made of. -/
structure Function.Legible (f : Function) : Prop where
  name : IsField f.name
  parameters : ∀ v ∈ f.parameters, v.isNamed = false
  code : ∀ i ∈ f.code, i.op.Legible

/-- Whether the text of a module shows what it is made of. -/
def Module.Legible (m : Module) : Prop := ∀ f ∈ m.functions, f.Legible

/-! ## Shown text -/

theorem printed_variableList {vs : List Var} (h : ∀ v ∈ vs, v.isNamed = false) :
    MadeOf isPrinted (variableList vs) := by
  refine MadeOf.intercalate (.of_all (by decide)) fun t ht => ?_
  obtain ⟨v, hv, rfl⟩ := List.mem_map.1 ht
  exact (isField_var (h v hv)).printed

theorem Op.Legible.printed {op : Op} (h : op.Legible) : op.styled.MadeOf isPrinted := by
  have value : ∀ {v : Var}, v ∈ op.reads ++ op.writes → MadeOf isPrinted v.text :=
    fun hv => (isField_var (h.values _ hv)).printed
  have literal : ∀ {text : String}, text.toList.all isPrinted = true → MadeOf isPrinted text := MadeOf.of_all
  cases op with
  | loadInt n target =>
    refine .cons (literal rfl) (.cons (literal rfl) (.cons (isField_int n).printed (.cons ?_ .nil)))
    exact ((literal rfl).append (value (by simp [writes]))).append (literal rfl)
  | loadBool b target =>
    refine .cons (literal rfl) (.cons (literal rfl) (.cons (isField_bool b).printed (.cons ?_ .nil)))
    exact ((literal rfl).append (value (by simp [writes]))).append (literal rfl)
  | copy source target =>
    have hsource := value (v := source) (by simp [reads])
    have htarget := value (v := target) (by simp [writes])
    refine .cons (literal rfl) (.cons ?_ .nil)
    exact ((((literal rfl).append hsource).append (literal rfl)).append htarget).append (literal rfl)
  | call callee arguments target =>
    obtain ⟨x, rfl, hx⟩ := h.callee _ _ _ rfl
    have harguments : MadeOf isPrinted (variableList arguments) :=
      printed_variableList fun v hv => h.values v (by simp [reads, hv])
    have htarget := value (v := target) (by simp [writes])
    refine .cons (literal rfl) (.cons (literal rfl) (.cons hx.printed (.cons ?_ .nil)))
    exact ((((literal rfl).append harguments).append (literal rfl)).append htarget).append (literal rfl)
  | label l =>
    exact .cons (literal rfl) (.cons (literal rfl) (.cons (isField_label l).printed (.cons (literal rfl) .nil)))
  | jump l =>
    exact .cons (literal rfl) (.cons (literal rfl) (.cons (isField_label l).printed (.cons (literal rfl) .nil)))
  | branch condition ifTrue ifFalse =>
    refine .cons (literal rfl) (.cons ?_ (.cons (isField_label ifTrue).printed (.cons (literal rfl)
      (.cons (isField_label ifFalse).printed (.cons (literal rfl) .nil)))))
    exact ((literal rfl).append (value (by simp [reads]))).append (literal rfl)
  | leave v =>
    refine .cons (literal rfl) (.cons ?_ .nil)
    exact ((literal rfl).append (value (by simp [reads]))).append (literal rfl)

/-- What a terminal shows of an instruction, with colours or without, is its text. -/
theorem Op.Legible.shown_eq {op : Op} (h : op.Legible) (colours : Bool) : op.shown colours = op.text :=
  withoutControls_render (h.printed.mono isShown_of_isPrinted) colours

/-- The text of an instruction is one line. -/
theorem Op.Legible.newline_notMem {op : Op} (h : op.Legible) : '\n' ∉ op.text.toList :=
  fun hmem => Bool.false_ne_true (h.printed.plain _ hmem)

theorem Function.Legible.shown {f : Function} (h : f.Legible) : f.styled.MadeOf isShown := by
  have printed : ∀ {text : String}, MadeOf isPrinted text → MadeOf isShown text :=
    fun h => h.mono isShown_of_isPrinted
  have literal : ∀ {text : String}, text.toList.all isShown = true → MadeOf isShown text := MadeOf.of_all
  refine Styled.MadeOf.append ?_ fun piece hpiece => ?_
  · refine .cons (literal rfl) (.cons (literal rfl) (.cons (printed h.name.printed) (.cons (literal rfl) ?_)))
    exact .cons (printed (printed_variableList h.parameters)) (.cons (literal rfl) (.cons (literal rfl) .nil))
  · obtain ⟨i, hi, hpiece⟩ := List.mem_flatMap.1 hpiece
    have hop := (h.code i hi).printed.mono isShown_of_isPrinted
    have hline : Styled.MadeOf isShown (raw "    " :: (i.op.styled ++ [raw "\n"])) :=
      .cons (literal rfl) (hop.append (.cons (literal rfl) .nil))
    exact hline piece hpiece

theorem Module.Legible.shown {m : Module} (h : m.Legible) : m.styled.MadeOf isShown := by
  refine Styled.MadeOf.join (.of_all rfl) fun s hs => ?_
  obtain ⟨f, hf, rfl⟩ := List.mem_map.1 hs
  exact (h f hf).shown

end Exprc.IR

/-
What a parser takes. To show that a parser reads a written tree back, it is enough to know the words of the
tree and the word behind them (`Takes`): places play no role, and the tokens further ahead do not either,
apart from their number. There is one law for each of the steps that parsers are made of.
-/
import Exprc.Proofs.Syntax.Runs
import Exprc.Proofs.Syntax.Words

namespace Exprc.Syntax

/-! ## Looking at words -/

namespace Word

/-- Whether a word is spelled as given. -/
def is (w : Word) (text : String) : Bool := w.kind != .stop && w.text == text

/-- Whether a word ends a sequence. -/
def closes (enclosure : Enclosure) (w : Word) : Bool :=
  match enclosure with
  | .braces => w.is "\x7d"
  | .text => w.kind == .stop

/-- Whether a word begins the definition of a function where one may stand. -/
def defines (enclosure : Enclosure) (w : Word) : Bool :=
  enclosure == .text && w.kind == .keyword .funWord

end Word

theorem Token.is_word (t : Token) (text : String) : t.word.is text = t.is text := rfl

theorem Enclosure.closedBy_eq (enclosure : Enclosure) (t : Token) :
    enclosure.closedBy t = t.word.closes enclosure := by cases enclosure <;> rfl

theorem Enclosure.defines_eq (enclosure : Enclosure) (t : Token) :
    enclosure.defines t = t.word.defines enclosure := rfl

namespace Parser

variable {α β : Type}

/-! ## Taking words -/

/-- Over tokens that are the words `ws`, with the word `next` behind them and at most `n` tokens ahead, a
parser leaves just these tokens behind and yields something for which `good` holds. -/
def Takes (n : Nat) (p : Parser α) (ws : List Word) (next : Word) (good : α → Prop) : Prop :=
  ∀ behind used ahead : List Token, used.map (·.word) = ws → ahead.head?.map (·.word) = some next →
    (used ++ ahead).length ≤ n →
    Ends p ⟨behind, used ++ ahead⟩ (fun a c' => good a ∧ c' = ⟨used.reverse ++ behind, ahead⟩)
      fun _ => False

namespace Takes

variable {n m : Nat} {w next : Word} {ws ws' : List Word} {good : α → Prop}

theorem ends {p : Parser α} (h : Takes n p ws next good) {behind used ahead : List Token}
    (hused : used.map (·.word) = ws) (hahead : ahead.head?.map (·.word) = some next)
    (hn : (used ++ ahead).length ≤ n) {good' : α → Cursor → Prop} {bad : Fault ParseError → Prop}
    (hgood : ∀ a, good a → good' a ⟨used.reverse ++ behind, ahead⟩) :
    Ends p ⟨behind, used ++ ahead⟩ good' bad := by
  refine (h behind used ahead hused hahead hn).mono ?_ fun _ => False.elim
  rintro a _ ⟨ha, rfl⟩
  exact hgood a ha

theorem mono {p : Parser α} (h : Takes n p ws next good) (hm : m ≤ n) : Takes m p ws next good :=
  fun behind used ahead hused hahead hn => h behind used ahead hused hahead (Nat.le_trans hn hm)

theorem imp {p : Parser α} {good' : α → Prop} (h : Takes n p ws next good)
    (hgood : ∀ a, good a → good' a) : Takes n p ws next good' :=
  fun _ _ _ hused hahead hn => h.ends hused hahead hn fun a ha => ⟨hgood a ha, rfl⟩

/-- There is always a token ahead. -/
theorem zero {p : Parser α} : Takes 0 p ws next good := by
  intro behind used ahead hused hahead hn
  rw [List.length_eq_zero_iff.1 (Nat.le_zero.1 hn) |> List.append_eq_nil_iff.1 |>.2] at hahead
  cases hahead

theorem pure {a : α} (h : good a) : Takes n (Pure.pure a) [] next good := by
  intro behind used ahead hused hahead hn
  obtain rfl := List.map_eq_nil_iff.1 hused
  exact ⟨h, rfl⟩

/-- The word behind the words that are taken first is the first one of the others, or `next`. -/
theorem bind {p : Parser β} {f : β → Parser α} {g : β → Prop}
    (h : Takes n p ws (ws'.headD next) g)
    (hf : ∀ b, g b → Takes (n - ws.length) (f b) ws' next good) :
    Takes n (p >>= f) (ws ++ ws') next good := by
  intro behind used ahead hused hahead hn
  obtain ⟨used, used', rfl, hused, hused'⟩ := List.map_eq_append_iff.1 hused
  have hnext : (used' ++ ahead).head?.map (·.word) = some (ws'.headD next) := by
    cases used' with
    | nil => rw [← hused']; exact hahead
    | cons t used' => rw [← hused']; rfl
  have hlength : used.length = ws.length := by rw [← hused, List.length_map]
  rw [List.append_assoc] at hn ⊢
  refine .bind (h.ends hused hnext hn fun b hb => ?_)
  refine (hf b hb).ends hused' hahead ?_ fun a ha => ⟨ha, by simp⟩
  rw [List.length_append] at hn
  omega

/-- A step that takes nothing. -/
theorem bind_nil {p : Parser β} {f : β → Parser α} {g : β → Prop} (h : Takes n p [] (ws.headD next) g)
    (hf : ∀ b, g b → Takes n (f b) ws next good) : Takes n (p >>= f) ws next good := bind h hf

/-- A last step behind one that takes all. -/
theorem bind_last {p : Parser β} {f : β → Parser α} {g : β → Prop} (h : Takes n p ws next g)
    (hf : ∀ b, g b → Takes (n - ws.length) (f b) [] next good) : Takes n (p >>= f) ws next good := by
  rw [← List.append_nil ws]
  exact bind h hf

/-! ### Steps -/

theorem peek_eq (behind : List Token) {used ahead : List Token} (hused : used.map (·.word) = ws)
    (hahead : ahead.head?.map (·.word) = some next) :
    (Cursor.peek ⟨behind, used ++ ahead⟩).word = ws.headD next := by
  cases used with
  | cons t used => rw [← hused]; rfl
  | nil =>
    obtain ⟨t, ht, hnext⟩ := Option.map_eq_some_iff.1 hahead
    obtain ⟨ahead, rfl⟩ := List.head?_eq_some_iff.1 ht
    rw [← hused]
    exact hnext

theorem peek {f : Token → Parser α} (h : ∀ t, t.word = ws.headD next → Takes n (f t) ws next good) :
    Takes n (Parser.peek >>= f) ws next good :=
  fun behind used ahead hused hahead hn =>
    .bind (.peek (h _ (peek_eq behind hused hahead) behind used ahead hused hahead hn))

/-- A run behind the first word. -/
theorem behind {f : Token → Parser α} (h : ∀ t, t.word = w → Takes (n - 1) (f t) ws next good)
    {behind used ahead : List Token} (hused : used.map (·.word) = w :: ws)
    (hahead : ahead.head?.map (·.word) = some next) (hn : (used ++ ahead).length ≤ n) :
    Ends (f (Cursor.peek ⟨behind, used ++ ahead⟩)) (Cursor.advance ⟨behind, used ++ ahead⟩)
      (fun a c' => good a ∧ c' = ⟨used.reverse ++ behind, ahead⟩) fun _ => False := by
  obtain ⟨t, used, rfl, ht, hused⟩ := List.map_eq_cons_iff.1 hused
  refine (h t ht).ends hused hahead ?_ fun a ha => ⟨ha, by simp⟩
  simp only [List.cons_append, List.length_cons] at hn
  omega

theorem take {f : Token → Parser α} (h : ∀ t, t.word = w → Takes (n - 1) (f t) ws next good) :
    Takes n (Parser.take >>= f) (w :: ws) next good :=
  fun _ _ _ hused hahead hn => .bind (.take (behind h hused hahead hn))

theorem take? {text : String} {f : Option Token → Parser α} (hw : w.is text = true)
    (h : ∀ t, t.word = w → Takes (n - 1) (f (some t)) ws next good) :
    Takes n (Parser.take? text >>= f) (w :: ws) next good := by
  intro behind used ahead hused hahead hn
  refine .bind (.take? (fun _ => Takes.behind (f := fun t => f (some t)) h hused hahead hn) fun hno => ?_)
  rw [← Token.is_word, peek_eq behind hused hahead, List.headD_cons, hw] at hno
  cases hno

theorem take?_none {text : String} {f : Option Token → Parser α} (hw : (ws.headD next).is text = false)
    (h : Takes n (f none) ws next good) : Takes n (Parser.take? text >>= f) ws next good := by
  intro behind used ahead hused hahead hn
  refine .bind (.take? (fun hyes => ?_) fun _ => h behind used ahead hused hahead hn)
  rw [← Token.is_word, peek_eq behind hused hahead, hw] at hyes
  cases hyes

theorem expect {text : String} {f : Token → Parser α} (hw : w.is text = true)
    (h : ∀ t, t.word = w → Takes (n - 1) (f t) ws next good) :
    Takes n (Parser.expect text >>= f) (w :: ws) next good := by
  intro behind used ahead hused hahead hn
  refine .bind (.expect (fun _ => Takes.behind h hused hahead hn) fun hno => ?_)
  rw [← Token.is_word, peek_eq behind hused hahead, List.headD_cons, hw] at hno
  cases hno

theorem expectKeyword {word : Keyword} {f : Token → Parser α}
    (h : ∀ t, t.word = .keyword word → Takes (n - 1) (f t) ws next good) :
    Takes n (Parser.expectKeyword word >>= f) (.keyword word :: ws) next good := by
  intro behind used ahead hused hahead hn
  refine .bind (.expectKeyword (fun _ => Takes.behind h hused hahead hn) fun hno => ?_)
  have hword := congrArg Word.kind (peek_eq behind hused hahead)
  have hkind : (Cursor.peek ⟨behind, used ++ ahead⟩).kind = .keyword word := hword
  rw [Token.isKeyword, hkind, beq_self_eq_true] at hno
  cases hno

theorem identifier {x : String} {f : Name → Parser α}
    (h : ∀ name : Name, name.text = x → Takes (n - 1) (f name) ws next good) :
    Takes n (Parser.identifier >>= f) (.name x :: ws) next good := by
  intro behind used ahead hused hahead hn
  have hword := peek_eq behind hused hahead
  refine .bind (.identifier (fun _ => ?_) fun hno => hno (congrArg Word.kind hword))
  exact Takes.behind (w := .name x) (f := fun t => f ⟨t.location, t.text⟩)
    (fun t ht => h ⟨t.location, t.text⟩ (congrArg Word.text ht)) hused hahead hn

theorem ofText?_text (name : TypeName) : TypeName.ofText? name.text = some name := by
  cases name <;> decide

theorem writtenType {name : TypeName} {f : WrittenType → Parser α}
    (h : ∀ written : WrittenType, written.name = name → Takes (n - 1) (f written) ws next good) :
    Takes n (Parser.writtenType >>= f) (name.word :: ws) next good := by
  intro behind used ahead hused hahead hn
  have hword := peek_eq behind hused hahead
  have htext : TypeName.ofText? (Cursor.peek ⟨behind, used ++ ahead⟩).text = some name := by
    rw [← ofText?_text name]
    exact congrArg (fun w : Word => TypeName.ofText? w.text) hword
  refine .bind (.writtenType (fun _ name' hname' => ?_) (fun _ hnone => ?_) fun hno => ?_)
  · obtain rfl : name = name' := Option.some.inj (htext.symm.trans hname')
    exact Takes.behind (f := fun t => f ⟨t.location, name⟩) (fun t _ => h ⟨t.location, name⟩ rfl)
      hused hahead hn
  · rw [hnone] at htext
    cases htext
  · exact hno (congrArg Word.kind hword)

theorem atClosing {enclosure : Enclosure} {f : Bool → Parser α}
    (h : Takes n (f ((ws.headD next).closes enclosure)) ws next good) :
    Takes n (Parser.atClosing enclosure >>= f) ws next good := by
  intro behind used ahead hused hahead hn
  refine .bind (.atClosing ?_)
  rw [enclosure.closedBy_eq, peek_eq behind hused hahead]
  exact h behind used ahead hused hahead hn

theorem atDefinition {enclosure : Enclosure} {f : Bool → Parser α}
    (h : Takes n (f ((ws.headD next).defines enclosure)) ws next good) :
    Takes n (Parser.atDefinition enclosure >>= f) ws next good := by
  intro behind used ahead hused hahead hn
  refine .bind (.atDefinition ?_)
  rw [enclosure.defines_eq, peek_eq behind hused hahead]
  exact h behind used ahead hused hahead hn

/-- A semicolon behind a statement that is no return. -/
theorem semicolon {enclosure : Enclosure} {f : Option Location → Parser α}
    (h : ∀ l, Takes (n - 1) (f (some l)) ws next good) :
    Takes n (Parser.statementEnd enclosure false >>= f) (.punctuation ";" :: ws) next good := by
  intro behind used ahead hused hahead hn
  have hword := peek_eq behind hused hahead
  have hsemicolon : (Cursor.peek ⟨behind, used ++ ahead⟩).is ";" = true := by
    rw [← Token.is_word, hword]
    rfl
  refine .bind (.statementEnd (fun _ => ?_) (fun hno => ?_) fun hno => ?_)
  · exact Takes.behind (f := fun t => f (some t.location)) (fun t _ => h t.location) hused hahead hn
  · rw [hsemicolon] at hno; cases hno
  · rw [hsemicolon] at hno; cases hno

/-- The end of a sequence behind a statement. -/
theorem lastStatement {enclosure : Enclosure} {isReturn : Bool} {f : Option Location → Parser α}
    (hnext : next.is ";" = false) (hclosing : next.closes enclosure = true)
    (h : Takes n (f none) [] next good) :
    Takes n (Parser.statementEnd enclosure isReturn >>= f) [] next good := by
  intro behind used ahead hused hahead hn
  have hword := peek_eq behind hused hahead
  have hclosed : enclosure.closedBy (Cursor.peek ⟨behind, used ++ ahead⟩) = true := by
    rw [enclosure.closedBy_eq, hword]
    exact hclosing
  have hrun := h behind used ahead hused hahead hn
  refine .bind (.statementEnd (fun hs => ?_) (fun _ _ => ?_) fun _ hno => ?_)
  · rw [← Token.is_word, hword, List.headD_nil, hnext] at hs
    cases hs
  · rw [hclosed, if_pos rfl]
    split <;> exact hrun
  · rw [hclosed] at hno
    cases hno

end Takes

end Parser

end Exprc.Syntax

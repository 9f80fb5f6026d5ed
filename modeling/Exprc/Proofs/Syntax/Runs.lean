/-
How a parser runs. A run that begins at a cursor ends with a result at another cursor, or with a fault.
What is to be shown of either end is carried backwards through a parser, from its last step to its
first (`Ends`): there is one law for each of the steps that parsers are made of, and the laws for the
steps that look at the next token say what is known of it behind them.
-/
import Exprc.Syntax.Parser
import Mathlib

namespace Exprc.Syntax

/-! ## Cursors -/

namespace Cursor

/-- Behind the last token there is only the stop token. -/
theorem exists_cons {c : Cursor} (h : c.peek.isStop = false) :
    ∃ behind t ahead, c = ⟨behind, t :: ahead⟩ := by
  obtain ⟨behind, _ | ⟨t, ahead⟩⟩ := c
  · cases behind <;> cases h
  · exact ⟨behind, t, ahead, rfl⟩

theorem ahead_eq {c : Cursor} (h : c.peek.isStop = false) : c.ahead = c.peek :: c.advance.ahead := by
  obtain ⟨behind, t, ahead, rfl⟩ := exists_cons h
  rfl

theorem behind_advance {c : Cursor} (h : c.peek.isStop = false) :
    c.advance.behind = c.peek :: c.behind := by
  obtain ⟨behind, t, ahead, rfl⟩ := exists_cons h
  rfl

end Cursor

namespace Token

theorem isStop_of_is {t : Token} {text : String} (h : t.is text = true) : t.isStop = false := by
  cases t with
  | mk kind => cases kind <;> simp_all [is, isStop]

theorem isStop_of_isKeyword {t : Token} {word : Keyword} (h : t.isKeyword word = true) :
    t.isStop = false := by
  cases t with
  | mk kind => cases kind <;> simp_all [isKeyword, isStop]

end Token

/-! ## What tokens do -/

/-- The failure to find something where a token stands. -/
def Token.mismatch (t : Token) (expected : Expectation) : Fault ParseError :=
  .at t.location (.unexpected expected (if t.isStop then none else some t.text))

/-- Whether a token ends a sequence. -/
def Enclosure.closedBy (enclosure : Enclosure) (t : Token) : Bool :=
  match enclosure with
  | .braces => t.is "\x7d"
  | .text => t.isStop

/-- Whether a token begins the definition of a function where one may stand. -/
def Enclosure.defines (enclosure : Enclosure) (t : Token) : Bool :=
  enclosure == .text && t.isKeyword .funWord

namespace Parser

theorem length_advance {c : Cursor} (h : c.peek.isStop = false) :
    c.advance.ahead.length + 1 = c.ahead.length := by
  obtain ⟨behind, t, ahead, rfl⟩ := Cursor.exists_cons h
  rfl

theorem peek_isStop {c : Cursor} (h : c.ahead.length ≤ 0) : c.peek.isStop = true := by
  obtain ⟨_ | ⟨t, behind⟩, ahead⟩ := c <;>
  · obtain rfl := List.length_eq_zero_iff.1 (Nat.le_zero.1 h)
    rfl

theorem is_of_unaryOp? {t : Token} {op : UnaryOp} (h : unaryOp? t = some op) :
    t.is op.symbol = true :=
  List.find?_some (p := fun op : UnaryOp => t.is op.symbol) h

theorem is_of_binaryOp? {ops : List BinaryOp} {t : Token} {op : BinaryOp}
    (h : binaryOp? ops t = some op) : op ∈ ops ∧ t.is op.symbol = true := by
  unfold binaryOp? at h
  split at h
  · rename_i hkind
    have hsymbol := List.find?_some h
    refine ⟨List.mem_of_find?_eq_some h, ?_⟩
    rw [Token.is, hkind, eq_of_beq hsymbol, beq_self_eq_true]
    rfl
  · cases h

variable {α β : Type}

/-! ## Runs -/

/-- A run from a cursor ends with a result and at a cursor for which `good` holds, or with a fault for
which `bad` holds. -/
def Ends (p : Parser α) (c : Cursor) (good : α → Cursor → Prop) (bad : Fault ParseError → Prop) : Prop :=
  match p.run c with
  | (.ok a, c') => good a c'
  | (.error fault, _) => bad fault

namespace Ends

variable {c : Cursor} {good : α → Cursor → Prop} {bad : Fault ParseError → Prop}

theorem pure {a : α} (h : good a c) : Ends (Pure.pure a) c good bad := h

theorem throw {fault : Fault ParseError} (h : bad fault) :
    Ends (MonadExcept.throw fault : Parser α) c good bad := h

theorem bind {p : Parser β} {next : β → Parser α}
    (h : Ends p c (fun b c' => Ends (next b) c' good bad) bad) : Ends (p >>= next) c good bad := by
  have hrun : (p >>= next).run c = ExceptT.bindCont next (p.run c).1 (p.run c).2 := rfl
  unfold Ends at h ⊢
  rw [hrun]
  cases hp : p.run c with
  | mk o c' =>
    simp only [hp] at h ⊢
    cases o with
    | ok b => exact h
    | error fault => exact h

theorem mono {p : Parser α} {good' : α → Cursor → Prop} {bad' : Fault ParseError → Prop}
    (h : Ends p c good bad) (hgood : ∀ a c', good a c' → good' a c')
    (hbad : ∀ fault, bad fault → bad' fault) : Ends p c good' bad' := by
  unfold Ends at h ⊢
  cases hp : p.run c with
  | mk o c' =>
    simp only [hp] at h ⊢
    cases o with
    | ok b => exact hgood _ _ h
    | error fault => exact hbad _ h

theorem ok {p : Parser α} (h : Ends p c good bad) {a : α} (ha : (p.run c).1 = .ok a) :
    good a (p.run c).2 := by
  unfold Ends at h
  cases hp : p.run c with
  | mk o c' =>
    simp only [hp] at h ha
    subst ha
    exact h

/-- A run that cannot end with a fault. -/
theorem exists_ok {p : Parser α} (h : Ends p c good fun _ => False) :
    ∃ a, (p.run c).1 = .ok a ∧ good a (p.run c).2 := by
  cases hp : (p.run c).1 with
  | ok a => exact ⟨a, rfl, h.ok hp⟩
  | error fault => unfold Ends at h; split at h <;> simp_all

theorem error {p : Parser α} (h : Ends p c good bad) {fault : Fault ParseError}
    (hf : (p.run c).1 = .error fault) : bad fault := by
  unfold Ends at h
  cases hp : p.run c with
  | mk o c' =>
    simp only [hp] at h hf
    subst hf
    exact h

/-! ### Steps -/

theorem get {good : Cursor → Cursor → Prop} (h : good c c) : Ends MonadState.get c good bad := h

theorem peek {good : Token → Cursor → Prop} (h : good c.peek c) : Ends Parser.peek c good bad := h

theorem take {good : Token → Cursor → Prop} (h : good c.peek c.advance) :
    Ends Parser.take c good bad := h

theorem remaining {good : Nat → Cursor → Prop} (h : good c.ahead.length c) :
    Ends Parser.remaining c good bad := h

theorem failHere {cause : ParseError} (h : bad (.at c.peek.location cause)) :
    Ends (Parser.failHere cause : Parser α) c good bad := h

theorem unexpected {expected : Expectation} (h : bad (c.peek.mismatch expected)) :
    Ends (Parser.unexpected expected : Parser α) c good bad := h

theorem take? {good : Option Token → Cursor → Prop} {text : String}
    (yes : c.peek.is text = true → good (some c.peek) c.advance)
    (no : c.peek.is text = false → good none c) : Ends (Parser.take? text) c good bad := by
  refine .bind (.peek ?_)
  split
  · rename_i h; exact .bind (.take (yes h))
  · rename_i h; exact no (Bool.not_eq_true _ ▸ h)

theorem expect {good : Token → Cursor → Prop} {text : String}
    (yes : c.peek.is text = true → good c.peek c.advance)
    (no : c.peek.is text = false → bad (c.peek.mismatch (.spelling text))) :
    Ends (Parser.expect text) c good bad := by
  refine .bind (.peek ?_)
  split
  · rename_i h; exact .take (yes h)
  · rename_i h; exact .unexpected (no (Bool.not_eq_true _ ▸ h))

theorem expectKeyword {good : Token → Cursor → Prop} {word : Keyword}
    (yes : c.peek.isKeyword word = true → good c.peek c.advance)
    (no : c.peek.isKeyword word = false → bad (c.peek.mismatch (.spelling word.text))) :
    Ends (Parser.expectKeyword word) c good bad := by
  refine .bind (.peek ?_)
  split
  · rename_i h; exact .take (yes h)
  · rename_i h; exact .unexpected (no (Bool.not_eq_true _ ▸ h))

theorem identifier {good : Name → Cursor → Prop}
    (yes : c.peek.kind = .identifier → good ⟨c.peek.location, c.peek.text⟩ c.advance)
    (no : c.peek.kind ≠ .identifier → bad (c.peek.mismatch .identifier)) :
    Ends Parser.identifier c good bad := by
  refine .bind (.peek ?_)
  split
  · rename_i h; exact .bind (.take (yes h))
  · rename_i h; exact .unexpected (no h)

theorem writtenType {good : WrittenType → Cursor → Prop}
    (yes : c.peek.kind = .identifier → ∀ name, TypeName.ofText? c.peek.text = some name →
      good ⟨c.peek.location, name⟩ c.advance)
    (unknown : c.peek.kind = .identifier → TypeName.ofText? c.peek.text = none →
      bad (.at c.peek.location (.unknownType c.peek.text)))
    (no : c.peek.kind ≠ .identifier → bad (c.peek.mismatch .typeName)) :
    Ends Parser.writtenType c good bad := by
  refine .bind (.peek ?_)
  split
  · rename_i h
    split
    · rename_i name hname; exact .bind (.take (yes h name hname))
    · rename_i hname; exact .failHere (unknown h hname)
  · rename_i h; exact .unexpected (no h)

theorem atClosing {good : Bool → Cursor → Prop} {enclosure : Enclosure}
    (h : good (enclosure.closedBy c.peek) c) : Ends (Parser.atClosing enclosure) c good bad := by
  refine .bind (.peek ?_)
  cases enclosure <;> exact h

theorem atDefinition {good : Bool → Cursor → Prop} {enclosure : Enclosure}
    (h : good (enclosure.defines c.peek) c) : Ends (Parser.atDefinition enclosure) c good bad := h

/-- Behind a return the sequence has to end. -/
theorem endOfReturn {good : Option Location → Cursor → Prop} {enclosure : Enclosure}
    (yes : enclosure.closedBy c.peek = true → good none c)
    (no : enclosure.closedBy c.peek = false → bad (.at c.peek.location .returnNotLast)) :
    Ends (do unless ← Parser.atClosing enclosure do Parser.failHere .returnNotLast
             return none : Parser (Option Location)) c good bad := by
  refine .bind (.atClosing ?_)
  split
  · rename_i h; exact yes h
  · rename_i h; exact .bind (.failHere (no (Bool.not_eq_true _ ▸ h)))

theorem statementEnd {good : Option Location → Cursor → Prop} {enclosure : Enclosure}
    {isReturn : Bool}
    (semicolon : c.peek.is ";" = true →
      if isReturn then
        if enclosure.closedBy c.advance.peek then good none c.advance
        else bad (.at c.advance.peek.location .returnNotLast)
      else good (some c.peek.location) c.advance)
    (nothing : c.peek.is ";" = false →
      (enclosure.closedBy c.peek || c.isBehindBrace || enclosure.defines c.peek) = true →
      if isReturn then
        if enclosure.closedBy c.peek then good none c else bad (.at c.peek.location .returnNotLast)
      else good none c)
    (no : c.peek.is ";" = false →
      (enclosure.closedBy c.peek || c.isBehindBrace || enclosure.defines c.peek) = false →
      bad (c.peek.mismatch (.separator enclosure))) :
    Ends (Parser.statementEnd enclosure isReturn) c good bad := by
  -- Behind the semicolon, or where none is needed, a return still has to be the last statement.
  have rest : ∀ (semicolon? : Option Token) (c' : Cursor),
      (if isReturn then
        if enclosure.closedBy c'.peek then good none c' else bad (.at c'.peek.location .returnNotLast)
      else good (semicolon?.map (·.location)) c') →
      Ends (do
        if isReturn then
          unless ← Parser.atClosing enclosure do Parser.failHere .returnNotLast
          return none
        else return semicolon?.map (·.location)) c' good bad := by
    intro semicolon? c' h
    split at h
    · rename_i hr
      rw [if_pos hr]
      refine .endOfReturn (fun hc => ?_) (fun hc => ?_)
      · rwa [if_pos hc] at h
      · rwa [hc] at h
    · rename_i hr
      rw [if_neg hr]
      exact .pure h
  refine .bind (.take? (fun hs => ?_) fun hs => ?_)
  · exact rest _ _ (semicolon hs)
  · refine .bind (.atClosing (.bind (.get (.bind (.atDefinition ?_)))))
    split
    · rename_i h
      exact rest none c (nothing hs h)
    · rename_i h
      exact .bind (.unexpected (no hs (Bool.not_eq_true _ ▸ h)))

end Ends

end Parser

end Exprc.Syntax

/-
What is known of a tree that was read from a text: no expression has a type yet, every name and every place in
the tree is that of a token, and so no name that is called is the name of an operator, since no identifier is
spelled like one. The first is how the parser builds trees; the others go back to the tokens, and so a property of
tokens is carried through the parser, one that holds of all tokens of the cursor (`Yields`).
-/
import Exprc.Builtin
import Exprc.Proofs.Syntax.Nodes
import Exprc.Proofs.Syntax.Runs

namespace Exprc.Syntax

/-! ## Spelling -/

/-- Whether a name is not that of an operator: a built-in function that has it reads or prints. -/
def NotOperator (x : String) : Prop := ∀ b : Builtin, b.name = x → b.isIntrinsic = true

/-- A name that can be written: a word, and not that of an operator. -/
def IsIdentifier (x : String) : Prop := x.toList.all isWordPart = true ∧ NotOperator x

/-- A token that is spelled as its kind is: identifiers are words, and not spelled like operators. -/
def Token.Spelled (t : Token) : Prop := t.kind = .identifier → IsIdentifier t.text

theorem Token.spelled_stop (l : Location) : (Token.stop l).Spelled := nofun

/-- The operators that are words are no identifiers, and the others are no words. -/
theorem isIntrinsic_of_word {b : Builtin} (h : b.name.toList.all isWordPart = true)
    (hop : ["and", "or", "not"].contains b.name = false) : b.isIntrinsic = true := by
  cases b <;> first | rfl | exact absurd h (by decide) | exact absurd hop (by decide)

theorem isWordPart_of_isWordStart {c : Char} (h : isWordStart c = true) : isWordPart c = true := by
  simp only [isWordStart, isWordPart, Char.isAlphanum, Bool.or_eq_true] at h ⊢
  exact h.imp_left .inl

/-- Only words are identifiers. -/
theorem lexeme?_identifier {cs text : List Char} (h : lexeme? cs = some (.identifier, text)) :
    text.all isWordPart = true ∧ ["and", "or", "not"].contains (String.ofList text) = false := by
  unfold lexeme? at h
  split at h
  · cases h
  · rename_i c cs
    split at h
    · simp at h
    · split at h
      · rename_i hstart
        simp only [Option.some.injEq, Prod.mk.injEq] at h
        obtain ⟨hkind, rfl⟩ := h
        constructor
        · rw [List.all_cons, isWordPart_of_isWordStart hstart, Bool.true_and, List.all_eq_true]
          exact fun x hx => List.all_eq_true.1 List.all_takeWhile x hx
        · unfold wordKind at hkind
          split at hkind
          · cases hkind
          · split at hkind
            · cases hkind
            · rename_i hop; simpa using hop
      · split at h
        · simp at h
        · obtain ⟨kind, hkind, he⟩ := Option.map_eq_some_iff.1 h
          obtain rfl : kind = .identifier := congrArg Prod.fst he
          unfold symbolKind? at hkind
          split at hkind
          · cases hkind
          · split at hkind
            · cases hkind
            · split at hkind <;> cases hkind

theorem Reader.next_spelled {r r' : Reader} {t : Token} (h : r.next = (.ok (some t), r')) :
    t.Spelled := by
  unfold Reader.next at h
  split at h
  · cases h
  · cases h
  · split at h
    · cases h
    · rename_i kind text hlex
      cases h
      intro hkind
      obtain rfl : kind = .identifier := hkind
      obtain ⟨hword, hop⟩ := lexeme?_identifier hlex
      refine ⟨String.toList_ofList ▸ hword, fun b hb => ?_⟩
      have htext : b.name.toList = text := by rw [hb, String.toList_ofList]
      exact isIntrinsic_of_word (htext ▸ hword) (hb ▸ hop)

theorem Reader.tokens_eq (r : Reader) :
    r.tokens = match r.next with
      | (.error e, _) => .error e
      | (.ok none, r') => .ok [.stop r'.location]
      | (.ok (some t), r') => (t :: ·) <$> r'.tokens := by
  rw [Reader.tokens]
  split <;> simp_all

/-- All tokens of a text are spelled as their kinds are. -/
theorem Reader.tokens_spelled (r : Reader) :
    ∀ {ts : List Token}, r.tokens = .ok ts → ∀ t ∈ ts, t.Spelled := by
  induction r using Reader.tokens.induct with
  | case1 r e r' hnext =>
    intro ts h
    rw [Reader.tokens_eq, hnext] at h
    cases h
  | case2 r r' hnext =>
    intro ts h
    rw [Reader.tokens_eq, hnext] at h
    cases h
    exact List.forall_mem_singleton.2 (Token.spelled_stop _)
  | case3 r t r' hnext ih =>
    intro ts h
    rw [Reader.tokens_eq, hnext] at h
    dsimp only at h
    cases hrest : r'.tokens with
    | error e => rw [hrest] at h; cases h
    | ok rest =>
      rw [hrest] at h
      cases h
      exact List.forall_mem_cons.2 ⟨Reader.next_spelled hnext, ih hrest⟩

/-! ## What a parser yields -/

/-- A property of tokens that the end of the text has too, wherever a parser sees it. -/
structure Token.Lasting (P : Token → Prop) : Prop where
  stop : ∀ {t}, P t → P (.stop t.location)
  start : P (.stop .start)

theorem Token.spelled_lasting : Token.Lasting Token.Spelled := ⟨fun _ => spelled_stop _, spelled_stop _⟩

/-- A place where a token with a property stands. -/
def IsPlace (P : Token → Prop) (l : Location) : Prop := ∃ t, P t ∧ t.location = l

namespace Cursor

variable {P : Token → Prop} {c : Cursor}

/-- The tokens of a cursor have a property. -/
structure All (P : Token → Prop) (c : Cursor) : Prop where
  lasting : Token.Lasting P
  behind : ∀ t ∈ c.behind, P t
  ahead : ∀ t ∈ c.ahead, P t

theorem All.peek (h : c.All P) : P c.peek := by
  obtain ⟨behind, _ | ⟨t, ahead⟩⟩ := c
  · cases behind with
    | nil => exact h.lasting.start
    | cons t behind => exact h.lasting.stop (h.behind t List.mem_cons_self)
  · exact h.ahead t List.mem_cons_self

theorem All.advance (h : c.All P) : c.advance.All P := by
  obtain ⟨behind, _ | ⟨t, ahead⟩⟩ := c
  · exact h
  · obtain ⟨ht, hahead⟩ := List.forall_mem_cons.1 h.ahead
    exact ⟨h.lasting, List.forall_mem_cons.2 ⟨ht, h.behind⟩, hahead⟩

end Cursor

namespace Parser

variable {α β : Type} {P : Token → Prop}

/-- On tokens with a property, all that a parser reads is good, and where it fails it blames the place of a token
with the property. -/
def Yields (P : Token → Prop) (p : Parser α) (good : α → Prop) : Prop :=
  ∀ c : Cursor, c.All P →
    Ends p c (fun a c' => c'.All P ∧ good a) fun fault => ∀ l ∈ fault.location?, IsPlace P l

namespace Yields

variable {good : α → Prop} {good' : β → Prop}

theorem pure {a : α} (h : good a) : Yields P (Pure.pure a) good := fun _ hc => .pure ⟨hc, h⟩

theorem bind {p : Parser α} {next : α → Parser β} (hp : Yields P p good)
    (hnext : ∀ a, good a → Yields P (next a) good') : Yields P (p >>= next) good' := by
  intro c hc
  exact .bind ((hp c hc).mono (fun a c' ha => hnext a ha.2 c' ha.1) fun _ h => h)

theorem mono {good'' : α → Prop} {p : Parser α} (hp : Yields P p good) (h : ∀ a, good a → good'' a) :
    Yields P p good'' :=
  fun c hc => (hp c hc).mono (fun a _ ha => ⟨ha.1, h a ha.2⟩) fun _ h => h

theorem map {p : Parser α} {f : α → β} (hp : Yields P p good) (h : ∀ a, good a → good' (f a)) :
    Yields P (f <$> p) good' := by
  rw [map_eq_pure_bind]
  exact hp.bind fun a ha => .pure (h a ha)

theorem throw {fault : Fault ParseError} (h : ∀ l ∈ fault.location?, IsPlace P l) :
    Yields P (throw fault : Parser α) good :=
  fun _ _ => .throw h

theorem cursor : Yields P get (Cursor.All P) := fun _ hc => .get ⟨hc, hc⟩

theorem peek : Yields P Parser.peek P := fun _ hc => .peek ⟨hc, hc.peek⟩

theorem take : Yields P Parser.take P := fun _ hc => .take ⟨hc.advance, hc.peek⟩

theorem failHere (cause : ParseError) : Yields P (failHere cause : Parser α) good := by
  refine .bind .peek fun t ht => .throw ?_
  rintro _ ⟨⟩
  exact ⟨t, ht, rfl⟩

theorem unexpected (expected : Expectation) : Yields P (unexpected expected : Parser α) good :=
  .bind .peek fun _ _ => .failHere _

theorem take? (text : String) : Yields P (take? text) fun t? => ∀ t ∈ t?, P t := by
  refine .bind .peek fun t _ => ?_
  split
  · refine .bind .take fun t ht => .pure ?_
    rintro _ ⟨⟩
    exact ht
  · exact .pure nofun

theorem expect (text : String) : Yields P (expect text) P := by
  refine .bind .peek fun t _ => ?_
  split
  · exact .take
  · exact .unexpected _

theorem expectKeyword (word : Keyword) : Yields P (expectKeyword word) P := by
  refine .bind .peek fun t _ => ?_
  split
  · exact .take
  · exact .unexpected _

theorem remaining : Yields P remaining fun _ => True := .bind .cursor fun _ _ => .pure trivial

theorem moreItems {item : Parser α} (h : Yields P item good) :
    ∀ bound, Yields P (moreItems item bound) fun xs => ∀ x ∈ xs, good x
  | 0 => .pure nofun
  | bound + 1 => by
    refine .bind (.take? ",") fun comma? _ => ?_
    split
    · exact .pure nofun
    · exact h.bind fun x hx => (moreItems h bound).bind fun xs hxs => .pure (List.forall_mem_cons.2 ⟨hx, hxs⟩)

theorem itemsInParentheses {item : Parser α} (h : Yields P item good) (bound : Nat) :
    Yields P (itemsInParentheses item bound) fun xs => ∀ x ∈ xs, good x := by
  refine .bind .peek fun t _ => ?_
  split
  · exact .bind .take fun _ _ => .pure nofun
  · refine h.bind fun x hx => (moreItems h bound).bind fun xs hxs => .bind (.expect ")") fun _ _ => ?_
    exact .pure (List.forall_mem_cons.2 ⟨hx, hxs⟩)

end Yields

end Parser

/-! ## The grammar -/

/-- Whether an expression is as the parser builds it: it has no type, and calls no operator by name. -/
def Expr.Fresh (e : Expr) : Prop := e.ty? = none ∧ ∀ f ∈ e.callee?, NotOperator f

/-- A name that a token with a property spells, where the token stands. -/
def Name.From (P : Token → Prop) (x : Name) : Prop :=
  ∃ t, P t ∧ t.kind = .identifier ∧ x = ⟨t.location, t.text⟩

theorem Name.From.isIdentifier {x : Name} (h : x.From Token.Spelled) : IsIdentifier x.text := by
  obtain ⟨t, ht, hkind, rfl⟩ := h
  exact ht hkind

/-- Whether an expression, apart from those inside, is as the parser builds it from tokens with a property. -/
structure Expr.Built (P : Token → Prop) (e : Expr) : Prop where
  untyped : e.ty? = none
  location : IsPlace P e.location
  declared : ∀ x ∈ e.declared?, x.From P
  callee : ∀ f ∈ e.callee?, ∃ l, Name.From P ⟨l, f⟩

/-- Whether all expressions in a tree are as the parser builds them. -/
def Expr.AsWritten (P : Token → Prop) (e : Expr) : Prop := ∀ a ∈ e.subexpressions, a.Built P

/-- Whether a definition is as the parser builds it. -/
structure FunctionDefinition.AsWritten (P : Token → Prop) (f : FunctionDefinition) : Prop where
  name : f.name.From P
  parameters : ∀ p ∈ f.parameters, p.name.From P
  body : f.body.AsWritten P

/-- Whether a module is as the parser builds it. -/
structure Module.AsWritten (P : Token → Prop) (m : Module) : Prop where
  functions : ∀ f ∈ m.functions, f.AsWritten P
  body : m.body.AsWritten P
  isBlock : ∃ n es, m.body = .block n es

variable {P : Token → Prop}

theorem Expr.Built.of_token {e : Expr} {t : Token} (ht : P t) (hnote : e.note = ⟨t.location, none⟩)
    (hdeclared : e.declared? = none) (hcallee : e.callee? = none) : e.Built P where
  untyped := by rw [ty?, hnote]
  location := ⟨t, ht, by rw [Expr.location, hnote]⟩
  declared := by rw [hdeclared]; exact nofun
  callee := by rw [hcallee]; exact nofun

namespace Parser

variable {α : Type}

theorem allSubexpressions_built {es : List Expr} (h : ∀ e ∈ es, e.AsWritten P) :
    ∀ a ∈ Expr.allSubexpressions es, a.Built P := by
  induction es with
  | nil => exact nofun
  | cons e es ih =>
    obtain ⟨he, hes⟩ := List.forall_mem_cons.1 h
    rw [Expr.allSubexpressions, List.forall_mem_append]
    exact ⟨he, ih hes⟩

theorem identifier_yields : Yields P identifier (Name.From P) := by
  refine .bind .peek fun t ht => ?_
  split
  · rename_i hkind
    exact .bind .take fun _ _ => .pure ⟨t, ht, hkind, rfl⟩
  · exact .unexpected _

theorem writtenType_yields : Yields P writtenType fun _ => True := by
  refine .bind .peek fun t ht => ?_
  split
  · split
    · exact .bind .take fun _ _ => .pure trivial
    · exact .failHere _
  · exact .unexpected _

theorem intLiteral_yields : Yields P intLiteral (Expr.AsWritten P) := by
  refine .bind .take fun t ht => ?_
  split
  · exact .pure (List.forall_mem_singleton.2 (.of_token ht rfl rfl rfl))
  · refine .throw ?_
    rintro _ ⟨⟩
    exact ⟨t, ht, rfl⟩

theorem boolLiteral_yields : Yields P boolLiteral (Expr.AsWritten P) :=
  .bind .take fun _ ht => .pure (List.forall_mem_singleton.2 (.of_token ht rfl rfl rfl))

theorem loopControl_yields (c : LoopControl) : Yields P (loopControl c) (Expr.AsWritten P) :=
  .bind .take fun _ ht => .pure (List.forall_mem_singleton.2 (.of_token ht rfl rfl rfl))

section

variable {nested : Parser Expr} (hn : Yields P nested (Expr.AsWritten P))

include hn

theorem statement_yields : Yields P (statement nested) (Expr.AsWritten P) := by
  refine .bind .peek fun t ht => ?_
  split
  · refine .bind .take fun _ _ => .bind .peek fun next _ => ?_
    split
    · exact .pure (List.forall_mem_singleton.2 (.of_token ht rfl rfl rfl))
    · exact hn.bind fun e he => .pure (List.forall_mem_cons.2 ⟨.of_token ht rfl rfl rfl, he⟩)
  · exact hn

omit hn in
theorem atClosing_yields (enclosure : Enclosure) : Yields P (atClosing enclosure) fun _ => True := by
  refine .bind .peek fun t _ => ?_
  cases enclosure <;> exact .pure trivial

omit hn in
theorem atDefinition_yields (enclosure : Enclosure) : Yields P (atDefinition enclosure) fun _ => True :=
  .bind .peek fun _ _ => .pure trivial

omit hn in
theorem statementEnd_yields (enclosure : Enclosure) (isReturn : Bool) :
    Yields P (statementEnd enclosure isReturn) fun semicolon? => ∀ l ∈ semicolon?, IsPlace P l := by
  have hseparated : ∀ (semicolon? : Option Token) (rest : Unit → Parser (Option Location)),
      Yields P (rest ()) (fun semicolon? => ∀ l ∈ semicolon?, IsPlace P l) → Yields P (do
        if semicolon?.isNone then
          unless (← atClosing enclosure) || (← get).isBehindBrace || (← atDefinition enclosure) do
            unexpected (.separator enclosure)
        rest ()) fun semicolon? => ∀ l ∈ semicolon?, IsPlace P l := by
    intro semicolon? rest hrest
    split
    · refine .bind (atClosing_yields _) fun closing _ => .bind .cursor fun _ _ => ?_
      refine .bind (atDefinition_yields _) fun definition _ => ?_
      split
      · exact hrest
      · exact .bind (.unexpected _) fun _ (_ : True) => hrest
    · exact hrest
  refine .bind (.take? ";") fun semicolon? hsemicolon => ?_
  split
  · refine hseparated semicolon? (fun _ => _) (.bind (atClosing_yields _) fun closing _ => ?_)
    cases closing
    · exact .bind (.failHere _) fun _ (_ : True) => .pure nofun
    · exact .pure nofun
  · refine hseparated semicolon? (fun _ => _) (.pure fun l hl => ?_)
    obtain ⟨t, ht, rfl⟩ := Option.map_eq_some_iff.1 hl
    exact ⟨t, hsemicolon t ht, rfl⟩

/-- Whether what is in a sequence is as the parser builds it. -/
def Sequence.AsWritten (P : Token → Prop) (inside : Sequence) : Prop :=
  (∀ f ∈ inside.functions, f.AsWritten P) ∧ ∀ e ∈ inside.statements, e.AsWritten P

theorem sequence_yields {enclosure : Enclosure} {definition : Parser FunctionDefinition}
    (hd : Yields P definition (FunctionDefinition.AsWritten P)) :
    ∀ (bound : Nat) (semicolon? : Option Location), (∀ l ∈ semicolon?, IsPlace P l) →
      Yields P (sequence enclosure definition nested bound semicolon?) (Sequence.AsWritten P) := by
  have hclosed : ∀ semicolon? : Option Location, (∀ l ∈ semicolon?, IsPlace P l) → Yields (α := Sequence) P
      (pure { statements := (semicolon?.map fun l => .unit ⟨l, none⟩).toList }) (Sequence.AsWritten P) := by
    intro semicolon? hsemicolon
    refine .pure ⟨nofun, fun e he => ?_⟩
    obtain ⟨l, hl, rfl⟩ := Option.map_eq_some_iff.1 (Option.mem_toList.1 he)
    obtain ⟨t, ht, rfl⟩ := hsemicolon l hl
    exact List.forall_mem_singleton.2 (.of_token ht rfl rfl rfl)
  intro bound
  induction bound with
  | zero =>
    intro semicolon? hsemicolon
    unfold sequence
    refine .bind (atClosing_yields _) fun closing _ => ?_
    split
    · exact hclosed _ hsemicolon
    · exact .unexpected _
  | succ bound ih =>
    intro semicolon? hsemicolon
    unfold sequence
    refine .bind (atClosing_yields _) fun closing _ => ?_
    split
    · exact hclosed _ hsemicolon
    · refine .bind (atDefinition_yields _) fun atDef _ => ?_
      split
      · refine hd.bind fun f hf => (ih _ hsemicolon).bind fun rest hrest => .pure ?_
        exact ⟨List.forall_mem_cons.2 ⟨hf, hrest.1⟩, hrest.2⟩
      · refine (statement_yields hn).bind fun e he => .bind (statementEnd_yields _ _) fun _ hsemicolon => ?_
        refine (ih _ hsemicolon).bind fun rest hrest => .pure ?_
        exact ⟨hrest.1, List.forall_mem_cons.2 ⟨he, hrest.2⟩⟩

theorem block_yields (bound : Nat) : Yields P (block nested bound) fun e =>
    e.AsWritten P ∧ ∃ n es, e = .block n es := by
  refine .bind (.expect _) fun opening hopening => ?_
  refine (sequence_yields hn (.unexpected _) bound none nofun).bind fun inside hinside => ?_
  refine .bind (.expect _) fun _ _ => .pure ⟨?_, _, _, rfl⟩
  exact List.forall_mem_cons.2 ⟨.of_token hopening rfl rfl rfl, allSubexpressions_built hinside.2⟩

theorem nameOrCall_yields (bound : Nat) : Yields P (nameOrCall nested bound) (Expr.AsWritten P) := by
  refine identifier_yields.bind fun name hname => .bind (.take? _) fun opening? _ => ?_
  obtain ⟨t, ht, hkind, rfl⟩ := hname
  split
  · exact .pure (List.forall_mem_singleton.2 (.of_token ht rfl rfl rfl))
  · refine (Yields.itemsInParentheses hn bound).bind fun es hes => .pure ?_
    refine List.forall_mem_cons.2 ⟨⟨rfl, ⟨t, ht, rfl⟩, nofun, ?_⟩, allSubexpressions_built hes⟩
    rintro _ ⟨⟩
    exact ⟨t.location, t, ht, hkind, rfl⟩

theorem conditional_yields : Yields P (conditional nested) (Expr.AsWritten P) := by
  refine .bind (.expectKeyword _) fun word hword => hn.bind fun c hc => ?_
  have hnode : ∀ e : Expr, e.note = ⟨word.location, none⟩ → e.declared? = none → e.callee? = none →
    e.Built P := fun _ => .of_token hword
  refine .bind (.expectKeyword _) fun _ _ => hn.bind fun t ht => .bind .peek fun next _ => ?_
  split
  · refine .bind .take fun _ _ => hn.bind fun e he => .pure ?_
    refine List.forall_mem_cons.2 ⟨hnode _ rfl rfl rfl, List.forall_mem_append.2 ⟨hc, ?_⟩⟩
    exact List.forall_mem_append.2 ⟨ht, he⟩
  · exact .pure (List.forall_mem_cons.2 ⟨hnode _ rfl rfl rfl, List.forall_mem_append.2 ⟨hc, ht⟩⟩)

theorem loop_yields : Yields P (loop nested) (Expr.AsWritten P) := by
  refine .bind (.expectKeyword _) fun word hword => hn.bind fun c hc => ?_
  refine .bind (.expectKeyword _) fun _ _ => hn.bind fun b hb => .pure ?_
  exact List.forall_mem_cons.2 ⟨.of_token hword rfl rfl rfl, List.forall_mem_append.2 ⟨hc, hb⟩⟩

theorem declaration_yields : Yields P (declaration nested) (Expr.AsWritten P) := by
  refine .bind (.expectKeyword _) fun word hword => identifier_yields.bind fun name hname => ?_
  have hinitial : ∀ written? : Option WrittenType, Yields P (do
      let _ ← expect "="
      return .declare ⟨word.location, none⟩ name written? (← nested)) (Expr.AsWritten P) := by
    intro written?
    refine .bind (.expect _) fun _ _ => hn.bind fun e he => .pure (List.forall_mem_cons.2 ⟨?_, he⟩)
    refine ⟨rfl, ⟨word, hword, rfl⟩, ?_, nofun⟩
    rintro _ ⟨⟩
    exact hname
  refine .bind (.take? _) fun colon? _ => ?_
  split
  · have hwritten : Yields P (some <$> writtenType) fun _ => True :=
      writtenType_yields.map fun _ _ => trivial
    exact hwritten.bind fun written? _ => hinitial written?
  · exact .bind (.pure trivial) fun written? (_ : True) => hinitial written?

theorem grouping_yields : Yields P (grouping nested) (Expr.AsWritten P) :=
  .bind (.expect _) fun _ _ => hn.bind fun _ he => .bind (.expect _) fun _ _ => .pure he

theorem operand_yields (bound : Nat) : Yields P (operand nested bound) (Expr.AsWritten P) := by
  refine .bind .peek fun t _ => ?_
  split
  · exact intLiteral_yields
  · exact boolLiteral_yields
  · exact nameOrCall_yields hn bound
  · exact conditional_yields hn
  · exact loop_yields hn
  · exact declaration_yields hn
  · exact loopControl_yields _
  · exact loopControl_yields _
  · split
    · exact grouping_yields hn
    · split
      · exact (block_yields hn bound).mono fun _ h => h.1
      · exact .unexpected _
  · exact .unexpected _

/-! Operators, for what they apply to. -/

theorem unary_yields : ∀ bound, Yields P (unary nested bound) (Expr.AsWritten P)
  | 0 => hn
  | bound + 1 => by
    refine .bind .peek fun t ht => ?_
    split
    · exact hn
    · refine .bind .take fun _ _ => (unary_yields bound).bind fun e he => .pure ?_
      exact List.forall_mem_cons.2 ⟨.of_token ht rfl rfl rfl, he⟩

theorem moreOperands_yields (ops : List BinaryOp) :
    ∀ (bound : Nat) {lhs : Expr}, lhs.AsWritten P →
      Yields P (moreOperands ops nested bound lhs) (Expr.AsWritten P)
  | 0, lhs, hl => .pure hl
  | bound + 1, lhs, hl => by
    refine .bind .peek fun t _ => ?_
    split
    · exact .pure hl
    · refine .bind .take fun _ _ => hn.bind fun rhs hr => moreOperands_yields ops bound ?_
      obtain ⟨t', ht', hlocation⟩ := (hl lhs lhs.self_mem_subexpressions).location
      refine List.forall_mem_cons.2 ⟨?_, List.forall_mem_append.2 ⟨hl, hr⟩⟩
      exact .of_token ht' (by rw [hlocation]; rfl) rfl rfl

theorem binary_yields (bound : Nat) :
    ∀ levels : List (List BinaryOp), Yields P (binary nested bound levels) (Expr.AsWritten P)
  | [] => hn
  | ops :: tighter =>
    (binary_yields bound tighter).bind fun _ hl =>
      moreOperands_yields (binary_yields bound tighter) ops bound hl

theorem assignment_yields (bound : Nat) : Yields P (assignment nested bound) (Expr.AsWritten P) := by
  refine (binary_yields (unary_yields (operand_yields hn bound) bound) bound _).bind fun lhs hl => ?_
  refine .bind (.take? _) fun symbol? _ => ?_
  split
  · exact .pure hl
  · refine hn.bind fun rhs hr => .pure ?_
    obtain ⟨t, ht, hlocation⟩ := (hl lhs lhs.self_mem_subexpressions).location
    refine List.forall_mem_cons.2 ⟨?_, List.forall_mem_append.2 ⟨hl, hr⟩⟩
    exact .of_token ht (by rw [hlocation]; rfl) rfl rfl

end

/-! ## Expressions and modules -/

theorem expressionWithin_yields : ∀ bound, Yields P (expressionWithin bound) (Expr.AsWritten P)
  | 0 => .unexpected _
  | bound + 1 => assignment_yields (expressionWithin_yields bound) (bound + 1)

theorem parameter_yields : Yields P parameter fun p => p.name.From P := by
  refine identifier_yields.bind fun name hname => .bind (.expect _) fun _ _ => ?_
  exact writtenType_yields.bind fun _ _ => .pure hname

theorem definition_yields {nested : Parser Expr} (hn : Yields P nested (Expr.AsWritten P)) (bound : Nat) :
    Yields P (definition nested bound) (FunctionDefinition.AsWritten P) := by
  refine .bind (.expectKeyword _) fun word _ => identifier_yields.bind fun name hname => ?_
  refine .bind (.expect _) fun _ _ => (Yields.itemsInParentheses parameter_yields bound).bind fun ps hps => ?_
  refine .bind (.expect _) fun _ _ => writtenType_yields.bind fun result _ => ?_
  exact (block_yields hn bound).bind fun body hbody => .pure ⟨hname, hps, hbody.1⟩

theorem module_yields : Yields P module (Module.AsWritten P) := by
  refine .bind .peek fun t ht => .bind .remaining fun bound _ => ?_
  have hn := expressionWithin_yields (P := P) bound
  refine (sequence_yields hn (definition_yields hn bound) bound none nofun).bind fun inside hinside => .pure ?_
  refine ⟨hinside.1, List.forall_mem_cons.2 ⟨.of_token ht rfl rfl rfl, ?_⟩, _, _, rfl⟩
  exact allSubexpressions_built hinside.2

/-! ## Whole texts -/

/-- What is read from a text whose tokens have a property is as the parser builds it, or else a token with the
property is to blame. -/
theorem readSource_yields {source : Source} {tokens : List Token} {p : Parser α} {good : α → Prop}
    (h : Yields P p good) (hP : Token.Lasting P) (htokens : tokenize source = .ok tokens)
    (hall : ∀ t ∈ tokens, P t) :
    (∀ a, p.readSource source = .ok a → good a) ∧
      ∀ d, p.readSource source = .error d → ∀ l ∈ d.location?, IsPlace P l := by
  have hends := h (.start tokens) ⟨hP, nofun, hall⟩
  unfold readSource
  rw [htokens]
  dsimp only
  constructor
  · intro a ha
    split at ha
    · cases ha
    · rename_i hrun
      cases ha
      exact (hends.ok hrun).2
  · intro d hd
    split at hd
    · rename_i fault hrun
      cases hd
      exact hends.error hrun
    · cases hd

theorem tokenize_of_readSource {source : Source} {p : Parser α} {a : α} (h : p.readSource source = .ok a) :
    ∃ tokens, tokenize source = .ok tokens := by
  unfold readSource at h
  split at h
  · cases h
  · exact ⟨_, ‹_›⟩

/-- A module that was read from a text has been built from tokens that are spelled as their kinds are. -/
theorem readSource_asWritten {source : Source} {m : Module} (h : module.readSource source = .ok m) :
    m.AsWritten Token.Spelled := by
  obtain ⟨tokens, htokens⟩ := tokenize_of_readSource h
  exact (readSource_yields module_yields Token.spelled_lasting htokens (Reader.tokens_spelled _ htokens)).1 m h

/-- A module that was read from a text is as the parser builds it: its top-level statements are a block. -/
theorem readSource_module {source : Source} {m : Module} (h : module.readSource source = .ok m) :
    (∀ a ∈ m.subexpressions, a.Fresh) ∧ ∃ n es, m.body = .block n es := by
  have hwritten := readSource_asWritten h
  have hfresh : ∀ a : Expr, a.Built Token.Spelled → a.Fresh := by
    refine fun a ha => ⟨ha.untyped, fun f hf => ?_⟩
    obtain ⟨l, hname⟩ := ha.callee f hf
    exact hname.isIdentifier.2
  refine ⟨List.forall_mem_append.2 ⟨fun a ha => ?_, fun a ha => hfresh a (hwritten.body a ha)⟩, hwritten.isBlock⟩
  obtain ⟨f, hf, ha⟩ := List.mem_flatMap.1 ha
  exact hfresh a ((hwritten.functions f hf).body a ha)

end Parser

end Exprc.Syntax

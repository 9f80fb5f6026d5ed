/-
The grammar in lockstep. Every construct is run along with itself, over different tokens behind the end of the text
and with different bounds (`InStep`). The bounds go down with the tokens ahead, for a construct calls the parser of
the expressions inside it when it has taken a token; so they play no role, and an expression that is read has taken
a token (`expressionWithin_matched`).
-/
import Exprc.Proofs.Syntax.Lockstep

namespace Exprc.Syntax.Parser

variable {α β : Type} {tail tail' : Tail} {c d : Cursor} {m n b b' : Nat}

/-! ## At the end -/

theorem bind_run_ok {p : Parser β} {f : β → Parser α} {x : β} (h : p.run c = (.ok x, d)) :
    (p >>= f).run c = (f x).run d := by
  show ExceptT.bindCont f (p.run c).1 (p.run c).2 = _
  rw [h]
  rfl

theorem bind_run_error {p : Parser β} {f : β → Parser α} {fault : Fault ParseError}
    (h : p.run c = (.error fault, d)) : (p >>= f).run c = (.error fault, d) := by
  show ExceptT.bindCont f (p.run c).1 (p.run c).2 = _
  rw [h]
  rfl

theorem take?_run_of_isStop (hstop : c.peek.isStop = true) (text : String) :
    (take? text).run c = (.ok none, c) := by
  have hpeek : (take? text).run c = (if c.peek.is text then some <$> take else pure none : Parser _).run c := rfl
  rw [hpeek, Token.is_of_isStop hstop, if_neg Bool.false_ne_true]
  rfl

theorem moreItems_run_of_isStop {item : Parser α} (hstop : c.peek.isStop = true) (b : Nat) :
    (moreItems item b).run c = (.ok [], c) := by
  cases b with
  | zero => rfl
  | succ b => exact bind_run_ok (take?_run_of_isStop hstop ",")

theorem unary_run_of_isStop {inner : Parser Expr} (hstop : c.peek.isStop = true) (b : Nat) :
    (unary inner b).run c = inner.run c := by
  cases b with
  | zero => rfl
  | succ b =>
    refine (bind_run_ok (p := peek) rfl).trans ?_
    rw [unaryOp?_of_isStop hstop]

theorem moreOperands_run_of_isStop {ops : List BinaryOp} {inner : Parser Expr} (hstop : c.peek.isStop = true)
    (b : Nat) (lhs : Expr) : (moreOperands ops inner b lhs).run c = (.ok lhs, c) := by
  cases b with
  | zero => rfl
  | succ b =>
    refine (bind_run_ok (p := peek) rfl).trans ?_
    rw [binaryOp?_of_isStop hstop]
    rfl

theorem operand_run_of_isStop {nested : Parser Expr} (hstop : c.peek.isStop = true) (b : Nat) :
    (operand nested b).run c = (unexpected .expression : Parser Expr).run c := by
  refine (bind_run_ok (p := peek) rfl).trans ?_
  rw [Token.kind_of_isStop hstop]

theorem binary_run_error {inner : Parser Expr} {fault : Fault ParseError} (h : inner.run c = (.error fault, d))
    (b : Nat) (levels : List (List BinaryOp)) : (binary inner b levels).run c = (.error fault, d) := by
  induction levels with
  | nil => exact h
  | cons ops tighter ih => exact bind_run_error ih

/-- Whether a parser of expressions finds none at the end of the text. -/
def NeedsToken (p : Parser Expr) : Prop :=
  ∀ c : Cursor, c.peek.isStop = true → p.run c = (unexpected .expression : Parser Expr).run c

/-- No expression begins at the end of the text. -/
theorem assignment_run_of_isStop {nested : Parser Expr} (hstop : c.peek.isStop = true) (b : Nat) :
    (assignment nested b).run c = (unexpected .expression : Parser Expr).run c := by
  have hoperand : (operand nested b).run c = (unexpected .expression : Parser Expr).run c :=
    operand_run_of_isStop hstop b
  have hunary := (unary_run_of_isStop hstop b).trans hoperand
  exact bind_run_error (binary_run_error hunary b BinaryOp.levels)

theorem expressionWithin_needsToken (b : Nat) : NeedsToken (expressionWithin b) := by
  intro c hstop
  cases b with
  | zero => rfl
  | succ b => exact assignment_run_of_isStop hstop (b + 1)

theorem statement_run_of_isStop {nested : Parser Expr} (hstop : c.peek.isStop = true) :
    (statement nested).run c = nested.run c := by
  refine (bind_run_ok (p := peek) rfl).trans ?_
  rw [Token.isKeyword_of_isStop hstop, if_neg Bool.false_ne_true]

theorem sequence_run_of_isStop {enclosure : Enclosure} {definition : Parser FunctionDefinition}
    {nested : Parser Expr} (hnested : NeedsToken nested) (hstop : c.peek.isStop = true) (b : Nat)
    (semicolon? : Option Location) :
    (sequence enclosure definition nested b semicolon?).run c =
      (sequence enclosure definition nested 0 semicolon?).run c := by
  cases b with
  | zero => rfl
  | succ b =>
    have hclosing : (atClosing enclosure).run c = (.ok (enclosure.closedBy c.peek), c) := by
      cases enclosure <;> rfl
    have hdefinition : (atDefinition enclosure).run c = (.ok false, c) := by
      show (Except.ok (enclosure.defines c.peek), c) = _
      rw [Enclosure.defines, Token.isKeyword_of_isStop hstop, Bool.and_false]
    have hstatement := (statement_run_of_isStop hstop).trans (hnested c hstop)
    unfold sequence
    rw [bind_run_ok hclosing, bind_run_ok hclosing]
    split
    · rfl
    · rw [bind_run_ok hdefinition, if_neg Bool.false_ne_true]
      exact bind_run_error hstatement

/-! ## Counting down -/

/-- With at most `n` tokens ahead two parsers run in lockstep, and where they succeed they take a token. -/
def Matched (tail tail' : Tail) (p q : Parser α) (n : Nat) : Prop :=
  ∀ c : Cursor, c.ahead.length ≤ n → InStep tail tail' p q c c.ahead.length

/-- Parsers that count down from a number that is at least that of the tokens ahead. At the end of the text the
number plays no role; and a step, which is taken where there are tokens ahead, takes one before it goes on. -/
theorem InStep.countdown {ι : Type} {p q : Nat → ι → Parser α} {k : Nat}
    (left : ∀ b i c, c.peek.isStop = true → (p b i).run c = (p 0 i).run c)
    (right : ∀ b i c, c.peek.isStop = true → (q b i).run c = (q 0 i).run c)
    (zero : ∀ i c, c.ahead.length ≤ n → c.peek.isStop = true →
      InStep tail tail' (p 0 i) (q 0 i) c (c.ahead.length + k))
    (step : ∀ b b', (∀ i c, c.ahead.length ≤ n → c.ahead.length ≤ b → c.ahead.length ≤ b' →
        InStep tail tail' (p b i) (q b' i) c (c.ahead.length + k)) →
      ∀ i c, c.ahead.length ≤ n → c.ahead.length ≤ b + 1 → c.ahead.length ≤ b' + 1 → c.peek.isStop = false →
        InStep tail tail' (p (b + 1) i) (q (b' + 1) i) c (c.ahead.length + k)) :
    ∀ b b' i c, c.ahead.length ≤ n → c.ahead.length ≤ b → c.ahead.length ≤ b' →
      InStep tail tail' (p b i) (q b' i) c (c.ahead.length + k) := by
  have atStop : ∀ b b' i c, c.ahead.length ≤ n → c.peek.isStop = true →
      InStep tail tail' (p b i) (q b' i) c (c.ahead.length + k) := by
    intro b b' i c hn hstop
    refine (zero i c hn hstop).congr (left b i _ ?_) (right b' i _ ?_)
    · rw [c.isStop_followedBy, hstop]
    · rw [c.isStop_followedBy, hstop]
  -- both numbers go down together, and neither is zero while tokens are ahead
  intro b
  induction b with
  | zero => exact fun b' i c hn hb _ => atStop 0 b' i c hn (peek_isStop hb)
  | succ b ih =>
    intro b' i c hn hb hb'
    cases hstop : c.peek.isStop with
    | true => exact atStop (b + 1) b' i c hn hstop
    | false =>
      cases b' with
      | zero =>
        rw [peek_isStop hb'] at hstop
        cases hstop
      | succ b' => exact step b b' (ih b') i c hn hb hb' hstop

/-! ## Items -/

section

variable {item item' : Parser α} (h : Matched tail tail' item item' n)

include h

theorem moreItems_inStep (hn : c.ahead.length ≤ n) (hb : c.ahead.length ≤ b) (hb' : c.ahead.length ≤ b') :
    InStep tail tail' (moreItems item b) (moreItems item' b') c (c.ahead.length + 1) := by
  refine InStep.countdown (p := fun b (_ : Unit) => moreItems item b) (q := fun b _ => moreItems item' b)
    (fun b _ c hstop => moreItems_run_of_isStop hstop b) (fun b _ c hstop => moreItems_run_of_isStop hstop b)
    (fun _ c _ _ => .pure (by omega)) ?_ b b' () c hn hb hb'
  intro b b' ih _ c hn hb hb' hstop
  have hlength := length_advance hstop
  refine .take? (fun _ => ?_) fun _ => .pure (by omega)
  refine .bind (h c.advance (by omega)) fun x d hd => ?_
  refine .bind (ih () d (by omega) (by omega) (by omega)) fun xs e he => ?_
  exact .pure (by omega)

theorem itemsInParentheses_inStep (hn : c.ahead.length ≤ n) (hb : c.ahead.length ≤ b)
    (hb' : c.ahead.length ≤ b') :
    InStep tail tail' (itemsInParentheses item b) (itemsInParentheses item' b') c c.ahead.length := by
  have items : InStep tail tail'
      (do
        let x ← item
        let rest ← moreItems item b
        let _ ← expect ")"
        return x :: rest)
      (do
        let x ← item'
        let rest ← moreItems item' b'
        let _ ← expect ")"
        return x :: rest) c c.ahead.length := by
    refine .bind (h c hn) fun x d hd => ?_
    refine .bind (moreItems_inStep h (by omega) (by omega) (by omega)) fun xs e he => ?_
    refine .expect fun hclosing => ?_
    have := length_advance (Token.isStop_of_is hclosing)
    exact .pure (by omega)
  refine .whether (fun _ ht => Token.is_of_isStop ht ")") (fun hstop => ?_) items
  have := length_advance hstop
  exact .take hstop (.pure (by omega))

end

theorem parameter_matched (n : Nat) : Matched tail tail' parameter parameter n := by
  intro c hc
  refine .identifier fun hstop x => .expect fun hcolon => .writtenType fun hstop' a => ?_
  have h₁ := length_advance hstop
  have h₂ := length_advance (Token.isStop_of_is hcolon)
  have h₃ := length_advance hstop'
  exact .pure (by omega)

/-! ## Operands -/

theorem intLiteral_inStep (hstop : c.peek.isStop = false) :
    InStep tail tail' intLiteral intLiteral c c.ahead.length := by
  have hlength := length_advance hstop
  refine .take hstop ?_
  split
  · exact .pure (by omega)
  · exact .throw

theorem boolLiteral_inStep (hstop : c.peek.isStop = false) :
    InStep tail tail' boolLiteral boolLiteral c c.ahead.length := by
  have hlength := length_advance hstop
  exact .take hstop (.pure (by omega))

theorem loopControl_inStep (control : LoopControl) (hstop : c.peek.isStop = false) :
    InStep tail tail' (loopControl control) (loopControl control) c c.ahead.length := by
  have hlength := length_advance hstop
  exact .take hstop (.pure (by omega))

section

variable {nested nested' : Parser Expr} (h : Matched tail tail' nested nested' n)

include h

section

variable (hn : c.ahead.length ≤ n + 1)

include hn

theorem nameOrCall_inStep (hb : c.ahead.length ≤ b) (hb' : c.ahead.length ≤ b') :
    InStep tail tail' (nameOrCall nested b) (nameOrCall nested' b') c c.ahead.length := by
  refine .identifier fun hstop x => ?_
  have h₁ := length_advance hstop
  refine .take? (fun hopening => ?_) fun _ => .pure (by omega)
  have h₂ := length_advance (Token.isStop_of_is hopening)
  refine .bind (itemsInParentheses_inStep h (by omega) (by omega) (by omega)) fun es d hd => ?_
  exact .pure (by omega)

theorem conditional_inStep : InStep tail tail' (conditional nested) (conditional nested') c c.ahead.length := by
  refine .expectKeyword fun hif => ?_
  have h₁ := length_advance (Token.isStop_of_isKeyword hif)
  refine .bind (h _ (by omega)) fun condition d hd => .expectKeyword fun hthen => ?_
  have h₂ := length_advance (Token.isStop_of_isKeyword hthen)
  refine .bind (h _ (by omega)) fun thenBranch e he => ?_
  refine .whether (fun _ ht => Token.isKeyword_of_isStop ht .elseWord) (fun hstop => ?_) (.pure (by omega))
  have h₃ := length_advance hstop
  refine .take hstop (.bind (h _ (by omega)) fun elseBranch e' he' => ?_)
  exact .pure (by omega)

theorem loop_inStep : InStep tail tail' (loop nested) (loop nested') c c.ahead.length := by
  refine .expectKeyword fun hwhile => ?_
  have h₁ := length_advance (Token.isStop_of_isKeyword hwhile)
  refine .bind (h _ (by omega)) fun condition d hd => .expectKeyword fun hdo => ?_
  have h₂ := length_advance (Token.isStop_of_isKeyword hdo)
  refine .bind (h _ (by omega)) fun body e he => ?_
  exact .pure (by omega)

theorem declaration_inStep : InStep tail tail' (declaration nested) (declaration nested') c c.ahead.length := by
  refine .expectKeyword fun hvar => .identifier fun hstop x => ?_
  have h₁ := length_advance (Token.isStop_of_isKeyword hvar)
  have h₂ := length_advance hstop
  have initial : ∀ (written? : Option WrittenType) (d : Cursor), d.ahead.length < c.ahead.length →
      InStep tail tail'
        (do let _ ← expect "="
            return Expr.declare ⟨c.peek.location, none⟩ x written? (← nested))
        (do let _ ← expect "="
            return Expr.declare ⟨c.peek.location, none⟩ x written? (← nested')) d c.ahead.length := by
    intro written? d hd
    refine .expect fun hequals => ?_
    have h₃ := length_advance (Token.isStop_of_is hequals)
    refine .bind (h _ (by omega)) fun value e he => ?_
    exact .pure (by omega)
  refine .take? (fun hcolon => ?_) fun _ => ?_
  · have h₃ := length_advance (Token.isStop_of_is hcolon)
    simp only [map_eq_pure_bind, bind_assoc, pure_bind]
    refine .writtenType fun hstop' written => ?_
    have h₄ := length_advance hstop'
    exact initial (some written) _ (by omega)
  · simp only [pure_bind]
    exact initial none _ (by omega)

theorem grouping_inStep : InStep tail tail' (grouping nested) (grouping nested') c c.ahead.length := by
  refine .expect fun hopening => ?_
  have h₁ := length_advance (Token.isStop_of_is hopening)
  refine .bind (h _ (by omega)) fun e d hd => .expect fun hclosing => ?_
  have h₂ := length_advance (Token.isStop_of_is hclosing)
  exact .pure (by omega)

end

/-! ## Statements -/

theorem statement_inStep (hn : c.ahead.length ≤ n) :
    InStep tail tail' (statement nested) (statement nested') c c.ahead.length := by
  refine .whether (fun _ ht => Token.isKeyword_of_isStop ht .returnWord) (fun hstop => ?_) (h c hn)
  have h₁ := length_advance hstop
  refine .take hstop ?_
  have value : InStep tail tail' (return Expr.leaveWith ⟨c.peek.location, none⟩ (← nested))
      (return Expr.leaveWith ⟨c.peek.location, none⟩ (← nested')) c.advance c.ahead.length :=
    .bind (h _ (by omega)) fun e d hd => .pure (by omega)
  refine .peek (fun _ => ?_) fun _ t t' ht ht' => ?_
  · split
    · exact .pure (by omega)
    · exact value
  · rw [ht, ht', Bool.or_true, Bool.or_true, if_pos rfl, if_pos rfl]
    exact .pure (by omega)

variable (hneeds : NeedsToken nested) (hneeds' : NeedsToken nested')

include hneeds hneeds'

/-- A sequence takes tokens up to the one that ends it, if there are any. -/
theorem sequence_inStep {enclosure : Enclosure} {definition definition' : Parser FunctionDefinition}
    (hd : Matched tail tail' definition definition' n) (semicolon? : Option Location)
    (hn : c.ahead.length ≤ n) (hb : c.ahead.length ≤ b) (hb' : c.ahead.length ≤ b') :
    InStep tail tail' (sequence enclosure definition nested b semicolon?)
      (sequence enclosure definition' nested' b' semicolon?) c (c.ahead.length + 1) := by
  refine InStep.countdown (p := sequence enclosure definition nested)
    (q := sequence enclosure definition' nested')
    (fun b semicolon? c hstop => sequence_run_of_isStop hneeds hstop b semicolon?)
    (fun b semicolon? c hstop => sequence_run_of_isStop hneeds' hstop b semicolon?)
    (fun semicolon? c _ _ => ?_) ?_ b b' semicolon? c hn hb hb'
  · unfold sequence
    refine .atClosing ?_
    split
    · exact .pure (by omega)
    · exact .unexpected .expression
  · intro b b' ih semicolon? c hn hb hb' _
    unfold sequence
    refine .atClosing ?_
    split
    · exact .pure (by omega)
    · refine .atDefinition ?_
      split
      · refine .bind (hd c hn) fun f d hd => ?_
        refine .bind (ih semicolon? d (by omega) (by omega) (by omega)) fun rest e he => ?_
        exact .pure (by omega)
      · refine .bind (statement_inStep h hn) fun s d hd => ?_
        refine .bind (.statementEnd enclosure s.isReturn hd) fun semicolon? e he => ?_
        refine .bind (ih semicolon? e (by omega) (by omega) (by omega)) fun rest e' he' => ?_
        exact .pure (by omega)

theorem block_inStep (hn : c.ahead.length ≤ n + 1) (hb : c.ahead.length ≤ b) (hb' : c.ahead.length ≤ b') :
    InStep tail tail' (block nested b) (block nested' b') c c.ahead.length := by
  refine .expect fun hopening => ?_
  have h₁ := length_advance (Token.isStop_of_is hopening)
  have hinside : InStep tail tail' (sequence .braces (unexpected .expression) nested b none)
      (sequence .braces (unexpected .expression) nested' b' none) c.advance (c.advance.ahead.length + 1) :=
    sequence_inStep h hneeds hneeds' (fun _ _ => .unexpected _) none (by omega) (by omega) (by omega)
  refine .bind hinside fun inside d hd => .expect fun hclosing => ?_
  have h₂ := length_advance (Token.isStop_of_is hclosing)
  exact .pure (by omega)

theorem definition_inStep (hn : c.ahead.length ≤ n + 1) (hb : c.ahead.length ≤ b)
    (hb' : c.ahead.length ≤ b') :
    InStep tail tail' (definition nested b) (definition nested' b') c c.ahead.length := by
  refine .expectKeyword fun hfun => .identifier fun hname x => .expect fun hopening => ?_
  have h₁ := length_advance (Token.isStop_of_isKeyword hfun)
  have h₂ := length_advance hname
  have h₃ := length_advance (Token.isStop_of_is hopening)
  refine .bind (itemsInParentheses_inStep (parameter_matched _) (Nat.le_refl _) (by omega) (by omega))
    fun parameters d hd => .expect fun hcolon => .writtenType fun htype result => ?_
  have h₄ := length_advance (Token.isStop_of_is hcolon)
  have h₅ := length_advance htype
  refine .bind (block_inStep h hneeds hneeds' (by omega) (by omega) (by omega)) fun body e he => ?_
  exact .pure (by omega)

/-! ## Operators -/

theorem operand_matched (hb : n + 1 ≤ b) (hb' : n + 1 ≤ b') :
    Matched tail tail' (operand nested b) (operand nested' b') (n + 1) := by
  intro c hc
  refine .peek (fun h₁ => ?_) fun h₁ t t' ht ht' => ?_
  · split
    · exact intLiteral_inStep h₁
    · exact boolLiteral_inStep h₁
    · exact nameOrCall_inStep h hc (by omega) (by omega)
    · exact conditional_inStep h hc
    · exact loop_inStep h hc
    · exact declaration_inStep h hc
    · exact loopControl_inStep .exit h₁
    · exact loopControl_inStep .next h₁
    · split
      · exact grouping_inStep h hc
      · split
        · exact block_inStep h hneeds hneeds' hc (by omega) (by omega)
        · exact .unexpected .expression
    · exact .unexpected .expression
  · rw [Token.kind_of_isStop ht, Token.kind_of_isStop ht']
    exact .unexpected .expression

end

section

variable {inner inner' : Parser Expr} (h : Matched tail tail' inner inner' n)

include h

theorem unary_matched (hb : n ≤ b) (hb' : n ≤ b') :
    Matched tail tail' (unary inner b) (unary inner' b') n := by
  intro c hc
  refine InStep.countdown (p := fun b (_ : Unit) => unary inner b) (q := fun b _ => unary inner' b) (k := 0)
    (fun b _ c hstop => unary_run_of_isStop hstop b) (fun b _ c hstop => unary_run_of_isStop hstop b)
    (fun _ c hn _ => h c hn) ?_ b b' () c hc (by omega) (by omega)
  intro b b' ih _ c hn hb hb' hstop
  have hlength := length_advance hstop
  refine .peek (fun _ => ?_) fun ht => absurd ht (Bool.eq_false_iff.1 hstop)
  split
  · exact h c hn
  · refine .take hstop ?_
    refine .bind (ih () _ (by omega) (by omega) (by omega)) fun e d hd => ?_
    exact .pure (by omega)

theorem moreOperands_inStep (ops : List BinaryOp) (lhs : Expr) (hn : c.ahead.length ≤ n)
    (hb : c.ahead.length ≤ b) (hb' : c.ahead.length ≤ b') :
    InStep tail tail' (moreOperands ops inner b lhs) (moreOperands ops inner' b' lhs) c
      (c.ahead.length + 1) := by
  refine InStep.countdown (p := moreOperands ops inner) (q := moreOperands ops inner')
    (fun b lhs c hstop => moreOperands_run_of_isStop hstop b lhs)
    (fun b lhs c hstop => moreOperands_run_of_isStop hstop b lhs)
    (fun _ c _ _ => .pure (by omega)) ?_ b b' lhs c hn hb hb'
  intro b b' ih lhs c hn hb hb' hstop
  have hlength := length_advance hstop
  refine .peek (fun _ => ?_) fun ht => absurd ht (Bool.eq_false_iff.1 hstop)
  split
  · exact .pure (by omega)
  · refine .take hstop (.bind (h _ (by omega)) fun rhs d hd => ?_)
    exact (ih _ d (by omega) (by omega) (by omega)).mono (by omega)

theorem binary_matched (hb : n ≤ b) (hb' : n ≤ b') (levels : List (List BinaryOp)) :
    Matched tail tail' (binary inner b levels) (binary inner' b' levels) n := by
  induction levels with
  | nil => exact h
  | cons ops tighter ih =>
    intro c hc
    refine .bind (ih c hc) fun lhs d hd => ?_
    exact (moreOperands_inStep ih ops lhs (by omega) (by omega) (by omega)).mono (by omega)

end

/-! ## Expressions -/

theorem assignment_matched {nested nested' : Parser Expr} (h : Matched tail tail' nested nested' n)
    (hneeds : NeedsToken nested) (hneeds' : NeedsToken nested') (hb : n + 1 ≤ b) (hb' : n + 1 ≤ b') :
    Matched tail tail' (assignment nested b) (assignment nested' b') (n + 1) := by
  intro c hc
  have hunary := unary_matched (operand_matched h hneeds hneeds' hb hb') hb hb'
  refine .bind (binary_matched hunary hb hb' BinaryOp.levels c hc) fun lhs d hd => ?_
  refine .take? (fun hassign => ?_) fun _ => .pure (by omega)
  have h₁ := length_advance (Token.isStop_of_is hassign)
  refine .bind (h _ (by omega)) fun value e he => ?_
  exact .pure (by omega)

/-- Any bound will do that is at least the number of tokens ahead. -/
theorem expressionWithin_matched (hb : n ≤ b) (hb' : n ≤ b') :
    Matched tail tail' (expressionWithin b) (expressionWithin b') n := by
  intro c hc
  refine InStep.countdown (p := fun b (_ : Unit) => expressionWithin b) (q := fun b _ => expressionWithin b)
    (k := 0) (fun b _ => expressionWithin_needsToken b) (fun b _ => expressionWithin_needsToken b)
    (fun _ c _ _ => .unexpected .expression) ?_ b b' () c hc (by omega) (by omega)
  intro b b' ih _ c hn hb hb' _
  -- inside, a token is taken, so both bounds are one less and still large enough
  have inside : Matched tail tail' (expressionWithin b) (expressionWithin b') (min n (min b b')) :=
    fun c hc => ih () c (by omega) (by omega) (by omega)
  exact assignment_matched inside (expressionWithin_needsToken b) (expressionWithin_needsToken b') (by omega)
    (by omega) c (by omega)

end Exprc.Syntax.Parser

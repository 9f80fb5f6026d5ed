/-
The grammar. From the loosest construct to the tightest: an assignment groups to the right; the
binary operators group to the left, in six levels; the unary operators stand before an operand; and
an operand is a literal, a name, a call, a conditional, a loop, a declaration, a block, or any
expression in parentheses.

Each construct is written for a given parser `nested` of the expressions inside it and, where it
repeats something, for a number `bound` that is at least the number of tokens ahead. A construct has
always taken a token before it calls `nested` or repeats, so expressions nest no deeper than there
are tokens, nothing is repeated more often, and `expressionWithin` ties the knot by counting down
from their number.
-/
import Exprc.Syntax.Cursor
import Exprc.Syntax.Lexer
import Exprc.Syntax.Tree
import Exprc.Text.Numeral

namespace Exprc.Syntax.Parser

open Text

/-! ## Names, types and literals -/

/-- A name. -/
def identifier : Parser Name := do
  let t ← peek
  if t.kind = .identifier then
    let _ ← take
    return ⟨t.location, t.text⟩
  else unexpected .identifier

/-- A written type. -/
def writtenType : Parser WrittenType := do
  let t ← peek
  if t.kind = .identifier then
    match TypeName.ofText? t.text with
    | some name =>
      let _ ← take
      return ⟨t.location, name⟩
    | none => failHere (.unknownType t.text)
  else unexpected .typeName

/-- A number. One that does not fit is left behind. -/
def intLiteral : Parser Expr := do
  let t ← take
  match int64? t.text.toList with
  | some value => return .int ⟨t.location, none⟩ value
  | none => throw (.at t.location (.literalTooLarge t.text))

/-- A truth value. -/
def boolLiteral : Parser Expr := do
  let t ← take
  return .bool ⟨t.location, none⟩ (t.is "true")

/-! ## Statements -/

/-- A statement: a return, whose value may be missing, or any expression. -/
def statement (nested : Parser Expr) : Parser Expr := do
  let t ← peek
  if t.isKeyword .returnWord then
    let _ ← take
    let next ← peek
    if next.is ";" || next.is "\x7d" || next.isStop then return .leave ⟨t.location, none⟩
    else return .leaveWith ⟨t.location, none⟩ (← nested)
  else nested

/-- What is written between braces, or in a whole text. -/
structure Sequence where
  functions : List FunctionDefinition := []
  statements : List Expr := []

/-- Whether the next token ends a sequence. -/
def atClosing (enclosure : Enclosure) : Parser Bool := do
  let t ← peek
  match enclosure with
  | .braces => return t.is "\x7d"
  | .text => return t.isStop

/-- Whether the next token begins the definition of a function where one may stand. -/
def atDefinition (enclosure : Enclosure) : Parser Bool :=
  return enclosure == .text && (← peek).isKeyword .funWord

/-- What follows a statement: a semicolon, whose place is given back, or nothing at the end of the
sequence, behind a brace and before a function. Behind a return the sequence has to end. -/
def statementEnd (enclosure : Enclosure) (isReturn : Bool) : Parser (Option Location) := do
  let semicolon? ← take? ";"
  if semicolon?.isNone then
    unless (← atClosing enclosure) || (← get).isBehindBrace || (← atDefinition enclosure) do
      unexpected (.separator enclosure)
  if isReturn then
    unless ← atClosing enclosure do failHere .returnNotLast
    return none
  else return semicolon?.map (·.location)

/-- Reads a sequence up to the token that ends it. Statements are separated by semicolons; one
behind the last statement makes the unit value the last statement. `definition` reads a function,
and `semicolon?` is the place of the semicolon behind the statement read last. -/
def sequence (enclosure : Enclosure) (definition : Parser FunctionDefinition)
    (nested : Parser Expr) (bound : Nat) (semicolon? : Option Location) : Parser Sequence := do
  if ← atClosing enclosure then
    return { statements := (semicolon?.map fun l => .unit ⟨l, none⟩).toList }
  else match bound with
    | 0 => unexpected .expression
    | bound + 1 =>
      if ← atDefinition enclosure then
        let f ← definition
        let rest ← sequence enclosure definition nested bound semicolon?
        return { rest with functions := f :: rest.functions }
      else
        let s ← statement nested
        let semicolon? ← statementEnd enclosure s.isReturn
        let rest ← sequence enclosure definition nested bound semicolon?
        return { rest with statements := s :: rest.statements }

/-- Statements in braces. -/
def block (nested : Parser Expr) (bound : Nat) : Parser Expr := do
  let opening ← expect "\x7b"
  let inside ← sequence .braces (unexpected .expression) nested bound none
  let _ ← expect "\x7d"
  return .block ⟨opening.location, none⟩ inside.statements

/-! ## Operands -/

/-- A name, or a call if a parenthesis follows. -/
def nameOrCall (nested : Parser Expr) (bound : Nat) : Parser Expr := do
  let name ← identifier
  match ← take? "(" with
  | none => return .name ⟨name.location, none⟩ name.text
  | some _ =>
    return .call ⟨name.location, none⟩ name.text (← itemsInParentheses nested bound)

/-- A conditional with or without an alternative. -/
def conditional (nested : Parser Expr) : Parser Expr := do
  let word ← expectKeyword .ifWord
  let condition ← nested
  let _ ← expectKeyword .thenWord
  let thenBranch ← nested
  if (← peek).isKeyword .elseWord then
    let _ ← take
    return .ifElse ⟨word.location, none⟩ condition thenBranch (← nested)
  else return .ifThen ⟨word.location, none⟩ condition thenBranch

/-- A loop. -/
def loop (nested : Parser Expr) : Parser Expr := do
  let word ← expectKeyword .whileWord
  let condition ← nested
  let _ ← expectKeyword .doWord
  return .loop ⟨word.location, none⟩ condition (← nested)

/-- The declaration of a variable, with or without its type. -/
def declaration (nested : Parser Expr) : Parser Expr := do
  let word ← expectKeyword .varWord
  let name ← identifier
  let written? ← match ← take? ":" with
    | some _ => some <$> writtenType
    | none => pure none
  let _ ← expect "="
  return .declare ⟨word.location, none⟩ name written? (← nested)

/-- An expression in parentheses. -/
def grouping (nested : Parser Expr) : Parser Expr := do
  let _ ← expect "("
  let e ← nested
  let _ ← expect ")"
  return e

/-- A word that leaves an iteration of a loop. -/
def loopControl (control : LoopControl) : Parser Expr := do
  let t ← take
  return .control ⟨t.location, none⟩ control

/-- An operand of the operators. -/
def operand (nested : Parser Expr) (bound : Nat) : Parser Expr := do
  let t ← peek
  match t.kind with
  | .int => intLiteral
  | .bool => boolLiteral
  | .identifier => nameOrCall nested bound
  | .keyword .ifWord => conditional nested
  | .keyword .whileWord => loop nested
  | .keyword .varWord => declaration nested
  | .keyword .breakWord => loopControl .exit
  | .keyword .continueWord => loopControl .next
  | .parenthesis =>
    if t.is "(" then grouping nested
    else if t.is "\x7b" then block nested bound
    else unexpected .expression
  | _ => unexpected .expression

/-! ## Operators -/

/-- The unary operator that a token is, if it is one. -/
def unaryOp? (t : Token) : Option UnaryOp :=
  [UnaryOp.negate, .logicalNot].find? fun op => t.is op.symbol

/-- The one of the given binary operators that a token is, if it is one. -/
def binaryOp? (ops : List BinaryOp) (t : Token) : Option BinaryOp :=
  if t.kind = .operator then ops.find? (·.symbol == t.text) else none

/-- Any number of unary operators, at most `bound`, and what they apply to. -/
def unary (inner : Parser Expr) : Nat → Parser Expr
  | 0 => inner
  | bound + 1 => do
    let t ← peek
    match unaryOp? t with
    | none => inner
    | some op =>
      let _ ← take
      return .unary ⟨t.location, none⟩ op (← unary inner bound)

/-- Further operands behind the operators of one level, at most `bound`; each takes all that was
read before as its left operand. -/
def moreOperands (ops : List BinaryOp) (inner : Parser Expr) : Nat → Expr → Parser Expr
  | 0, lhs => return lhs
  | bound + 1, lhs => do
    let t ← peek
    match binaryOp? ops t with
    | none => return lhs
    | some op =>
      let _ ← take
      let rhs ← inner
      moreOperands ops inner bound (.binary ⟨lhs.location, none⟩ op t.location lhs rhs)

/-- The levels of binary operators, the loosest first, over an innermost parser. -/
def binary (inner : Parser Expr) (bound : Nat) : List (List BinaryOp) → Parser Expr
  | [] => inner
  | ops :: tighter => do
    let lhs ← binary inner bound tighter
    moreOperands ops (binary inner bound tighter) bound lhs

/-- An assignment, or what may stand on its left. -/
def assignment (nested : Parser Expr) (bound : Nat) : Parser Expr := do
  let lhs ← binary (unary (operand nested bound) bound) bound BinaryOp.levels
  match ← take? assignSymbol with
  | none => return lhs
  | some symbol => return .assign ⟨lhs.location, none⟩ symbol.location lhs (← nested)

/-! ## Expressions and modules -/

/-- An expression, with at most `bound` tokens ahead. -/
def expressionWithin : (bound : Nat) → Parser Expr
  | 0 => unexpected .expression
  | bound + 1 => assignment (expressionWithin bound) (bound + 1)

/-- An expression. -/
def expression : Parser Expr := do expressionWithin (← remaining)

/-- A parameter with its type. -/
def parameter : Parser Parameter := do
  let name ← identifier
  let _ ← expect ":"
  return ⟨name, ← writtenType⟩

/-- The definition of a function. -/
def definition (nested : Parser Expr) (bound : Nat) : Parser FunctionDefinition := do
  let word ← expectKeyword .funWord
  let name ← identifier
  let _ ← expect "("
  let parameters ← itemsInParentheses parameter bound
  let _ ← expect ":"
  let result ← writtenType
  let body ← block nested bound
  return ⟨word.location, name, parameters, result, body⟩

/-- A module, which takes all tokens. -/
def module : Parser Module := do
  let location := (← peek).location
  let bound ← remaining
  let nested := expressionWithin bound
  let inside ← sequence .text (definition nested bound) nested bound none
  return ⟨location, inside.functions, .block ⟨location, none⟩ inside.statements⟩

/-- An expression that takes all tokens. -/
def standaloneExpression : Parser Expr := do
  let e ← expression
  if (← peek).isStop then return e else unexpected .endOfText

/-! ## Whole texts -/

/-- What a parser reads from a source text, or why the text has no tokens or the parser fails. -/
def readSource {α : Type} (p : Parser α) (source : Source) : Except Diagnostic α :=
  match tokenize source with
  | .error fault => .error fault.diagnostic
  | .ok tokens =>
    match (p.run (.start tokens)).1 with
    | .error fault => .error fault.diagnostic
    | .ok a => .ok a

end Exprc.Syntax.Parser

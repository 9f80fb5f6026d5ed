/-
A place in a list of tokens, and the parsers that move it. A parser fails with a fault that says
what it looked for and what it found; the cursor then stays where the failure arose. Behind the
last token a parser sees the stop token, as often as it looks.
-/
import Exprc.Diagnostic
import Exprc.Syntax.Token

namespace Exprc.Syntax

/-! ## Failures -/

/-- What encloses a sequence of statements, and so ends it. -/
inductive Enclosure where
  /-- Braces: a closing brace ends the sequence. -/
  | braces
  /-- The whole text: the end of the text ends the sequence. -/
  | text
deriving DecidableEq, Repr

/-- What ends a sequence, in words. -/
def Enclosure.closing : Enclosure → String
  | braces => "`\x7d`"
  | text => "end of input"

/-- What a parser looks for. -/
inductive Expectation where
  | spelling (text : String)
  | identifier
  | typeName
  | expression
  | endOfText
  /-- What may follow a statement. -/
  | separator (enclosure : Enclosure)
deriving DecidableEq, Repr

/-- What a parser looks for, in words. -/
def Expectation.words : Expectation → String
  | spelling text => "`" ++ text ++ "`"
  | identifier => "an identifier"
  | typeName => "a type name"
  | expression => "an expression"
  | endOfText => "end of input"
  | separator enclosure => "`;` or " ++ enclosure.closing

/-- Why tokens form no program. -/
inductive ParseError where
  /-- `found?` is the spelling of the token that stands there, or nothing at the end. -/
  | unexpected (expected : Expectation) (found? : Option String)
  | unknownType (spelling : String)
  | literalTooLarge (spelling : String)
  | returnNotLast
deriving DecidableEq, Repr

/-- The text of a failure. -/
def ParseError.message : ParseError → String
  | unexpected expected none => "expected " ++ expected.words ++ " but found end of input"
  | unexpected expected (some found) =>
    "expected " ++ expected.words ++ " but found `" ++ found ++ "`"
  | unknownType spelling =>
    "unknown type `" ++ spelling ++ "` (expected `Int`, `Bool`, or `Unit`)"
  | literalTooLarge spelling => "integer literal `" ++ spelling ++ "` does not fit in 64 bits"
  | returnNotLast => "`return` must be the last statement in its block"

instance : Cause ParseError := ⟨fun _ => .parse, ParseError.message⟩

/-! ## The cursor -/

/-- A place in a list of tokens: those behind it, the last one first, and those ahead. -/
structure Cursor where
  behind : List Token
  ahead : List Token
deriving DecidableEq, Repr

namespace Cursor

/-- The place before all tokens. -/
def start (tokens : List Token) : Cursor := ⟨[], tokens⟩

/-- The next token. Behind the last one that is a stop token in the same place. -/
def peek (c : Cursor) : Token :=
  match c.ahead, c.behind with
  | t :: _, _ => t
  | [], t :: _ => .stop t.location
  | [], [] => .stop .start

/-- The place behind the next token. -/
def advance (c : Cursor) : Cursor :=
  match c.ahead with
  | t :: rest => ⟨t :: c.behind, rest⟩
  | [] => c

/-- Whether the token just behind is a closing brace. -/
def isBehindBrace (c : Cursor) : Bool := c.behind.head?.any (·.is "\x7d")

end Cursor

/-! ## Parsers -/

/-- Reads something from the tokens ahead. -/
abbrev Parser := ExceptT (Fault ParseError) (StateM Cursor)

namespace Parser

variable {α : Type}

/-- The next token, which stays ahead. -/
def peek : Parser Token := return (← get).peek

/-- The next token, which is left behind. -/
def take : Parser Token := do
  let c ← get
  set c.advance
  return c.peek

/-- The number of tokens ahead. -/
def remaining : Parser Nat := return (← get).ahead.length

/-- Fails because of the next token. -/
def failHere (cause : ParseError) : Parser α := do throw (.at (← peek).location cause)

/-- Fails because the next token is not what is expected. -/
def unexpected (expected : Expectation) : Parser α := do
  let t ← peek
  failHere (.unexpected expected (if t.isStop then none else some t.text))

/-- Takes the next token if it is spelled as given. -/
def take? (text : String) : Parser (Option Token) := do
  if (← peek).is text then return some (← take) else return none

/-- Takes the next token, which has to be spelled as given. -/
def expect (text : String) : Parser Token := do
  if (← peek).is text then take else unexpected (.spelling text)

/-- Takes the next token, which has to be a given keyword. -/
def expectKeyword (word : Keyword) : Parser Token := do
  if (← peek).isKeyword word then take else unexpected (.spelling word.text)

/-- Reads items behind commas as long as a comma follows, at most `bound` of them. -/
def moreItems (item : Parser α) : Nat → Parser (List α)
  | 0 => return []
  | bound + 1 => do
    match ← take? "," with
    | none => return []
    | some _ =>
      let x ← item
      return x :: (← moreItems item bound)

/-- Reads items with commas between them up to a closing parenthesis, which is taken. There are at
most `bound` tokens ahead. -/
def itemsInParentheses (item : Parser α) (bound : Nat) : Parser (List α) := do
  if (← peek).is ")" then
    let _ ← take
    return []
  else
    let x ← item
    let rest ← moreItems item bound
    let _ ← expect ")"
    return x :: rest

end Parser

end Exprc.Syntax

/-
Tokens: the words of the language with their kinds and places. The stop token stands for the end of
the text; it has no text of its own.
-/
import Exprc.Location

namespace Exprc.Syntax

/-- The reserved words, apart from the operators and literals that are spelled as words. -/
inductive Keyword where
  | ifWord | thenWord | elseWord | whileWord | doWord | varWord | returnWord | breakWord
  | continueWord | funWord
deriving DecidableEq, Repr

namespace Keyword

/-- Every keyword. -/
def all : List Keyword :=
  [ifWord, thenWord, elseWord, whileWord, doWord, varWord, returnWord, breakWord, continueWord,
    funWord]

/-- The spelling of a keyword. -/
def text : Keyword → String
  | ifWord => "if"
  | thenWord => "then"
  | elseWord => "else"
  | whileWord => "while"
  | doWord => "do"
  | varWord => "var"
  | returnWord => "return"
  | breakWord => "break"
  | continueWord => "continue"
  | funWord => "fun"

/-- The keyword with a spelling. -/
def ofText? (text : String) : Option Keyword := all.find? (·.text == text)

theorem ofText?_text (k : Keyword) : ofText? k.text = some k := by cases k <;> decide

end Keyword

/-- The kinds of tokens. -/
inductive TokenKind where
  | int
  | bool
  | identifier
  | keyword (word : Keyword)
  | operator
  | punctuation
  | parenthesis
  | stop
deriving DecidableEq, Repr

/-- A token: its kind, its characters and the place of the first of them. -/
structure Token where
  kind : TokenKind
  text : String
  location : Location
deriving DecidableEq, Repr

namespace Token

/-- The end of the text, at a place. -/
def stop (location : Location) : Token := ⟨.stop, "", location⟩

/-- Whether a token is spelled as given. The end of the text is spelled like nothing. -/
def is (t : Token) (text : String) : Bool := t.kind != .stop && t.text == text

/-- Whether a token is the end of the text. -/
def isStop (t : Token) : Bool := t.kind == .stop

/-- Whether a token is a given keyword. -/
def isKeyword (t : Token) (word : Keyword) : Bool := t.kind == .keyword word

theorem is_stop (location : Location) (text : String) : (stop location).is text = false := rfl

end Token

end Exprc.Syntax

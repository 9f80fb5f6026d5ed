/-
From characters to tokens. Between two tokens there may be blanks and comments: from `//` or `#` to
the end of the line, or from `/*` to the next `*/`. A token is the longest run of characters that
forms one: a run of digits, a word, one of the comparison operators of two characters, or a single
symbol.
-/
import Exprc.Diagnostic
import Exprc.Syntax.Token
import Exprc.Text.Blank

namespace Exprc.Syntax

open Text

/-! ## Failures -/

/-- Why a text has no tokens. -/
inductive LexError where
  /-- A comment that is opened and never closed. -/
  | unclosedComment
  /-- A character that begins no token. -/
  | strayCharacter (c : Char)
deriving DecidableEq, Repr

/-- The text of a failure. -/
def LexError.message : LexError → String
  | .unclosedComment => "unterminated block comment"
  | .strayCharacter c => "unexpected character in stream: `" ++ c.toString ++ "`"

instance : Cause LexError := ⟨fun _ => .lex, LexError.message⟩

/-! ## Words and symbols -/

/-- Whether a character can begin a word. -/
def isWordStart (c : Char) : Bool := c.isAlpha || c == '_'

/-- Whether a character can continue a word. -/
def isWordPart (c : Char) : Bool := c.isAlphanum || c == '_'

/-- The kind of a word. -/
def wordKind (word : String) : TokenKind :=
  match Keyword.ofText? word with
  | some k => .keyword k
  | none =>
    if ["and", "or", "not"].contains word then .operator
    else if ["true", "false"].contains word then .bool
    else .identifier

/-- The kind of a symbol of one character. -/
def symbolKind? (c : Char) : Option TokenKind :=
  if ['(', ')', '{', '}'].contains c then some .parenthesis
  else if [',', ':', ';'].contains c then some .punctuation
  else if ['+', '-', '*', '/', '%', '=', '<', '>'].contains c then some .operator
  else none

/-- Whether a character followed by `=` is a comparison operator. -/
def opensComparison (c : Char) : Bool := ['=', '!', '<', '>'].contains c

/-- The kind and the characters of the token that a text begins with. -/
def lexeme? : List Char → Option (TokenKind × List Char)
  | [] => none
  | c :: cs =>
    if c.isDigit then some (.int, c :: cs.takeWhile Char.isDigit)
    else if isWordStart c then
      let word := c :: cs.takeWhile isWordPart
      some (wordKind (String.ofList word), word)
    else if opensComparison c && cs.head? == some '=' then some (.operator, [c, '='])
    else (symbolKind? c).map fun kind => (kind, [c])

/-! ## Blanks and comments -/

/-- A text that is being read: the characters ahead and the place of the first of them. -/
structure Reader where
  ahead : List Char
  location : Location
deriving DecidableEq, Repr

/-- A reader at the beginning of a text. -/
def Reader.start (cs : List Char) : Reader := ⟨cs, .start⟩

/-- What a reader is in while it looks for a token. -/
inductive Gap where
  | blanks
  | lineComment
  | blockComment (opened : Location)
deriving DecidableEq, Repr

/-- Reads on to the next token; with it, where a comment was opened that never closes. -/
def skip : Gap → Location → List Char → Reader × Option Location
  | .blockComment opened, l, [] => (⟨[], l⟩, some opened)
  | .blanks, l, [] | .lineComment, l, [] => (⟨[], l⟩, none)
  | .lineComment, l, c :: cs =>
    if c = '\n' then skip .blanks (l.after c) cs else skip .lineComment (l.after c) cs
  | .blockComment _, l, '*' :: '/' :: cs => skip .blanks ((l.after '*').after '/') cs
  | .blockComment opened, l, c :: cs => skip (.blockComment opened) (l.after c) cs
  | .blanks, l, '/' :: '/' :: cs => skip .lineComment ((l.after '/').after '/') cs
  | .blanks, l, '/' :: '*' :: cs => skip (.blockComment l) ((l.after '/').after '*') cs
  | .blanks, l, '#' :: cs => skip .lineComment (l.after '#') cs
  | .blanks, l, c :: cs =>
    if isBlank c then skip .blanks (l.after c) cs else (⟨c :: cs, l⟩, none)

/-! ## Tokens -/

/-- Reads the next token, if there is one. A stray character stays ahead; behind a comment that
never closes there is nothing left to read. -/
def Reader.next (r : Reader) : Except (Fault LexError) (Option Token) × Reader :=
  match skip .blanks r.location r.ahead with
  | (r, some opened) => (.error (.at opened .unclosedComment), r)
  | (⟨[], l⟩, none) => (.ok none, ⟨[], l⟩)
  | (⟨c :: cs, l⟩, none) =>
    match lexeme? (c :: cs) with
    | none => (.error (.at l (.strayCharacter c)), ⟨c :: cs, l⟩)
    | some (kind, text) =>
      (.ok (some ⟨kind, String.ofList text, l⟩), ⟨(c :: cs).drop text.length, l.afterAll text⟩)

theorem skip_length_le (gap : Gap) (l : Location) (cs : List Char) :
    (skip gap l cs).1.ahead.length ≤ cs.length := by
  fun_induction skip gap l cs <;> simp_all <;> omega

theorem lexeme?_length_pos {cs text : List Char} {kind : TokenKind}
    (h : lexeme? cs = some (kind, text)) : 0 < text.length := by
  unfold lexeme? at h
  split at h
  · cases h
  · split at h
    · simp only [Option.some.injEq, Prod.mk.injEq] at h; simp [← h.2]
    · split at h
      · simp only [Option.some.injEq, Prod.mk.injEq] at h; simp [← h.2]
      · split at h
        · simp only [Option.some.injEq, Prod.mk.injEq] at h; simp [← h.2]
        · simp only [Option.map_eq_some_iff, Prod.mk.injEq] at h
          obtain ⟨_, _, _, rfl⟩ := h
          simp

/-- A reader that has read a token has less ahead. -/
theorem Reader.next_length_lt {r r' : Reader} {t : Token} (h : r.next = (.ok (some t), r')) :
    r'.ahead.length < r.ahead.length := by
  have hs := skip_length_le .blanks r.location r.ahead
  unfold Reader.next at h
  split at h
  · cases h
  · cases h
  · rename_i c cs l hskip
    split at h
    · cases h
    · rename_i kind text hlex
      have hpos := lexeme?_length_pos hlex
      cases h
      simp only [hskip, List.length_cons] at hs
      simp only [List.length_drop, List.length_cons]
      omega

/-- The tokens ahead of a reader, the stop token last. -/
def Reader.tokens (r : Reader) : Except (Fault LexError) (List Token) :=
  match _ : r.next with
  | (.error e, _) => .error e
  | (.ok none, r') => .ok [.stop r'.location]
  | (.ok (some t), r') => (t :: ·) <$> r'.tokens
termination_by r.ahead.length
decreasing_by exact Reader.next_length_lt ‹_›

/-- The tokens of a source text, the stop token last. -/
def tokenize (source : Source) : Except (Fault LexError) (List Token) :=
  (Reader.start source.chars).tokens

end Exprc.Syntax

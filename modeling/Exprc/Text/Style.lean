/-
Styled text: pieces of text that a terminal shows in a style. `Styled.plain` forgets the styles
and `Styled.coloured` writes them as control sequences: the style's sequence, the piece, and the
sequence that resets the terminal. A reset inside a piece would end its style early, so the style
is opened again behind it.
-/
namespace Exprc.Text

/-- The styles in use. -/
inductive Ink where
  | red | green | blue | magenta | cyan | white | brightRed | boldRed | boldGreen
deriving DecidableEq, Repr

/-- The parameters that select a style. -/
def Ink.parameters : Ink → String
  | .red => "31"
  | .green => "32"
  | .blue => "34"
  | .magenta => "35"
  | .cyan => "36"
  | .white => "37"
  | .brightRed => "91"
  | .boldRed => "1;31"
  | .boldGreen => "1;32"

/-- The control sequence that opens a style. -/
def Ink.opening (ink : Ink) : List Char := '\x1b' :: '[' :: (ink.parameters.toList ++ ['m'])

/-- The control sequence that ends every style. -/
def reset : List Char := ['\x1b', '[', '0', 'm']

/-- Puts `opening` behind each reset. -/
def reopen (opening : List Char) : List Char → List Char
  | '\x1b' :: '[' :: '0' :: 'm' :: cs => reset ++ opening ++ reopen opening cs
  | c :: cs => c :: reopen opening cs
  | [] => []

/-- A text in a style, as a terminal takes it. -/
def Ink.paint (ink : Ink) (text : String) : String :=
  String.ofList (ink.opening ++ reopen ink.opening text.toList ++ reset)

/-- A piece of text and the style it is shown in, if any. -/
structure Span where
  text : String
  ink? : Option Ink := none
deriving DecidableEq, Repr

/-- A text made of styled pieces. -/
abbrev Styled := List Span

/-- A piece in no style. -/
def raw (text : String) : Span := { text }

/-- A piece in a style. -/
def inked (ink : Ink) (text : String) : Span := { text, ink? := some ink }

/-- One piece with its control sequences. -/
def Span.coloured (s : Span) : String :=
  match s.ink? with
  | some ink => ink.paint s.text
  | none => s.text

/-- The text without styles. -/
def Styled.plain (s : Styled) : String := String.join (s.map (·.text))

/-- The text with control sequences for its styles. -/
def Styled.coloured (s : Styled) : String := String.join (s.map Span.coloured)

/-- The text for a terminal with or without colours. -/
def Styled.render (colours : Bool) (s : Styled) : String :=
  if colours then s.coloured else s.plain

/-- Several texts with a separator between neighbours. -/
def Styled.join (separator : String) : List Styled → Styled
  | [] => []
  | [s] => s
  | s :: rest => s ++ raw separator :: Styled.join separator rest

end Exprc.Text

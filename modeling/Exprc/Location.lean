/-
Places in a source text: line and column, both counted from 1, columns in characters. Only a line
feed starts a new line.
-/
namespace Exprc

/-- The place of a character. -/
structure Location where
  line : Nat
  column : Nat
deriving DecidableEq, Repr, Inhabited

namespace Location

/-- The place of the first character. -/
def start : Location := ⟨1, 1⟩

/-- Stands for a place when nothing in the source is to blame. -/
def nowhere : Location := ⟨0, 0⟩

/-- The place behind a character. -/
def after (l : Location) (c : Char) : Location :=
  if c = '\n' then ⟨l.line + 1, 1⟩ else ⟨l.line, l.column + 1⟩

/-- The place behind a text. -/
def afterAll (l : Location) (cs : List Char) : Location := cs.foldl after l

/-- Line and column with a colon between them. -/
def text (l : Location) : String := toString l.line ++ ":" ++ toString l.column

theorem afterAll_append (l : Location) (cs ds : List Char) :
    l.afterAll (cs ++ ds) = (l.afterAll cs).afterAll ds := by
  simp [afterAll]

end Location

end Exprc

/-
Source texts: what a program was read from, its characters, and its lines. A line is what stands
before a line feed, without one carriage return just before it; what follows the last line feed is
a line only if it is not empty.
-/
import Exprc.Location

namespace Exprc

/-- Where a source text comes from. -/
inductive Origin where
  | memory
  | stdin
  | file (path : String)
deriving DecidableEq, Repr

/-- The name by which messages refer to an origin. -/
def Origin.name : Origin → String
  | .memory => "<memory>"
  | .stdin => "<stdin>"
  | .file path => path

/-- A source text. -/
structure Source where
  contents : String
  origin : Origin := .memory
deriving DecidableEq, Repr

/-- The lines of a text. -/
def linesOf : List Char → List (List Char)
  | [] => []
  | '\n' :: cs => [] :: linesOf cs
  | '\r' :: '\n' :: cs => [] :: linesOf cs
  | c :: cs =>
    match linesOf cs with
    | [] => [[c]]
    | l :: ls => (c :: l) :: ls

namespace Source

/-- The characters of the text. -/
def chars (s : Source) : List Char := s.contents.toList

/-- The line with a given number, counted from 1. -/
def line? (s : Source) : Nat → Option String
  | 0 => none
  | n + 1 => ((linesOf s.chars)[n]?).map String.ofList

/-- A place in this source, for a message. -/
def locate (s : Source) (l : Location) : String := s.origin.name ++ ":" ++ l.text

end Source

end Exprc

/-
What a failed stage of the compiler reports. A stage fails with a `Fault`: a cause, which is data
of that stage, and the place to blame, if there is one. A `Diagnostic` is the same in words, with
the kind of the failure; it is shown either in one line (`describe`) or with the line of the
source that it points into (`render`).
-/
import Exprc.Source
import Exprc.Text.Style

namespace Exprc

open Text

/-! ## Kinds and faults -/

/-- The kinds of failure, one for each thing that can go wrong between a text and its program. -/
inductive Kind where
  | lex | parse | scope | type | ir | codegen | runtime | build
deriving DecidableEq, Repr

/-- The word for a kind. -/
def Kind.name : Kind → String
  | .lex => "lex"
  | .parse => "parse"
  | .scope => "scope"
  | .type => "type"
  | .ir => "ir"
  | .codegen => "codegen"
  | .runtime => "runtime"
  | .build => "build"

/-- A cause of failure and the place it is blamed on. -/
structure Fault (ε : Type) where
  location? : Option Location
  cause : ε
deriving DecidableEq, Repr

/-- A fault blamed on a place. -/
def Fault.at {ε : Type} (location : Location) (cause : ε) : Fault ε := ⟨some location, cause⟩

/-- A fault that is not blamed on any place. -/
def Fault.unlocated {ε : Type} (cause : ε) : Fault ε := ⟨none, cause⟩

/-- A type of causes, each of a kind and with a text. -/
class Cause (ε : Type) where
  kind : ε → Kind
  message : ε → String

/-! ## Diagnostics -/

/-- A failure in words. `raisedAt?` names the place in the compiler that found it, if known. -/
structure Diagnostic where
  kind : Kind
  location? : Option Location
  message : String
  raisedAt? : Option String := none
deriving DecidableEq, Repr

/-- A fault in words. -/
def Fault.diagnostic {ε : Type} [Cause ε] (f : Fault ε) : Diagnostic :=
  { kind := Cause.kind f.cause, location? := f.location?, message := Cause.message f.cause }

/-- The source line of a place behind its number, and below it a caret under the column. -/
def highlight? (source : Source) (l : Location) : Option Styled := do
  let line ← source.line? l.line
  let gutter := toString l.line
  return [inked .blue gutter, raw " ", inked .blue "|", raw (" " ++ line ++ "\n"),
    raw ("".pushn ' ' gutter.length ++ " "), inked .blue "|",
    raw (" " ++ "".pushn ' ' (l.column - 1)), inked .boldRed "^"]

namespace Diagnostic

/-- The failure in one line. -/
def describe (d : Diagnostic) : String :=
  let place := match d.location? with
    | some l => " (at line " ++ toString l.line ++ ", column " ++ toString l.column ++ ")"
    | none => ""
  d.kind.name ++ " error: " ++ d.message ++ place

/-- The place of the failure in a source, with its line if the source has that line. -/
def context (d : Diagnostic) (source : Source) : Styled :=
  match d.location? with
  | some l =>
    inked .white ("(at " ++ source.locate l ++ ")") ::
      match highlight? source l with
      | some lines => raw "\n" :: lines
      | none => []
  | none => [inked .white ("(in " ++ source.origin.name ++ ")")]

/-- The failure as a terminal shows it. -/
def render (d : Diagnostic) (source : Source) : Styled :=
  let backtrace := match d.raisedAt? with
    | some place => [raw "\n", inked .blue "backtrace", raw (": " ++ place)]
    | none => []
  [inked .boldRed ("error[" ++ d.kind.name ++ "]"), raw (": " ++ d.message ++ " ")]
    ++ d.context source ++ backtrace

end Diagnostic

end Exprc

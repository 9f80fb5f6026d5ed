/-
What a run exchanges with the outside: bytes to read, text that has been printed, and a sink that
may refuse what is printed. Reading an integer takes a whole line, whatever it holds.
-/
import Exprc.IR.Value
import Exprc.Text.Blank
import Exprc.Text.Numeral
import Exprc.Text.Utf8

namespace Exprc.IR

open Text

/-- The bytes that are left to read, and all that was printed. -/
structure World where
  input : List UInt8
  output : String := ""
deriving DecidableEq, Repr

/-- Where printed text goes: for each text, whether the sink fails to take it, and why, after what
it took before. -/
structure Sink where
  writeFailure? : (taken : String) → (text : String) → Option String := fun _ _ => none
  flushFailure? : (taken : String) → Option String := fun _ => none

/-- The first line of some bytes, its line feed included, and the rest. -/
def splitLine : List UInt8 → List UInt8 × List UInt8
  | [] => ([], [])
  | b :: bs =>
    if b = 10 then ([b], bs)
    else
      let (line, rest) := splitLine bs
      (b :: line, rest)

theorem splitLine_append (bs : List UInt8) : (splitLine bs).1 ++ (splitLine bs).2 = bs := by
  induction bs with
  | nil => rfl
  | cons b bs ih => by_cases h : b = 10 <;> simp [splitLine, h, ih]

/-- The integer that a line holds between blanks. -/
def integerOfLine (line : List UInt8) : Except RuntimeError Int64 :=
  if line.isEmpty then .error .endOfInput
  else match decodeUtf8? line with
    | none => .error .unreadable
    | some text =>
      let numeral := trim text.toList
      match int64? numeral with
      | some n => .ok n
      | none => .error (.notInteger (String.ofList numeral))

namespace World

/-- Reads an integer from the next line. -/
def readInt (w : World) : Except RuntimeError Int64 × World :=
  let (line, rest) := splitLine w.input
  (integerOfLine line, { w with input := rest })

/-- Prints a value in a line of its own; the result is the unit value. -/
def print (w : World) (sink : Sink) (value : Value) : Except RuntimeError Value × World :=
  let line := value.text ++ "\n"
  match sink.writeFailure? w.output line with
  | some reason => (.error (.writeFailed reason), w)
  | none => (.ok .unit, { w with output := w.output ++ line })

/-- Calls a built-in function. -/
def callBuiltin (w : World) (sink : Sink) (b : Builtin) (arguments : List Value) :
    Except RuntimeError Value × World :=
  match b, arguments with
  | .readInt, [] =>
    let (read, w) := w.readInt
    (read.map .int, w)
  | .printInt, [.int n] => w.print sink (.int n)
  | .printBool, [.bool b] => w.print sink (.bool b)
  | b, arguments => (operate b arguments, w)

end World

end Exprc.IR

/-
The values that programs compute with, the failures of a run, and the operators on values.
Arithmetic is that of 64-bit words and wraps around; only a division by zero fails.
-/
import Exprc.Diagnostic
import Exprc.IR.Basic

namespace Exprc.IR

/-- A value. -/
inductive Value where
  | int (n : Int64)
  | bool (b : Bool)
  | unit
deriving DecidableEq, Repr

/-- The text of a value. -/
def Value.text : Value → String
  | int n => toString n
  | bool b => toString b
  | unit => "unit"

/-- Why a run fails. -/
inductive RuntimeError where
  -- in the program
  | noEntryPoint
  | unassigned (v : Var)
  | notBool (condition : Var) (found : Value)
  | undefinedLabel (l : Label)
  | notFunction (callee : Var)
  | unknownFunction (name : String)
  | wrongCount (name : String) (expected given : Nat)
  | inapplicable (b : Builtin) (arguments : List Value)
  -- in the computation
  | divisionByZero
  | stackOverflow (name : String)
  -- in what is read and written
  | endOfInput
  | unreadable
  | notInteger (found : String)
  | writeFailed (reason : String)
  | flushFailed (reason : String)
deriving DecidableEq, Repr

/-- The text of a failure. -/
def RuntimeError.message : RuntimeError → String
  | noEntryPoint => "module has no entry point"
  | unassigned v => "`" ++ v.text ++ "` is read before it is assigned"
  | notBool condition found =>
    "jump condition `" ++ condition.text ++ "` holds `" ++ found.text ++ "` instead of a Bool"
  | undefinedLabel l => "jump to undefined label `" ++ l.text ++ "`"
  | notFunction callee => "`" ++ callee.text ++ "` is not a function"
  | unknownFunction name => "unknown function `" ++ name ++ "`"
  | wrongCount name expected given =>
    "`" ++ name ++ "` takes " ++ toString expected ++ " argument(s) but " ++ toString given
      ++ " were given"
  | inapplicable b arguments =>
    "`" ++ b.name ++ "` cannot be applied to ("
      ++ ", ".intercalate (arguments.map (·.text)) ++ ")"
  | divisionByZero => "division by zero"
  | stackOverflow name => "call stack overflow while calling `" ++ name ++ "`"
  | endOfInput => "`read_int` reached end of input"
  | unreadable => "failed to read input: stream did not contain valid UTF-8"
  | notInteger found => "`read_int` expected an integer but read `" ++ found ++ "`"
  | writeFailed reason => "failed to write output: " ++ reason
  | flushFailed reason => "failed to flush output: " ++ reason

instance : Cause RuntimeError := ⟨fun _ => .runtime, RuntimeError.message⟩

/-- The result of an operator on values. -/
def operate : Builtin → List Value → Except RuntimeError Value
  | .add, [.int a, .int b] => .ok (.int (a + b))
  | .subtract, [.int a, .int b] => .ok (.int (a - b))
  | .multiply, [.int a, .int b] => .ok (.int (a * b))
  | .divide, [.int a, .int b] =>
    if b = 0 then .error .divisionByZero else .ok (.int (a / b))
  | .modulus, [.int a, .int b] =>
    if b = 0 then .error .divisionByZero else .ok (.int (a % b))
  | .lessThan, [.int a, .int b] => .ok (.bool (decide (a < b)))
  | .greaterThan, [.int a, .int b] => .ok (.bool (decide (b < a)))
  | .lessThanOrEqual, [.int a, .int b] => .ok (.bool (decide (a ≤ b)))
  | .greaterThanOrEqual, [.int a, .int b] => .ok (.bool (decide (b ≤ a)))
  | .equals, [a, b] => .ok (.bool (decide (a = b)))
  | .notEquals, [a, b] => .ok (.bool (decide (a ≠ b)))
  | .logicalAnd, [.bool a, .bool b] => .ok (.bool (a && b))
  | .logicalOr, [.bool a, .bool b] => .ok (.bool (a || b))
  | .logicalNot, [.bool a] => .ok (.bool !a)
  | .negate, [.int a] => .ok (.int (-a))
  | b, arguments => .error (.inapplicable b arguments)

end Exprc.IR

/-
Why a program has no type: a name is used wrongly, or something has another type than it needs.
-/
import Exprc.Builtin
import Exprc.Diagnostic

namespace Exprc.Typing

/-- Why a program has no type. -/
inductive TypeError where
  -- names
  | reservedName
  | builtinRedefined (b : Builtin)
  | functionRedeclared (name : String)
  | parameterRedeclared (name : String)
  | redeclared (name : String)
  | undeclared (name : String)
  -- uses of names
  | builtinAsValue (b : Builtin)
  | functionAsValue (name : String)
  | notCallable (b : Builtin)
  | notFunction (name : String) (found : Ty)
  | wrongCount (name : String) (expected given : Nat)
  | targetNotVariable
  | returnOutsideFunction
  -- types
  | conflict (before now : Ty)
  | unequalOperands (b : Builtin) (left right : Ty)
  | wrongOperands (b : Builtin) (expected found : List Ty)
  | wrongArgument (expected found : Ty)
  | wrongCondition (found : Ty)
  | differentBranches (thenType elseType : Ty)
  | wrongInitial (name : String) (declared found : Ty)
  | wrongAssignment (found declared : Ty)
  | wrongReturn (found declared : Ty)
  | wrongBody (name : String) (declared found : Ty)
deriving DecidableEq, Repr

namespace TypeError

/-- Failures about what a name stands for are failures of scope. -/
def kind : TypeError → Kind
  | reservedName | builtinRedefined _ | functionRedeclared _ | parameterRedeclared _
  | redeclared _ | undeclared _ => .scope
  | _ => .type

/-- A piece of program text inside a message. -/
def quoted (text : String) : String := "`" ++ text ++ "`"

/-- The text of a failure. -/
def message : TypeError → String
  | reservedName => quoted entryPoint ++ " is reserved for the top-level statements"
  | builtinRedefined b => quoted b.name ++ " is a built-in and cannot be redefined"
  | functionRedeclared name => "function " ++ quoted name ++ " is already declared"
  | parameterRedeclared name => "parameter " ++ quoted name ++ " is declared more than once"
  | redeclared name => quoted name ++ " is already declared in this block"
  | undeclared name => quoted name ++ " is not declared"
  | builtinAsValue b => "built-in " ++ quoted b.name ++ " can only be called"
  | functionAsValue name => "function " ++ quoted name ++ " can only be called"
  | notCallable b => quoted b.name ++ " cannot be called by name"
  | notFunction name found =>
    quoted name ++ " has type " ++ quoted found.text ++ " and is not a function"
  | wrongCount name expected given =>
    quoted name ++ " takes " ++ toString expected ++ " argument(s) but " ++ toString given
      ++ " were given"
  | targetNotVariable => "the left side of `=` must be a variable"
  | returnOutsideFunction => "`return` is only allowed inside a function"
  | conflict before now =>
    "expression was previously inferred as " ++ quoted before.text ++ " but is now "
      ++ quoted now.text
  | unequalOperands b left right =>
    quoted b.name ++ " needs two operands of the same type (Int or Bool) but found "
      ++ quoted left.text ++ " and " ++ quoted right.text
  | wrongOperands b expected found =>
    quoted b.name ++ " expects (" ++ Ty.listText expected ++ ") but found ("
      ++ Ty.listText found ++ ")"
  | wrongArgument expected found =>
    "expected an argument of type " ++ quoted expected.text ++ " but found " ++ quoted found.text
  | wrongCondition found => "condition must be `Bool` but found " ++ quoted found.text
  | differentBranches thenType elseType =>
    "`if` branches have different types: " ++ quoted thenType.text ++ " and "
      ++ quoted elseType.text
  | wrongInitial name declared found =>
    "variable " ++ quoted name ++ " is declared as " ++ quoted declared.text
      ++ " but initialized with " ++ quoted found.text
  | wrongAssignment found declared =>
    "cannot assign " ++ quoted found.text ++ " to a variable of type " ++ quoted declared.text
  | wrongReturn found declared =>
    "returning " ++ quoted found.text ++ " from a function declared to return "
      ++ quoted declared.text
  | wrongBody name declared found =>
    "function " ++ quoted name ++ " is declared to return " ++ quoted declared.text
      ++ " but its body has type " ++ quoted found.text

end TypeError

instance : Cause TypeError := ⟨TypeError.kind, TypeError.message⟩

end Exprc.Typing

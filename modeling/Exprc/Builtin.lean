/-
The functions that every program has: one for each operator, and three that reach the outside
world. Each is known by a name, and in every program those names are taken.
-/
import Exprc.Syntax.Operator
import Exprc.Ty

namespace Exprc

open Syntax

/-- The name of the function that holds a program's top-level statements. -/
def entryPoint : String := "main"

/-- The built-in functions. -/
inductive Builtin where
  | add | subtract | multiply | divide | modulus
  | lessThan | greaterThan | lessThanOrEqual | greaterThanOrEqual
  | equals | notEquals
  | logicalAnd | logicalOr | logicalNot
  | negate
  | printInt | printBool | readInt
deriving DecidableEq, Repr

/-- What a built-in function works on. -/
inductive BuiltinClass where
  /-- Two integers to an integer. -/
  | arithmetic
  /-- Two integers to a boolean. -/
  | relational
  /-- Two booleans to a boolean. -/
  | logical
  /-- Two integers or two booleans to a boolean. -/
  | equality
  /-- An integer to an integer. -/
  | negation
  /-- A boolean to a boolean. -/
  | logicalNegation
  /-- Reads or prints. -/
  | intrinsic
deriving DecidableEq, Repr

namespace Builtin

/-- Every built-in function. -/
def all : List Builtin :=
  [add, subtract, multiply, divide, modulus, lessThan, greaterThan, lessThanOrEqual,
    greaterThanOrEqual, equals, notEquals, logicalAnd, logicalOr, logicalNot, negate, printInt,
    printBool, readInt]

/-- The name of a built-in function. -/
def name : Builtin → String
  | add => "+"
  | subtract => "-"
  | multiply => "*"
  | divide => "/"
  | modulus => "%"
  | lessThan => "<"
  | greaterThan => ">"
  | lessThanOrEqual => "<="
  | greaterThanOrEqual => ">="
  | equals => "=="
  | notEquals => "!="
  | logicalAnd => "and"
  | logicalOr => "or"
  | logicalNot => "not"
  | negate => "unary_-"
  | printInt => "print_int"
  | printBool => "print_bool"
  | readInt => "read_int"

/-- The built-in function with a name. -/
def ofName? (name : String) : Option Builtin := all.find? (·.name == name)

theorem mem_all (b : Builtin) : b ∈ all := by cases b <;> decide

theorem ofName?_name (b : Builtin) : ofName? b.name = some b := by cases b <;> decide

/-- The class of a built-in function. -/
def kind : Builtin → BuiltinClass
  | add | subtract | multiply | divide | modulus => .arithmetic
  | lessThan | greaterThan | lessThanOrEqual | greaterThanOrEqual => .relational
  | equals | notEquals => .equality
  | logicalAnd | logicalOr => .logical
  | logicalNot => .logicalNegation
  | negate => .negation
  | printInt | printBool | readInt => .intrinsic

/-- Whether a built-in function reads or prints. -/
def isIntrinsic (b : Builtin) : Bool := b.kind == .intrinsic

/-- The signature of a built-in function. The equality operators take two types of operands and
have none. -/
def signature? (b : Builtin) : Option Signature :=
  match b.kind with
  | .arithmetic => some ⟨[.int, .int], .int⟩
  | .relational => some ⟨[.int, .int], .bool⟩
  | .logical => some ⟨[.bool, .bool], .bool⟩
  | .negation => some ⟨[.int], .int⟩
  | .logicalNegation => some ⟨[.bool], .bool⟩
  | .equality => none
  | .intrinsic =>
    match b with
    | printInt => some ⟨[.int], .unit⟩
    | printBool => some ⟨[.bool], .unit⟩
    | _ => some ⟨[], .int⟩

end Builtin

/-- The function of a binary operator. -/
def Syntax.BinaryOp.builtin : BinaryOp → Builtin
  | add => .add
  | subtract => .subtract
  | multiply => .multiply
  | divide => .divide
  | modulus => .modulus
  | equals => .equals
  | notEquals => .notEquals
  | lessThan => .lessThan
  | lessThanOrEqual => .lessThanOrEqual
  | greaterThan => .greaterThan
  | greaterThanOrEqual => .greaterThanOrEqual
  | logicalAnd => .logicalAnd
  | logicalOr => .logicalOr

/-- The function of a unary operator. -/
def Syntax.UnaryOp.builtin : UnaryOp → Builtin
  | negate => .negate
  | logicalNot => .logicalNot

end Exprc

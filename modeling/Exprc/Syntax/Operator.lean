/-
The operators: their symbols and how tightly the binary ones bind. Assignment stands between two
operands too, but it is a construct of its own.
-/
namespace Exprc.Syntax

/-- The operators with two operands. -/
inductive BinaryOp where
  | add | subtract | multiply | divide | modulus
  | equals | notEquals
  | lessThan | lessThanOrEqual | greaterThan | greaterThanOrEqual
  | logicalAnd | logicalOr
deriving DecidableEq, Repr

namespace BinaryOp

/-- Every binary operator. -/
def all : List BinaryOp :=
  [add, subtract, multiply, divide, modulus, equals, notEquals, lessThan, lessThanOrEqual,
    greaterThan, greaterThanOrEqual, logicalAnd, logicalOr]

/-- The symbol of a binary operator. -/
def symbol : BinaryOp → String
  | add => "+"
  | subtract => "-"
  | multiply => "*"
  | divide => "/"
  | modulus => "%"
  | equals => "=="
  | notEquals => "!="
  | lessThan => "<"
  | lessThanOrEqual => "<="
  | greaterThan => ">"
  | greaterThanOrEqual => ">="
  | logicalAnd => "and"
  | logicalOr => "or"

/-- The binary operator with a symbol. -/
def ofSymbol? (text : String) : Option BinaryOp := all.find? (·.symbol == text)

theorem ofSymbol?_symbol (op : BinaryOp) : ofSymbol? op.symbol = some op := by
  cases op <;> decide

/-- Whether the right operand is only evaluated when the left one does not decide the result. -/
def isShortCircuit : BinaryOp → Bool
  | logicalAnd | logicalOr => true
  | _ => false

/-- The binary operators by how tightly they bind, the loosest first. Operators that bind equally
tightly group to the left. -/
def levels : List (List BinaryOp) :=
  [[logicalOr], [logicalAnd], [equals, notEquals],
    [lessThan, greaterThan, lessThanOrEqual, greaterThanOrEqual],
    [add, subtract], [multiply, divide, modulus]]

end BinaryOp

/-- The operators with one operand, which stand before it. -/
inductive UnaryOp where
  | negate | logicalNot
deriving DecidableEq, Repr

/-- The symbol of a unary operator. -/
def UnaryOp.symbol : UnaryOp → String
  | negate => "-"
  | logicalNot => "not"

/-- What may stand between two operands. -/
inductive Connective where
  | assign
  | operator (op : BinaryOp)
deriving DecidableEq, Repr

/-- The symbol that assigns. -/
def assignSymbol : String := "="

/-- What a symbol between two operands means. -/
def Connective.ofSymbol? (text : String) : Option Connective :=
  if text = assignSymbol then some .assign else (BinaryOp.ofSymbol? text).map .operator

end Exprc.Syntax

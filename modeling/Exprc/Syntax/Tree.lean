/-
The syntax tree. Every expression carries a note: its place, and its type once that is known. Two
trees are alike (`Expr.alike`, `Module.alike`) when they differ in notes and places only.
-/
import Exprc.Location
import Exprc.Syntax.Operator
import Exprc.Ty

namespace Exprc.Syntax

/-! ## Names and written types -/

/-- A name where it is declared. -/
structure Name where
  location : Location
  text : String
deriving DecidableEq, Repr

/-- The types that a program can write down. -/
inductive TypeName where
  | int | bool | unit
deriving DecidableEq, Repr

namespace TypeName

/-- Every type that can be written. -/
def all : List TypeName := [int, bool, unit]

/-- The type that is written. -/
def ty : TypeName → Ty
  | int => .int
  | bool => .bool
  | unit => .unit

/-- The spelling of a type. -/
def text (name : TypeName) : String := name.ty.text

/-- The type with a spelling. -/
def ofText? (text : String) : Option TypeName := all.find? (·.text == text)

end TypeName

/-- A type written in the source. -/
structure WrittenType where
  location : Location
  name : TypeName
deriving DecidableEq, Repr

/-- The type that is written. -/
def WrittenType.ty (a : WrittenType) : Ty := a.name.ty

/-! ## Expressions -/

/-- What is known of an expression besides its shape. -/
structure Note where
  location : Location
  ty? : Option Ty := none
deriving DecidableEq, Repr, Inhabited

/-- The two ways to leave an iteration of a loop. -/
inductive LoopControl where
  | exit | next
deriving DecidableEq, Repr

/-- The word for a loop control. -/
def LoopControl.word : LoopControl → String
  | exit => "break"
  | next => "continue"

/-- An expression. Everything that has a value, possibly the unit value, is one. -/
inductive Expr where
  | int (note : Note) (value : Int64)
  | bool (note : Note) (value : Bool)
  | unit (note : Note)
  /-- A use of a variable. -/
  | name (note : Note) (text : String)
  | unary (note : Note) (op : UnaryOp) (operand : Expr)
  /-- A binary operator, which has a place of its own. -/
  | binary (note : Note) (op : BinaryOp) (opLocation : Location) (lhs rhs : Expr)
  | assign (note : Note) (opLocation : Location) (target value : Expr)
  | ifThen (note : Note) (condition thenBranch : Expr)
  | ifElse (note : Note) (condition thenBranch elseBranch : Expr)
  | loop (note : Note) (condition body : Expr)
  | block (note : Note) (statements : List Expr)
  | declare (note : Note) (binder : Name) (written? : Option WrittenType) (initial : Expr)
  | call (note : Note) (callee : String) (arguments : List Expr)
  | control (note : Note) (control : LoopControl)
  /-- A return from a function with the unit value. -/
  | leave (note : Note)
  /-- A return from a function with a value. -/
  | leaveWith (note : Note) (value : Expr)
deriving Repr, Inhabited

namespace Expr

/-- What is known of an expression. -/
def note : Expr → Note
  | int n .. | bool n .. | unit n | name n .. | unary n .. | binary n .. | assign n ..
  | ifThen n .. | ifElse n .. | loop n .. | block n .. | declare n .. | call n .. | control n ..
  | leave n | leaveWith n .. => n

/-- The place of an expression. -/
def location (e : Expr) : Location := e.note.location

/-- The type of an expression, once it is known. -/
def ty? (e : Expr) : Option Ty := e.note.ty?

/-- Whether evaluating an expression always leaves the function. -/
def isReturn : Expr → Bool
  | leave .. | leaveWith .. => true
  | _ => false

/-- Whether an expression, or the last statement of a block, is a return. -/
def endsInReturn : Expr → Bool
  | block _ statements => statements.getLast?.any isReturn
  | e => e.isReturn

mutual

/-- Whether two expressions are the same but for places and types. -/
def alike : Expr → Expr → Bool
  | int _ m, int _ n => m == n
  | bool _ a, bool _ b => a == b
  | unit _, unit _ => true
  | name _ x, name _ y => x == y
  | unary _ op e, unary _ op' e' => op == op' && alike e e'
  | binary _ op _ l r, binary _ op' _ l' r' => op == op' && alike l l' && alike r r'
  | assign _ _ t v, assign _ _ t' v' => alike t t' && alike v v'
  | ifThen _ c t, ifThen _ c' t' => alike c c' && alike t t'
  | ifElse _ c t e, ifElse _ c' t' e' => alike c c' && alike t t' && alike e e'
  | loop _ c b, loop _ c' b' => alike c c' && alike b b'
  | block _ es, block _ es' => allAlike es es'
  | declare _ x a e, declare _ x' a' e' =>
    x.text == x'.text && a.map (·.name) == a'.map (·.name) && alike e e'
  | call _ f es, call _ f' es' => f == f' && allAlike es es'
  | control _ c, control _ c' => c == c'
  | leave _, leave _ => true
  | leaveWith _ e, leaveWith _ e' => alike e e'
  | _, _ => false

/-- Whether two lists hold the same expressions but for places and types. -/
def allAlike : List Expr → List Expr → Bool
  | [], [] => true
  | e :: es, e' :: es' => alike e e' && allAlike es es'
  | _, _ => false

end

end Expr

/-! ## Functions and modules -/

/-- A parameter of a function. -/
structure Parameter where
  name : Name
  written : WrittenType
deriving DecidableEq, Repr

/-- Whether two parameters are the same but for places. -/
def Parameter.alike (p q : Parameter) : Bool :=
  p.name.text == q.name.text && p.written.name == q.written.name

/-- The definition of a function; its body is a block. -/
structure FunctionDefinition where
  location : Location
  name : Name
  parameters : List Parameter
  result : WrittenType
  body : Expr
deriving Repr

namespace FunctionDefinition

/-- The signature that a definition declares. -/
def signature (f : FunctionDefinition) : Signature :=
  ⟨f.parameters.map (·.written.ty), f.result.ty⟩

/-- Whether two definitions are the same but for places and types. -/
def alike (f g : FunctionDefinition) : Bool :=
  f.name.text == g.name.text && f.parameters.length == g.parameters.length
    && (f.parameters.zip g.parameters).all (fun (p, q) => p.alike q)
    && f.result.name == g.result.name && f.body.alike g.body

end FunctionDefinition

/-- A whole source text: its functions in order, and a block of its top-level statements. -/
structure Module where
  location : Location
  functions : List FunctionDefinition
  body : Expr
deriving Repr

/-- Whether two modules are the same but for places and types. -/
def Module.alike (m n : Module) : Bool :=
  m.functions.length == n.functions.length
    && (m.functions.zip n.functions).all (fun (f, g) => f.alike g) && m.body.alike n.body

end Exprc.Syntax

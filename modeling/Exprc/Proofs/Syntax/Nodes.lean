/-
The nodes of a tree. What holds of a whole tree is often said of each expression in it
(`subexpressions`); a tree without the types in its notes is the tree that was written (`untyped`); and
the loop controls of a tree, in the order in which control comes to them, each know whether they are in
the body of a loop (`controls`).
-/
import Exprc.Syntax.Tree
import Mathlib

namespace Exprc.Syntax

/-! ## Subexpressions -/

namespace Expr

mutual

/-- An expression and all expressions in it, in the order in which they begin. -/
def subexpressions : Expr → List Expr
  | int n value => [int n value]
  | bool n value => [bool n value]
  | unit n => [unit n]
  | name n x => [name n x]
  | unary n op e => unary n op e :: subexpressions e
  | binary n op l lhs rhs => binary n op l lhs rhs :: (subexpressions lhs ++ subexpressions rhs)
  | assign n l target value => assign n l target value :: (subexpressions target ++ subexpressions value)
  | ifThen n c t => ifThen n c t :: (subexpressions c ++ subexpressions t)
  | ifElse n c t e => ifElse n c t e :: (subexpressions c ++ (subexpressions t ++ subexpressions e))
  | loop n c b => loop n c b :: (subexpressions c ++ subexpressions b)
  | block n es => block n es :: allSubexpressions es
  | declare n x written? e => declare n x written? e :: subexpressions e
  | call n f es => call n f es :: allSubexpressions es
  | control n c => [control n c]
  | leave n => [leave n]
  | leaveWith n e => leaveWith n e :: subexpressions e

/-- The expressions in a list of expressions. -/
def allSubexpressions : List Expr → List Expr
  | [] => []
  | e :: es => subexpressions e ++ allSubexpressions es

end

/-- The name that an expression itself calls. -/
def callee? : Expr → Option String
  | call _ f _ => some f
  | _ => none

/-- The name that an expression itself declares. -/
def declared? : Expr → Option Name
  | declare _ x .. => some x
  | _ => none

theorem self_mem_subexpressions (e : Expr) : e ∈ e.subexpressions := by
  cases e <;> simp [subexpressions]

end Expr

/-- All expressions in a module. -/
def Module.subexpressions (m : Module) : List Expr :=
  m.functions.flatMap (·.body.subexpressions) ++ m.body.subexpressions

/-! ## Trees without types -/

/-- A note without a type. -/
def Note.untyped (n : Note) : Note := { n with ty? := none }

namespace Expr

mutual

/-- An expression without the types that its notes have. -/
def untyped : Expr → Expr
  | int n value => int n.untyped value
  | bool n value => bool n.untyped value
  | unit n => unit n.untyped
  | name n x => name n.untyped x
  | unary n op e => unary n.untyped op (untyped e)
  | binary n op l lhs rhs => binary n.untyped op l (untyped lhs) (untyped rhs)
  | assign n l target value => assign n.untyped l (untyped target) (untyped value)
  | ifThen n c t => ifThen n.untyped (untyped c) (untyped t)
  | ifElse n c t e => ifElse n.untyped (untyped c) (untyped t) (untyped e)
  | loop n c b => loop n.untyped (untyped c) (untyped b)
  | block n es => block n.untyped (allUntyped es)
  | declare n x written? e => declare n.untyped x written? (untyped e)
  | call n f es => call n.untyped f (allUntyped es)
  | control n c => control n.untyped c
  | leave n => leave n.untyped
  | leaveWith n e => leaveWith n.untyped (untyped e)

/-- Expressions without the types that their notes have. -/
def allUntyped : List Expr → List Expr
  | [] => []
  | e :: es => untyped e :: allUntyped es

end

mutual

/-- The expressions in a tree without types are those in the tree, without types. -/
theorem subexpressions_untyped :
    ∀ e : Expr, e.untyped.subexpressions = e.subexpressions.map (·.untyped)
  | int .. | bool .. | unit .. | name .. | control .. | leave .. => rfl
  | unary _ _ e | declare _ _ _ e | leaveWith _ e =>
    congrArg (_ :: ·) (subexpressions_untyped e)
  | binary _ _ _ e e' | assign _ _ e e' | ifThen _ e e' | loop _ e e' => by
    simp [subexpressions, untyped, subexpressions_untyped e, subexpressions_untyped e']
  | ifElse _ c t e => by
    simp [subexpressions, untyped, subexpressions_untyped c, subexpressions_untyped t,
      subexpressions_untyped e]
  | block _ es | call _ _ es => congrArg (_ :: ·) (allSubexpressions_untyped es)

theorem allSubexpressions_untyped :
    ∀ es : List Expr, allSubexpressions (allUntyped es) = (allSubexpressions es).map (·.untyped)
  | [] => rfl
  | e :: es => by
    simp [allSubexpressions, allUntyped, subexpressions_untyped e, allSubexpressions_untyped es]

end

theorem callee?_untyped (e : Expr) : e.untyped.callee? = e.callee? := by cases e <;> rfl

theorem declared?_untyped (e : Expr) : e.untyped.declared? = e.declared? := by cases e <;> rfl

theorem location_untyped (e : Expr) : e.untyped.location = e.location := by cases e <;> rfl

end Expr

/-- A definition without the types that its body has been given. -/
def FunctionDefinition.untyped (f : FunctionDefinition) : FunctionDefinition :=
  { f with body := f.body.untyped }

/-- A module without the types that its expressions have been given. -/
def Module.untyped (m : Module) : Module :=
  { m with functions := m.functions.map (·.untyped), body := m.body.untyped }

theorem Module.subexpressions_untyped (m : Module) :
    m.untyped.subexpressions = m.subexpressions.map (·.untyped) := by
  simp [subexpressions, untyped, FunctionDefinition.untyped, List.flatMap_map, List.map_flatMap,
    Expr.subexpressions_untyped]

/-! ## Loop controls -/

/-- A loop control in a tree: its place, what it is, and whether it is in the body of a loop. The
condition of a loop is not in its body. -/
structure ControlUse where
  location : Location
  control : LoopControl
  inLoop : Bool
deriving DecidableEq, Repr

namespace Expr

mutual

/-- The loop controls in an expression, in the order of evaluation. `inLoop` tells whether the
expression itself is in the body of a loop. -/
def controls (inLoop : Bool) : Expr → List ControlUse
  | int .. | bool .. | unit .. | name .. | leave .. => []
  | unary _ _ e | declare _ _ _ e | leaveWith _ e => controls inLoop e
  | binary _ _ _ lhs rhs => controls inLoop lhs ++ controls inLoop rhs
  | assign _ _ target value => controls inLoop target ++ controls inLoop value
  | ifThen _ c t => controls inLoop c ++ controls inLoop t
  | ifElse _ c t e => controls inLoop c ++ controls inLoop t ++ controls inLoop e
  | loop _ c b => controls inLoop c ++ controls true b
  | block _ es | call _ _ es => allControls inLoop es
  | control n c => [⟨n.location, c, inLoop⟩]

/-- The loop controls in a list of expressions, in order. -/
def allControls (inLoop : Bool) : List Expr → List ControlUse
  | [] => []
  | e :: es => controls inLoop e ++ allControls inLoop es

end

end Expr

/-- The loop controls in a module: those in its functions, in the order of the functions, and then those
in its top-level statements. -/
def Module.controls (m : Module) : List ControlUse :=
  m.functions.flatMap (·.body.controls false) ++ m.body.controls false

end Exprc.Syntax

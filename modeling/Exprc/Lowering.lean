/-
Lowering: from the checked tree to the intermediate representation. The value of every expression
ends up in some variable: a fresh temporary, the variable of a declared name, or the unit variable.
Conditionals, loops and the operators that skip their right operand become labels and jumps.

Lowering an expression gives a fragment: its code, and the variable that then holds its value.
Temporaries and labels are numbered through the whole module.
-/
import Exprc.Diagnostic
import Exprc.IR.Basic
import Exprc.Scope
import Exprc.Syntax.Tree

namespace Exprc

open Syntax IR

/-! ## Failures -/

/-- Why a tree cannot be lowered. -/
inductive LowerError where
  | functionRedeclared (name : String)
  | redeclared (name : String)
  | undeclared (name : String)
  | controlOutsideLoop (control : LoopControl)
  | targetNotVariable
  | untyped
deriving DecidableEq, Repr

namespace LowerError

/-- Failures about what a name stands for are failures of scope. -/
def kind : LowerError → Kind
  | functionRedeclared _ | redeclared _ | undeclared _ => .scope
  | controlOutsideLoop _ | targetNotVariable | untyped => .ir

/-- The text of a failure. -/
def message : LowerError → String
  | functionRedeclared name => "function `" ++ name ++ "` is already declared"
  | redeclared name => "`" ++ name ++ "` is already declared in this block"
  | undeclared name => "`" ++ name ++ "` is not declared"
  | controlOutsideLoop control => "`" ++ control.word ++ "` outside of a loop"
  | targetNotVariable => "unsupported construct: assignment to something other than a variable"
  | untyped => "expression has no type; the module must be type checked before lowering"

end LowerError

instance : Cause LowerError := ⟨LowerError.kind, LowerError.message⟩

namespace Lowering

/-! ## What lowering keeps track of -/

/-- The numbers to give out next, what the names in scope stand for, and the variables that belong
to declared names. -/
structure State where
  nextTemp : Nat := 1
  nextLabel : Nat := 1
  scopes : ScopeChain (Binding Var) := .withBuiltins
  owned : List Var := []

/-- A step of lowering. -/
abbrev Lower := StateT State (Except (Fault LowerError))

/-- A temporary that is not used yet. -/
def freshTemp : Lower Var :=
  modifyGet fun s => (.temp s.nextTemp, { s with nextTemp := s.nextTemp + 1 })

/-- A label that is not used yet. -/
def freshLabel : Lower Label :=
  modifyGet fun s => (⟨s.nextLabel⟩, { s with nextLabel := s.nextLabel + 1 })

/-- Declares a name in the innermost scope. -/
def declare (name : String) (v : Var) (fault : Fault LowerError) : Lower Unit := do
  let s ← get
  match s.scopes.declare? name (.value v) with
  | some scopes => set { s with scopes }
  | none => throw fault

/-- Declares a variable or a parameter, which then owns a variable. -/
def declareOwned (name : Name) (v : Var) : Lower Unit := do
  declare name.text v (.at name.location (.redeclared name.text))
  modify fun s => { s with owned := v :: s.owned }

/-- The variable that a name stands for. -/
def resolve (name : String) (location : Location) : Lower Var := do
  match (← get).scopes.resolve? name with
  | some (.value v) => return v
  | some (.builtin b) => return .named b.name
  | none => throw (.at location (.undeclared name))

/-- Lowers in a scope of its own. -/
def inScope {α : Type} (lower : Lower α) : Lower α := do
  modify fun s => { s with scopes := s.scopes.push }
  let a ← lower
  modify fun s => { s with scopes := s.scopes.close }
  return a

/-! ## Fragments -/

/-- The code of an expression and the variable that holds its value. -/
structure Fragment where
  code : List Instruction
  value : Var

/-- The labels of the loop around an expression. -/
structure LoopLabels where
  start : Label
  exit : Label

/-- Where a loop control leads. -/
def LoopLabels.target (labels : LoopLabels) : LoopControl → Label
  | .exit => labels.exit
  | .next => labels.start

/-- The type of an expression that has been checked. -/
def typeOf (note : Note) : Lower Ty :=
  match note.ty? with
  | some τ => return τ
  | none => throw (.at note.location .untyped)

/-- Code at one place. -/
def emit (location : Location) (ops : List Op) : List Instruction := ops.map (⟨location, ·⟩)

/-- The fragment that calls an operator. -/
def applyOperator (location : Location) (b : Builtin) (operands : List Fragment) :
    Lower Fragment := do
  let target ← freshTemp
  return ⟨operands.flatMap (·.code)
    ++ emit location [.call (.named b.name) (operands.map (·.value)) target], target⟩

/-- A variable that both branches of a conditional may write: the one that holds the value of the
first branch, if that is a temporary that no declared name owns, or a copy. -/
def mergeTarget (location : Location) (value : Var) : Lower Fragment := do
  if value.isTemp && !(← get).owned.contains value then return ⟨[], value⟩
  else
    let target ← freshTemp
    return ⟨emit location [.copy value target], target⟩

/-! ## Expressions -/

mutual

/-- Lowers an expression inside a loop, if there is one. -/
def lowerExpr (loop? : Option LoopLabels) : Expr → Lower Fragment
  | .int n value => do
    let target ← freshTemp
    return ⟨emit n.location [.loadInt value target], target⟩
  | .bool n value => do
    let target ← freshTemp
    return ⟨emit n.location [.loadBool value target], target⟩
  | .unit _ => return ⟨[], .unit⟩
  | .name n x => return ⟨[], ← resolve x n.location⟩
  | .unary n op e => do
    let e ← lowerExpr loop? e
    applyOperator n.location op.builtin [e]
  | .binary n op _ lhs rhs =>
    if op.isShortCircuit then do
      let right ← freshLabel
      let skip ← freshLabel
      let done ← freshLabel
      let lhs ← lowerExpr loop? lhs
      let rhs ← lowerExpr loop? rhs
      let target ← freshTemp
      let decided := op == .logicalOr
      let branch := if decided then Op.branch lhs.value skip right
        else .branch lhs.value right skip
      return ⟨lhs.code ++ emit n.location [branch, .label right] ++ rhs.code
        ++ emit n.location [.copy rhs.value target, .jump done, .label skip,
          .loadBool decided target, .jump done, .label done], target⟩
    else do
      let lhs ← lowerExpr loop? lhs
      let rhs ← lowerExpr loop? rhs
      applyOperator n.location op.builtin [lhs, rhs]
  | .assign _ _ target value =>
    match target with
    | .name n x => do
      let target ← resolve x n.location
      let value ← lowerExpr loop? value
      return ⟨value.code ++ emit n.location [.copy value.value target], value.value⟩
    | _ => throw (.at target.location .targetNotVariable)
  | .ifThen n c t => do
    let yes ← freshLabel
    let done ← freshLabel
    let c ← lowerExpr loop? c
    let t ← lowerExpr loop? t
    return ⟨c.code ++ emit n.location [.branch c.value yes done, .label yes] ++ t.code
      ++ emit n.location [.label done], .unit⟩
  | .ifElse n c t e => do
    let τ ← typeOf n
    let yes ← freshLabel
    let no ← freshLabel
    let done ← freshLabel
    let c ← lowerExpr loop? c
    let t ← lowerExpr loop? t
    let test := c.code ++ emit n.location [.branch c.value yes no, .label yes] ++ t.code
    if τ.isUnit then
      let e ← lowerExpr loop? e
      return ⟨test ++ emit n.location [.jump done, .label no] ++ e.code
        ++ emit n.location [.label done], .unit⟩
    else
      let merge ← mergeTarget n.location t.value
      let e ← lowerExpr loop? e
      return ⟨test ++ merge.code ++ emit n.location [.jump done, .label no] ++ e.code
        ++ emit n.location [.copy e.value merge.value, .label done], merge.value⟩
  | .loop n c b => do
    let start ← freshLabel
    let body ← freshLabel
    let exit ← freshLabel
    let c ← lowerExpr loop? c
    let b ← lowerExpr (some ⟨start, exit⟩) b
    return ⟨emit n.location [.label start] ++ c.code
      ++ emit n.location [.branch c.value body exit, .label body] ++ b.code
      ++ emit n.location [.jump start, .label exit], .unit⟩
  | .block _ es => inScope (lowerStatements loop? es .unit)
  | .declare n x _ e => do
    let e ← lowerExpr loop? e
    let v ← freshTemp
    declareOwned x v
    return ⟨e.code ++ emit n.location [.copy e.value v], .unit⟩
  | .call n f es => do
    let callee ← resolve f n.location
    let es ← lowerArguments loop? es
    let target ← freshTemp
    return ⟨es.flatMap (·.code) ++ emit n.location [.call callee (es.map (·.value)) target], target⟩
  | .control n c =>
    match loop? with
    | some labels => return ⟨emit n.location [.jump (labels.target c)], .unit⟩
    | none => throw (.at n.location (.controlOutsideLoop c))
  | .leave n => return ⟨emit n.location [.leave .unit], .unit⟩
  | .leaveWith n e => do
    let e ← lowerExpr loop? e
    return ⟨e.code ++ emit n.location [.leave e.value], .unit⟩

/-- Lowers statements in order; their value is that of the last one, or `last` if there are
none. -/
def lowerStatements (loop? : Option LoopLabels) : List Expr → (last : Var) → Lower Fragment
  | [], last => return ⟨[], last⟩
  | e :: es, _ => do
    let e ← lowerExpr loop? e
    let rest ← lowerStatements loop? es e.value
    return ⟨e.code ++ rest.code, rest.value⟩

/-- Lowers arguments in order. -/
def lowerArguments (loop? : Option LoopLabels) : List Expr → Lower (List Fragment)
  | [] => return []
  | e :: es => do
    let e ← lowerExpr loop? e
    return e :: (← lowerArguments loop? es)

end

/-! ## Functions and modules -/

/-- Declares a function, which stands for itself. -/
def declareFunction (f : FunctionDefinition) : Lower Unit :=
  declare f.name.text (.named f.name.text) (.at f.name.location (.functionRedeclared f.name.text))

/-- Gives a parameter a variable. -/
def lowerParameter (p : Parameter) : Lower Var := do
  let v ← freshTemp
  declareOwned p.name v
  return v

/-- Lowers the definition of a function. A body that does not end in a return is followed by
one. -/
def lowerFunction (f : FunctionDefinition) : Lower Function :=
  inScope do
    let parameters ← f.parameters.mapM lowerParameter
    let body ← lowerExpr none f.body
    let code := if f.body.endsInReturn then body.code
      else body.code ++ emit f.body.location [.leave body.value]
    return ⟨f.name.text, parameters, code, body.value⟩

/-- The built-in function that prints values of a type. -/
def printer? : Ty → Option Builtin
  | .int => some .printInt
  | .bool => some .printBool
  | .unit | .function .. => none

/-- Lowers the top-level statements to the function in which a run starts; it prints their value
if it can be printed. -/
def lowerEntryPoint (body : Expr) : Lower Function := do
  let fragment ← lowerExpr none body
  match printer? (← typeOf body.note) with
  | none => return ⟨entryPoint, [], fragment.code, fragment.value⟩
  | some printer =>
    let printed ← applyOperator body.location printer [fragment]
    return ⟨entryPoint, [], printed.code, fragment.value⟩

/-- Lowers a module: its functions in order, then its top-level statements. -/
def lowerModule (m : Syntax.Module) : Lower IR.Module := do
  m.functions.forM declareFunction
  let functions ← m.functions.mapM lowerFunction
  let main ← lowerEntryPoint m.body
  return ⟨functions ++ [main]⟩

end Lowering

/-- The intermediate representation of a checked module. -/
def lower (m : Syntax.Module) : Except (Fault LowerError) IR.Module :=
  (Lowering.lowerModule m).run' {}

end Exprc

/-
What programs mean, said on the syntax tree. The evaluator goes through an expression once and hands
back how its evaluation ends and the store that it leaves; it keeps variables by name, block by block,
and knows nothing of temporaries and labels. A call and another round of a loop evaluate a tree anew,
and each takes some fuel; an evaluation that runs out of fuel has no result.
-/
import Exprc.IR.Machine
import Exprc.Proofs.Scope.Stack
import Exprc.Syntax.Tree

namespace Exprc.Meaning

open Syntax IR

/-! ## Stores -/

/-- The values of the variables in scope, by blocks, the innermost block first. Every time that a
variable is declared it is put in front of its block. -/
abbrev Env := Stack Value

namespace Env

/-- Declares a variable in the innermost block. -/
def declare (x : String) (v : Value) : Env → Env
  | [] => [[(x, v)]]
  | cells :: below => ((x, v) :: cells) :: below

/-- Gives the variable of a name another value in its block. -/
def assignIn (x : String) (v : Value) : List (String × Value) → List (String × Value)
  | [] => []
  | (y, old) :: cells => if y = x then (y, v) :: cells else (y, old) :: assignIn x v cells

/-- Gives the variable that a name stands for another value. -/
def assign (x : String) (v : Value) : Env → Env
  | [] => []
  | cells :: below =>
    if (cells.lookup x).isSome then assignIn x v cells :: below else cells :: assign x v below

/-- The variables at the start of a call: the parameters, and around them the block of the module, in
which no variable is visible. -/
def ofArguments (parameters : List Parameter) (arguments : List Value) : Env :=
  (parameters.zip arguments).foldl (fun env (p, v) => env.declare p.name.text v) [[], []]

end Env

/-- What an evaluation works on. -/
structure Store where
  env : Env
  world : World

/-! ## Outcomes -/

/-- How the evaluation of an expression ends. -/
inductive Outcome where
  | value (v : Value)
  /-- It goes on at the end or at the condition of the loop around. -/
  | jump (c : LoopControl)
  /-- It leaves the function with a value. -/
  | leave (v : Value)
  | fault (f : Fault RuntimeError)

/-- The end of an evaluation and the store then, unless the fuel runs out before. -/
abbrev Result := Option (Outcome × Store)

/-- Goes on with the value of an expression, if it has one. -/
def Result.andThen (r : Result) (next : Value → Store → Result) : Result :=
  match r with
  | some (.value v, st) => next v st
  | r => r

/-- An evaluation that fails. -/
def fail (location : Location) (cause : RuntimeError) (st : Store) : Result :=
  some (.fault (.at location cause), st)

/-- Calls a built-in function. -/
def applyBuiltin (sink : Sink) (location : Location) (b : Builtin) (vs : List Value) (st : Store) :
    Result :=
  match st.world.callBuiltin sink b vs with
  | (.ok v, world) => some (.value v, { st with world })
  | (.error cause, world) => fail location cause { st with world }

/-- Goes on with the truth of a condition. Only booleans are true or false. -/
def branchOn (location : Location) (v : Value) (st : Store) (next : Bool → Result) : Result :=
  match v with
  | .bool b => next b
  | v => fail location (.notBool .unit v) st

/-- Leaves a block. -/
def leaveBlock (r : Result) : Result := r.map fun (o, st) => (o, { st with env := st.env.tail })

/-- What comes of a round of a loop, given what came of the body: another round, unless the loop is
left. -/
def endRound (again : Store → Result) (r : Result) : Result :=
  match r with
  | some (.value _, st) | some (.jump .next, st) => again st
  | some (.jump .exit, st) => some (.value .unit, st)
  | r => r

/-- What comes of a call, given what came of the body of the function. -/
def endCall (location : Location) (st : Store) (r : Result) : Result :=
  match r with
  | some (.value v, st') | some (.leave v, st') => some (.value v, { st with world := st'.world })
  | some (.fault f, st') => some (.fault f, { st with world := st'.world })
  | some (.jump _, st') => fail location .noEntryPoint { st with world := st'.world }
  | none => none

/-- Calls a function that is declared, or else a built-in function. At most `maxDepth` functions are
evaluated at once; `depth` counts those around the call. -/
def applyFunction (m : Syntax.Module) (sink : Sink) (again : Nat → Expr → Store → Result)
    (depth : Nat) (location : Location) (name : String) (vs : List Value) (st : Store) : Result :=
  match m.functions.find? (·.name.text == name) with
  | some f =>
    if maxDepth ≤ depth + 1 then fail location (.stackOverflow name) st
    else endCall location st (again (depth + 1) f.body ⟨.ofArguments f.parameters vs, st.world⟩)
  | none =>
    match Builtin.ofName? name with
    | some b => applyBuiltin sink location b vs st
    | none => fail location (.unknownFunction name) st

/-! ## Expressions -/

mutual

/-- Evaluates an expression, operands from left to right. `again` evaluates with less fuel. -/
def evalExpr (m : Syntax.Module) (sink : Sink) (again : Nat → Expr → Store → Result) (depth : Nat) :
    Expr → Store → Result
  | .int _ n, st => some (.value (.int n), st)
  | .bool _ b, st => some (.value (.bool b), st)
  | .unit _, st => some (.value .unit, st)
  | .name n x, st =>
    match st.env.find? x with
    | some v => some (.value v, st)
    | none => fail n.location (.unassigned (.named x)) st
  | .unary n op e, st =>
    (evalExpr m sink again depth e st).andThen fun v st =>
    applyBuiltin sink n.location op.builtin [v] st
  | .binary n op _ lhs rhs, st =>
    (evalExpr m sink again depth lhs st).andThen fun v st =>
    if op.isShortCircuit then
      branchOn n.location v st fun b =>
      -- `or` is decided by a left operand that is true, `and` by one that is false
      if b = (op == .logicalOr) then some (.value (.bool b), st)
      else evalExpr m sink again depth rhs st
    else
      (evalExpr m sink again depth rhs st).andThen fun w st =>
      applyBuiltin sink n.location op.builtin [v, w] st
  | .assign n _ target value, st =>
    match target with
    | .name _ x =>
      (evalExpr m sink again depth value st).andThen fun v st =>
      some (.value v, { st with env := st.env.assign x v })
    | _ => fail n.location (.notFunction .unit) st
  | .ifThen n c t, st =>
    (evalExpr m sink again depth c st).andThen fun v st =>
    branchOn n.location v st fun b =>
    if b then
      (evalExpr m sink again depth t st).andThen fun _ st => some (.value .unit, st)
    else some (.value .unit, st)
  | .ifElse n c t e, st =>
    (evalExpr m sink again depth c st).andThen fun v st =>
    branchOn n.location v st fun b =>
    if b then evalExpr m sink again depth t st else evalExpr m sink again depth e st
  | .loop n c b, st =>
    (evalExpr m sink again depth c st).andThen fun v st =>
    branchOn n.location v st fun isTrue =>
    if isTrue then
      endRound (again depth (.loop n c b)) (evalExpr m sink again depth b st)
    else some (.value .unit, st)
  | .block _ es, st =>
    leaveBlock (evalStatements m sink again depth es .unit { st with env := [] :: st.env })
  | .declare _ x _ e, st =>
    (evalExpr m sink again depth e st).andThen fun v st =>
    some (.value .unit, { st with env := st.env.declare x.text v })
  | .call n f es, st =>
    evalArguments m sink again depth es st fun vs st =>
    applyFunction m sink again depth n.location f vs st
  | .control _ c, st => some (.jump c, st)
  | .leave _, st => some (.leave .unit, st)
  | .leaveWith _ e, st =>
    (evalExpr m sink again depth e st).andThen fun v st => some (.leave v, st)

/-- Evaluates statements in order; their value is that of the last one, or `last` if there are
none. -/
def evalStatements (m : Syntax.Module) (sink : Sink) (again : Nat → Expr → Store → Result)
    (depth : Nat) : List Expr → (last : Value) → Store → Result
  | [], last, st => some (.value last, st)
  | e :: es, _, st =>
    (evalExpr m sink again depth e st).andThen fun v st =>
    evalStatements m sink again depth es v st

/-- Evaluates arguments in order and goes on with their values. -/
def evalArguments (m : Syntax.Module) (sink : Sink) (again : Nat → Expr → Store → Result)
    (depth : Nat) : List Expr → Store → (List Value → Store → Result) → Result
  | [], st, next => next [] st
  | e :: es, st, next =>
    (evalExpr m sink again depth e st).andThen fun v st =>
    evalArguments m sink again depth es st fun vs st => next (v :: vs) st

end

/-- Evaluates an expression with some fuel, below `depth` other functions. -/
def eval (m : Syntax.Module) (sink : Sink) : (fuel depth : Nat) → Expr → Store → Result
  | 0, _, _, _ => none
  | fuel + 1, depth, e, st => evalExpr m sink (eval m sink fuel) depth e st

/-! ## Modules -/

/-- Prints the value of the top-level statements, unless it is the unit value. -/
def printFinal (sink : Sink) (location : Location) (v : Value) (world : World) :
    Except (Fault RuntimeError) Unit × World :=
  match v with
  | .unit => (.ok (), world)
  | v =>
    match world.print sink v with
    | (.ok _, world) => (.ok (), world)
    | (.error cause, world) => (.error (.at location cause), world)

/-- The end of a run, in which everything that was printed is flushed. -/
def finish (sink : Sink) (v : Value) (world : World) : Ending :=
  match sink.flushFailure? world.output with
  | some reason => ⟨.error (.unlocated (.flushFailed reason)), world⟩
  | none => ⟨.ok v, world⟩

/-- The end of a run, given what came of the top-level statements. -/
def conclude (sink : Sink) (location : Location) : Result → Option Ending
  | some (.value v, st) =>
    match printFinal sink location v st.world with
    | (.ok _, world) => some (finish sink v world)
    | (.error fault, world) => some ⟨.error fault, world⟩
  | some (.fault f, st) => some ⟨.error f, st.world⟩
  | some (.jump _, st) | some (.leave _, st) => some ⟨.error (.unlocated .noEntryPoint), st.world⟩
  | none => none

/-- How a program ends on some input, unless the fuel runs out before. -/
def evaluate? (m : Syntax.Module) (sink : Sink) (input : List UInt8) (fuel : Nat) : Option Ending :=
  conclude sink m.body.location (eval m sink fuel 0 m.body ⟨[[]], { input }⟩)

end Exprc.Meaning

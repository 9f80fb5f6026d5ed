/-
Type checking. Checking a tree finds its type and notes the type of every expression in it; a tree
that already has notes has to get the same types again. The first failure ends the check. Then the
notes made up to that point stay in the tree, and the scopes that were open stay open, so a checker
gives back a tree and scopes in every case.
-/
import Exprc.Scope
import Exprc.Syntax.Tree
import Exprc.Typing.TypeError

namespace Exprc.Typing

open Syntax

/-! ## Checkers -/

/-- What the names in scope stand for: a built-in function, or something of a type. -/
abbrev Scopes := ScopeChain (Binding Ty)

/-- What a check leaves behind: a tree with notes, what was found or why the check failed, and the
scopes. -/
structure Checked (α γ : Type) where
  tree : α
  outcome : Except (Fault TypeError) γ
  scopes : Scopes

/-- Checks some tree of type `α` and finds something of type `γ`. -/
abbrev Checker (α γ : Type) := Scopes → Checked α γ

namespace Checker

variable {α β γ δ : Type}

/-- Succeeds with a tree. -/
def done (tree : α) (found : γ) : Checker α γ := fun s => ⟨tree, .ok found, s⟩

/-- Fails with a tree. -/
def fail (tree : α) (fault : Fault TypeError) : Checker α γ := fun s => ⟨tree, .error fault, s⟩

/-- Puts a checked tree into a larger one. -/
def map (f : α → β) (c : Checker α γ) : Checker β γ := fun s =>
  let r := c s
  ⟨f r.tree, r.outcome, r.scopes⟩

/-- Checks a part of a tree and then the rest. If the part fails, `rebuild` puts it into the tree
as it is then. -/
def andThen (part : Checker α γ) (rebuild : α → β) (rest : α → γ → Checker β δ) :
    Checker β δ := fun s =>
  let r := part s
  match r.outcome with
  | .ok found => rest r.tree found r.scopes
  | .error fault => ⟨rebuild r.tree, .error fault, r.scopes⟩

/-- Demands something of what a check has found. -/
def ensure (c : Checker α γ) (demand : α → γ → Except (Fault TypeError) Unit) :
    Checker α γ := fun s =>
  let r := c s
  { r with outcome := do
      let found ← r.outcome
      demand r.tree found
      return found }

/-- Goes on with the answer to a question about the scopes, or fails with the tree as it is. -/
def ask (tree : α) (question : Scopes → Except (Fault TypeError) δ)
    (rest : δ → Checker α γ) : Checker α γ := fun s =>
  match question s with
  | .ok answer => rest answer s
  | .error fault => fail tree fault s

/-- Declares a name and goes on, or fails with the tree as it is. -/
def declaring (tree : α) (name : String) (τ : Ty) (fault : Fault TypeError)
    (rest : Checker α γ) : Checker α γ := fun s =>
  match s.declare? name (.value τ) with
  | some s => rest s
  | none => fail tree fault s

/-- Checks in a scope of its own, which a failure leaves open. -/
def inScope (c : Checker α γ) : Checker α γ := fun s =>
  let r := c s.push
  match r.outcome with
  | .ok _ => { r with scopes := r.scopes.close }
  | .error _ => r

end Checker

open Checker

/-- Blames a cause on a place. -/
def blame {γ : Type} (location : Location) : Except TypeError γ → Except (Fault TypeError) γ
  | .ok found => .ok found
  | .error cause => .error (.at location cause)

/-- Notes the type of an expression. An expression that has a type keeps it, and cannot get
another. -/
def conclude (build : Note → Expr) (note : Note) (τ : Ty) : Checker Expr Ty :=
  match note.ty? with
  | none => done (build { note with ty? := some τ }) τ
  | some known =>
    if known = τ then done (build note) τ
    else fail (build note) (.at note.location (.conflict known τ))

/-! ## What is demanded -/

/-- The type of a use of a variable. -/
def variableType (name : String) : Option (Binding Ty) → Except TypeError Ty
  | none => .error (.undeclared name)
  | some (.builtin b) => .error (.builtinAsValue b)
  | some (.value (.function ..)) => .error (.functionAsValue name)
  | some (.value τ) => .ok τ

/-- The signature by which a name is called. -/
def calleeSignature (name : String) : Option (Binding Ty) → Except TypeError Signature
  | none => .error (.undeclared name)
  | some (.builtin b) =>
    match b.signature? with
    | some σ => .ok σ
    | none => .error (.notCallable b)
  | some (.value (.function parameters result)) => .ok ⟨parameters, result⟩
  | some (.value τ) => .error (.notFunction name τ)

/-- The signature by which a name is called with a number of arguments. -/
def callSignature (name : String) (given : Nat) (b? : Option (Binding Ty)) :
    Except TypeError Signature := do
  let σ ← calleeSignature name b?
  if σ.parameters.length = given then return σ
  else throw (.wrongCount name σ.parameters.length given)

/-- The type of the result of an operator on operands of given types. -/
def operatorResult (b : Builtin) (operands : List Ty) : Except TypeError Ty :=
  match b.signature?, operands with
  | some σ, _ =>
    if σ.parameters = operands then .ok σ.result
    else .error (.wrongOperands b σ.parameters operands)
  | none, [left, right] =>
    if left = right ∧ left.supportsEquality then .ok .bool
    else .error (.unequalOperands b left right)
  | none, _ => .error (.notCallable b)

/-- A condition has to be a boolean. -/
def demandCondition (condition : Expr) (τ : Ty) : Except (Fault TypeError) Unit :=
  if τ = .bool then .ok () else .error (.at condition.location (.wrongCondition τ))

/-- An argument has to be of the type of the parameter. -/
def demandArgument (expected : Ty) (argument : Expr) (τ : Ty) : Except (Fault TypeError) Unit :=
  if τ = expected then .ok () else .error (.at argument.location (.wrongArgument expected τ))

/-- The type that the enclosing function returns, if something of type `τ` may be returned. -/
def returnType (result? : Option Ty) (τ : Ty) : Except TypeError Ty :=
  match result? with
  | none => .error .returnOutsideFunction
  | some declared => if τ = declared then .ok declared else .error (.wrongReturn τ declared)

/-- The type of a variable whose initial value is of type `τ`. -/
def initialType (name : String) (declared? : Option Ty) (τ : Ty) : Except TypeError Ty :=
  match declared? with
  | none => .ok τ
  | some declared => if declared = τ then .ok τ else .error (.wrongInitial name declared τ)

/-- Whether an expression is a variable. -/
def isVariable : Expr → Bool
  | .name .. => true
  | _ => false

/-! ## Expressions -/

mutual

/-- Checks an expression. `result?` is the type that the enclosing function returns, if there is an
enclosing function. -/
def checkExpr (result? : Option Ty) : Expr → Checker Expr Ty
  | .int n value => conclude (.int · value) n .int
  | .bool n value => conclude (.bool · value) n .bool
  | .unit n => conclude .unit n .unit
  | .name n x =>
    ask (.name n x) (fun s => blame n.location (variableType x (s.resolve? x))) fun τ =>
    conclude (.name · x) n τ
  | .unary n op e =>
    (checkExpr result? e).andThen (.unary n op) fun e τ =>
    ask (.unary n op e) (fun _ => blame n.location (operatorResult op.builtin [τ])) fun ρ =>
    conclude (.unary · op e) n ρ
  | .binary n op l lhs rhs =>
    (checkExpr result? lhs).andThen (.binary n op l · rhs) fun lhs τ =>
    (checkExpr result? rhs).andThen (.binary n op l lhs ·) fun rhs υ =>
    ask (.binary n op l lhs rhs) (fun _ => blame n.location (operatorResult op.builtin [τ, υ]))
      fun ρ =>
    conclude (.binary · op l lhs rhs) n ρ
  | .assign n l target value =>
    if isVariable target then
      (checkExpr result? target).andThen (.assign n l · value) fun target τ =>
      (checkExpr result? value).andThen (.assign n l target ·) fun value υ =>
      if τ = υ then conclude (.assign · l target value) n τ
      else fail (.assign n l target value) (.at n.location (.wrongAssignment υ τ))
    else fail (.assign n l target value) (.at target.location .targetNotVariable)
  | .ifThen n c t =>
    ((checkExpr result? c).ensure demandCondition).andThen (.ifThen n · t) fun c _ =>
    (checkExpr result? t).andThen (.ifThen n c ·) fun t _ =>
    conclude (.ifThen · c t) n .unit
  | .ifElse n c t e =>
    ((checkExpr result? c).ensure demandCondition).andThen (.ifElse n · t e) fun c _ =>
    (checkExpr result? t).andThen (.ifElse n c · e) fun t τ =>
    (checkExpr result? e).andThen (.ifElse n c t ·) fun e υ =>
    if τ = υ then conclude (.ifElse · c t e) n τ
    else fail (.ifElse n c t e) (.at n.location (.differentBranches τ υ))
  | .loop n c b =>
    ((checkExpr result? c).ensure demandCondition).andThen (.loop n · b) fun c _ =>
    (checkExpr result? b).andThen (.loop n c ·) fun b _ =>
    conclude (.loop · c b) n .unit
  | .block n es =>
    (inScope (checkStatements result? es .unit)).andThen (.block n) fun es τ =>
    conclude (.block · es) n τ
  | .declare n x written? e =>
    (checkExpr result? e).andThen (.declare n x written?) fun e τ =>
    ask (.declare n x written? e)
      (fun _ => blame n.location (initialType x.text (written?.map (·.ty)) τ)) fun τ =>
    declaring (.declare n x written? e) x.text τ (.at x.location (.redeclared x.text))
      (conclude (.declare · x written? e) n .unit)
  | .call n f es =>
    ask (.call n f es) (fun s => blame n.location (callSignature f es.length (s.resolve? f)))
      fun σ =>
    (checkArguments result? es σ.parameters).andThen (.call n f) fun es _ =>
    conclude (.call · f es) n σ.result
  | .control n c => conclude (.control · c) n .unit
  | .leave n =>
    ask (.leave n) (fun _ => blame n.location (returnType result? .unit)) fun ρ =>
    conclude .leave n ρ
  | .leaveWith n e =>
    if result?.isSome then
      (checkExpr result? e).andThen (.leaveWith n) fun e τ =>
      ask (.leaveWith n e) (fun _ => blame n.location (returnType result? τ)) fun ρ =>
      conclude (.leaveWith · e) n ρ
    else fail (.leaveWith n e) (.at n.location .returnOutsideFunction)

/-- Checks statements in order; their type is that of the last one, or `last` if there are none. -/
def checkStatements (result? : Option Ty) : List Expr → (last : Ty) → Checker (List Expr) Ty
  | [], last => done [] last
  | e :: es, _ =>
    (checkExpr result? e).andThen (· :: es) fun e τ =>
    (checkStatements result? es τ).map (e :: ·)

/-- Checks arguments in order against the types of the parameters. -/
def checkArguments (result? : Option Ty) : List Expr → List Ty → Checker (List Expr) Unit
  | e :: es, τ :: τs =>
    ((checkExpr result? e).ensure (demandArgument τ)).andThen (· :: es) fun e _ =>
    (checkArguments result? es τs).map (e :: ·)
  | es, _ => done es ()

end

/-! ## Functions and modules -/

/-- Declares a function, whose name must be free. -/
def declareFunction (f : FunctionDefinition) (s : Scopes) : Except (Fault TypeError) Scopes :=
  if f.name.text = entryPoint then .error (.at f.name.location .reservedName)
  else match s.resolve? f.name.text with
    | some (.builtin b) => .error (.at f.name.location (.builtinRedefined b))
    | _ =>
      match s.declare? f.name.text (.value f.signature.ty) with
      | some s => .ok s
      | none => .error (.at f.name.location (.functionRedeclared f.name.text))

/-- Declares parameters, whose names must differ, and goes on. -/
def declaringParameters {α γ : Type} (tree : α) (rest : Checker α γ) :
    List Parameter → Checker α γ
  | [] => rest
  | p :: ps =>
    declaring tree p.name.text p.written.ty
      (.at p.name.location (.parameterRedeclared p.name.text))
      (declaringParameters tree rest ps)

/-- The body of a function has to be of the type that the function returns. -/
def demandBody (f : FunctionDefinition) (τ : Ty) : Except (Fault TypeError) Unit :=
  if τ = f.result.ty then .ok ()
  else .error (.at f.body.location (.wrongBody f.name.text f.result.ty τ))

/-- Checks the definition of a function. -/
def checkFunction (f : FunctionDefinition) : Checker FunctionDefinition Ty :=
  (inScope (declaringParameters f
    ((checkExpr (some f.result.ty) f.body).map fun body => { f with body }) f.parameters)).ensure
    demandBody

/-- Checks definitions in order. -/
def checkFunctions : List FunctionDefinition → Checker (List FunctionDefinition) Unit
  | [] => done [] ()
  | f :: fs =>
    (checkFunction f).andThen (· :: fs) fun f _ => (checkFunctions fs).map (f :: ·)

/-- Checks a module. All functions are declared before any body is checked. -/
def checkModule (m : Module) : Checked Module Ty :=
  match m.functions.foldlM (fun s f => declareFunction f s) ScopeChain.withBuiltins with
  | .error fault => ⟨m, .error fault, .withBuiltins⟩
  | .ok s =>
    (checkFunctions m.functions).andThen (fun functions => { m with functions })
      (fun functions _ => (checkExpr none m.body).map fun body => { m with functions, body }) s

end Exprc.Typing

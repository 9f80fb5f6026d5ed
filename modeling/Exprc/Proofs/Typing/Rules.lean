/-
The typing rules of the language, apart from any algorithm. `HasType noted callable ρ? Γ e τ Γ'` says
that with the variables `Γ` in scope the expression `e` has type `τ`, and that behind it the variables
`Γ'` are in scope. Each rule also asks that the note of the expression suits its type (`noted`), so that
the same rules say what a tree without types has to obey and what it means that a tree is annotated.
-/
import Exprc.Proofs.Scope.Stack
import Exprc.Proofs.Syntax.Nodes

namespace Exprc

open Syntax

/-! ## Operators -/

/-- The types of the operand and of the result of a unary operator. -/
inductive Syntax.UnaryOp.HasType : UnaryOp → Ty → Ty → Prop
  | negate : HasType .negate .int .int
  | logicalNot : HasType .logicalNot .bool .bool

/-- The types of the operands and of the result of a binary operator. Integers can be compared with
integers and booleans with booleans, and nothing else can be compared. -/
inductive Syntax.BinaryOp.HasType : BinaryOp → Ty → Ty → Ty → Prop
  | arithmetic {op : BinaryOp} : op ∈ [add, subtract, multiply, divide, modulus] →
      HasType op .int .int .int
  | relational {op : BinaryOp} :
      op ∈ [lessThan, lessThanOrEqual, greaterThan, greaterThanOrEqual] → HasType op .int .int .bool
  | logical {op : BinaryOp} : op ∈ [logicalAnd, logicalOr] → HasType op .bool .bool .bool
  | equality {op : BinaryOp} {τ : Ty} : op ∈ [equals, notEquals] → τ = .int ∨ τ = .bool →
      HasType op τ τ .bool

namespace Typing

/-! ## Notes and callees -/

/-- Whether an expression that carries a note may be given a type: if it has a type, it has to be the
same. -/
def Permits (n : Note) (τ : Ty) : Prop := ∀ υ, n.ty? = some υ → υ = τ

/-- Whether a note carries a type. -/
def Carries (n : Note) (τ : Ty) : Prop := n.ty? = some τ

/-- Whether a name can be called in the bodies of a module, by a signature: it names a function of the
module, or one of the built-in functions that may be called by their names. -/
def Callable (byName : Builtin → Prop) (fs : List FunctionDefinition) (x : String) (σ : Signature) :
    Prop :=
  (∃ f ∈ fs, f.name.text = x ∧ f.signature = σ) ∨
    ∃ b : Builtin, byName b ∧ b.name = x ∧ b.signature? = some σ

/-! ## Expressions -/

mutual

/-- An expression has a type. `Γ` are the variables in scope before it, by blocks and the innermost block
first, and the last index those in scope behind it. `callable` tells what a name that no variable has can
be called with, and `ρ?` is the type that the enclosing function returns, if there is one. -/
inductive HasType (noted : Note → Ty → Prop) (callable : String → Signature → Prop) (ρ? : Option Ty) :
    Stack Ty → Expr → Ty → Stack Ty → Prop
  | int {Γ : Stack Ty} {n : Note} {value : Int64} : noted n .int →
      HasType noted callable ρ? Γ (.int n value) .int Γ
  | bool {Γ : Stack Ty} {n : Note} {value : Bool} : noted n .bool →
      HasType noted callable ρ? Γ (.bool n value) .bool Γ
  | unit {Γ : Stack Ty} {n : Note} : noted n .unit → HasType noted callable ρ? Γ (.unit n) .unit Γ
  | name {Γ : Stack Ty} {n : Note} {x : String} {τ : Ty} : Γ.find? x = some τ → noted n τ →
      HasType noted callable ρ? Γ (.name n x) τ Γ
  | unary {Γ Γ₁ : Stack Ty} {n : Note} {op : UnaryOp} {e : Expr} {τ υ : Ty} :
      HasType noted callable ρ? Γ e τ Γ₁ → op.HasType τ υ → noted n υ →
      HasType noted callable ρ? Γ (.unary n op e) υ Γ₁
  | binary {Γ Γ₁ Γ₂ : Stack Ty} {n : Note} {op : BinaryOp} {l : Location} {lhs rhs : Expr}
      {τ₁ τ₂ υ : Ty} :
      HasType noted callable ρ? Γ lhs τ₁ Γ₁ → HasType noted callable ρ? Γ₁ rhs τ₂ Γ₂ →
      op.HasType τ₁ τ₂ υ → noted n υ →
      HasType noted callable ρ? Γ (.binary n op l lhs rhs) υ Γ₂
  /-- Only a variable can be assigned to, and only a value of its type. -/
  | assign {Γ Γ₁ Γ₂ : Stack Ty} {n n' : Note} {l : Location} {x : String} {value : Expr} {τ : Ty} :
      HasType noted callable ρ? Γ (.name n' x) τ Γ₁ → HasType noted callable ρ? Γ₁ value τ Γ₂ →
      noted n τ → HasType noted callable ρ? Γ (.assign n l (.name n' x) value) τ Γ₂
  | ifThen {Γ Γ₁ Γ₂ : Stack Ty} {n : Note} {c t : Expr} {τ : Ty} :
      HasType noted callable ρ? Γ c .bool Γ₁ → HasType noted callable ρ? Γ₁ t τ Γ₂ → noted n .unit →
      HasType noted callable ρ? Γ (.ifThen n c t) .unit Γ₂
  | ifElse {Γ Γ₁ Γ₂ Γ₃ : Stack Ty} {n : Note} {c t e : Expr} {τ : Ty} :
      HasType noted callable ρ? Γ c .bool Γ₁ → HasType noted callable ρ? Γ₁ t τ Γ₂ →
      HasType noted callable ρ? Γ₂ e τ Γ₃ → noted n τ →
      HasType noted callable ρ? Γ (.ifElse n c t e) τ Γ₃
  | loop {Γ Γ₁ Γ₂ : Stack Ty} {n : Note} {c b : Expr} {τ : Ty} :
      HasType noted callable ρ? Γ c .bool Γ₁ → HasType noted callable ρ? Γ₁ b τ Γ₂ → noted n .unit →
      HasType noted callable ρ? Γ (.loop n c b) .unit Γ₂
  /-- What a block declares is in scope to its end. -/
  | block {Γ : Stack Ty} {frame : List (String × Ty)} {n : Note} {es : List Expr} {τ : Ty} :
      StatementsHaveType noted callable ρ? ([] :: Γ) es .unit τ (frame :: Γ) → noted n τ →
      HasType noted callable ρ? Γ (.block n es) τ Γ
  /-- A variable is declared behind its initial value, in a block that does not declare its name yet. -/
  | declare {Γ Γ₁ : Stack Ty} {frame : List (String × Ty)} {n : Note} {x : Name}
      {written? : Option WrittenType} {e : Expr} {τ : Ty} :
      HasType noted callable ρ? Γ e τ (frame :: Γ₁) → (∀ a ∈ written?, a.ty = τ) →
      frame.lookup x.text = none → noted n .unit →
      HasType noted callable ρ? Γ (.declare n x written? e) .unit (((x.text, τ) :: frame) :: Γ₁)
  /-- A name that is called is that of a function, and no variable in scope has it. -/
  | call {Γ Γ₁ : Stack Ty} {n : Note} {f : String} {es : List Expr} {σ : Signature} :
      Γ.find? f = none → callable f σ → ArgumentsHaveType noted callable ρ? Γ es σ.parameters Γ₁ →
      noted n σ.result → HasType noted callable ρ? Γ (.call n f es) σ.result Γ₁
  | control {Γ : Stack Ty} {n : Note} {c : LoopControl} : noted n .unit →
      HasType noted callable ρ? Γ (.control n c) .unit Γ
  | leave {Γ : Stack Ty} {n : Note} : ρ? = some .unit → noted n .unit →
      HasType noted callable ρ? Γ (.leave n) .unit Γ
  /-- A return stands in a function, and has the type that the function returns. -/
  | leaveWith {Γ Γ₁ : Stack Ty} {n : Note} {e : Expr} {ρ : Ty} : ρ? = some ρ →
      HasType noted callable ρ? Γ e ρ Γ₁ → noted n ρ →
      HasType noted callable ρ? Γ (.leaveWith n e) ρ Γ₁

/-- Statements in order have a type: that of the last one, or the given one if there are none. -/
inductive StatementsHaveType (noted : Note → Ty → Prop) (callable : String → Signature → Prop)
    (ρ? : Option Ty) : Stack Ty → List Expr → Ty → Ty → Stack Ty → Prop
  | nil {Γ : Stack Ty} {τ : Ty} : StatementsHaveType noted callable ρ? Γ [] τ τ Γ
  | cons {Γ Γ₁ Γ₂ : Stack Ty} {e : Expr} {es : List Expr} {τ₀ τ υ : Ty} :
      HasType noted callable ρ? Γ e τ Γ₁ → StatementsHaveType noted callable ρ? Γ₁ es τ υ Γ₂ →
      StatementsHaveType noted callable ρ? Γ (e :: es) τ₀ υ Γ₂

/-- Arguments in order have the types of the parameters, one for each. -/
inductive ArgumentsHaveType (noted : Note → Ty → Prop) (callable : String → Signature → Prop)
    (ρ? : Option Ty) : Stack Ty → List Expr → List Ty → Stack Ty → Prop
  | nil {Γ : Stack Ty} : ArgumentsHaveType noted callable ρ? Γ [] [] Γ
  | cons {Γ Γ₁ Γ₂ : Stack Ty} {e : Expr} {es : List Expr} {τ : Ty} {τs : List Ty} :
      HasType noted callable ρ? Γ e τ Γ₁ → ArgumentsHaveType noted callable ρ? Γ₁ es τs Γ₂ →
      ArgumentsHaveType noted callable ρ? Γ (e :: es) (τ :: τs) Γ₂

end

/-! ## Functions and modules -/

/-- The parameters of a function as variables, the last one first. -/
def parameterFrame (ps : List Parameter) : List (String × Ty) :=
  (ps.map fun p => (p.name.text, p.written.ty)).reverse

/-- A function obeys the rules: its parameters differ, and its body has the type that it returns. -/
structure FunctionHasType (noted : Note → Ty → Prop) (callable : String → Signature → Prop)
    (f : FunctionDefinition) : Prop where
  nodup : (f.parameters.map (·.name.text)).Nodup
  body : ∃ frame,
    HasType noted callable (some f.result.ty) [parameterFrame f.parameters] f.body f.result.ty [frame]

/-- A module obeys the rules, and its top-level statements have type `τ`: its functions have names that
differ from each other and from all names that are taken, and every function can be called in every
body. -/
structure ModuleHasType (noted : Note → Ty → Prop) (callable : String → Signature → Prop) (m : Module)
    (τ : Ty) : Prop where
  nodup : (m.functions.map (·.name.text)).Nodup
  free : ∀ f ∈ m.functions, f.name.text ≠ entryPoint ∧ ∀ b : Builtin, f.name.text ≠ b.name
  functions : ∀ f ∈ m.functions, FunctionHasType noted callable f
  body : HasType noted callable none [] m.body τ []

/-- A module obeys the rules of the language: of the built-in functions those that read and print can be
called by their names. -/
def WellTyped (m : Module) (τ : Ty) : Prop :=
  ModuleHasType (fun _ _ => True) (Callable (·.isIntrinsic = true) m.functions) m τ

/-- A module obeys the rules of the language, and the note of every expression has the type that the rules
give to the expression. -/
def Annotated (m : Module) (τ : Ty) : Prop :=
  ModuleHasType Carries (Callable (·.isIntrinsic = true) m.functions) m τ

/-! ## Other notes and callees

What is asked of notes and of names that are called is asked of those in the tree only. -/

section

variable {noted noted' : Note → Ty → Prop} {callable callable' : String → Signature → Prop}
  {ρ? : Option Ty}

/-- Whether what is asked of an expression itself also is asked in another way. -/
def Weakens (noted noted' : Note → Ty → Prop) (callable callable' : String → Signature → Prop)
    (e : Expr) : Prop :=
  (∀ τ, noted e.note τ → noted' e.note τ) ∧ ∀ f ∈ e.callee?, ∀ σ, callable f σ → callable' f σ

mutual

theorem HasType.weaken :
    ∀ {Γ Γ' : Stack Ty} {e : Expr} {τ : Ty}, HasType noted callable ρ? Γ e τ Γ' →
      (∀ a ∈ e.subexpressions, Weakens noted noted' callable callable' a) →
      HasType noted' callable' ρ? Γ e τ Γ'
  | _, _, _, _, .int hn, h => .int ((h _ (Expr.self_mem_subexpressions _)).1 _ hn)
  | _, _, _, _, .bool hn, h => .bool ((h _ (Expr.self_mem_subexpressions _)).1 _ hn)
  | _, _, _, _, .unit hn, h => .unit ((h _ (Expr.self_mem_subexpressions _)).1 _ hn)
  | _, _, _, _, .name hx hn, h => .name hx ((h _ (Expr.self_mem_subexpressions _)).1 _ hn)
  | _, _, _, _, .control hn, h => .control ((h _ (Expr.self_mem_subexpressions _)).1 _ hn)
  | _, _, _, _, .leave hρ hn, h => .leave hρ ((h _ (Expr.self_mem_subexpressions _)).1 _ hn)
  | _, _, _, _, .unary he ho hn, h => by
    rw [Expr.subexpressions, List.forall_mem_cons] at h
    exact .unary (he.weaken h.2) ho (h.1.1 _ hn)
  | _, _, _, _, .binary hl hr ho hn, h => by
    rw [Expr.subexpressions, List.forall_mem_cons, List.forall_mem_append] at h
    exact .binary (hl.weaken h.2.1) (hr.weaken h.2.2) ho (h.1.1 _ hn)
  | _, _, _, _, .assign ht hv hn, h => by
    rw [Expr.subexpressions, List.forall_mem_cons, List.forall_mem_append] at h
    exact .assign (ht.weaken h.2.1) (hv.weaken h.2.2) (h.1.1 _ hn)
  | _, _, _, _, .ifThen hc ht hn, h => by
    rw [Expr.subexpressions, List.forall_mem_cons, List.forall_mem_append] at h
    exact .ifThen (hc.weaken h.2.1) (ht.weaken h.2.2) (h.1.1 _ hn)
  | _, _, _, _, .ifElse hc ht he hn, h => by
    rw [Expr.subexpressions, List.forall_mem_cons, List.forall_mem_append, List.forall_mem_append] at h
    exact .ifElse (hc.weaken h.2.1) (ht.weaken h.2.2.1) (he.weaken h.2.2.2) (h.1.1 _ hn)
  | _, _, _, _, .loop hc hb hn, h => by
    rw [Expr.subexpressions, List.forall_mem_cons, List.forall_mem_append] at h
    exact .loop (hc.weaken h.2.1) (hb.weaken h.2.2) (h.1.1 _ hn)
  | _, _, _, _, .block hs hn, h => by
    rw [Expr.subexpressions, List.forall_mem_cons] at h
    exact .block (hs.weaken h.2) (h.1.1 _ hn)
  | _, _, _, _, .declare he hw hx hn, h => by
    rw [Expr.subexpressions, List.forall_mem_cons] at h
    exact .declare (he.weaken h.2) hw hx (h.1.1 _ hn)
  | _, _, _, _, .call hx hc hs hn, h => by
    rw [Expr.subexpressions, List.forall_mem_cons] at h
    exact .call hx (h.1.2 _ rfl _ hc) (hs.weaken h.2) (h.1.1 _ hn)
  | _, _, _, _, .leaveWith hρ he hn, h => by
    rw [Expr.subexpressions, List.forall_mem_cons] at h
    exact .leaveWith hρ (he.weaken h.2) (h.1.1 _ hn)

theorem StatementsHaveType.weaken :
    ∀ {Γ Γ' : Stack Ty} {es : List Expr} {τ₀ τ : Ty}, StatementsHaveType noted callable ρ? Γ es τ₀ τ Γ' →
      (∀ a ∈ Expr.allSubexpressions es, Weakens noted noted' callable callable' a) →
      StatementsHaveType noted' callable' ρ? Γ es τ₀ τ Γ'
  | _, _, _, _, _, .nil, _ => .nil
  | _, _, _, _, _, .cons he hs, h => by
    rw [Expr.allSubexpressions, List.forall_mem_append] at h
    exact .cons (he.weaken h.1) (hs.weaken h.2)

theorem ArgumentsHaveType.weaken :
    ∀ {Γ Γ' : Stack Ty} {es : List Expr} {τs : List Ty}, ArgumentsHaveType noted callable ρ? Γ es τs Γ' →
      (∀ a ∈ Expr.allSubexpressions es, Weakens noted noted' callable callable' a) →
      ArgumentsHaveType noted' callable' ρ? Γ es τs Γ'
  | _, _, _, _, .nil, _ => .nil
  | _, _, _, _, .cons he hs, h => by
    rw [Expr.allSubexpressions, List.forall_mem_append] at h
    exact .cons (he.weaken h.1) (hs.weaken h.2)

end

theorem FunctionHasType.weaken {f : FunctionDefinition} (h : FunctionHasType noted callable f)
    (hw : ∀ a ∈ f.body.subexpressions, Weakens noted noted' callable callable' a) :
    FunctionHasType noted' callable' f := by
  obtain ⟨frame, hb⟩ := h.body
  exact ⟨h.nodup, frame, hb.weaken hw⟩

theorem ModuleHasType.weaken {m : Module} {τ : Ty} (h : ModuleHasType noted callable m τ)
    (hw : ∀ a ∈ m.subexpressions, Weakens noted noted' callable callable' a) :
    ModuleHasType noted' callable' m τ where
  nodup := h.nodup
  free := h.free
  functions f hf := (h.functions f hf).weaken fun a ha =>
    hw a (List.mem_append_left _ (List.mem_flatMap_of_mem hf ha))
  body := h.body.weaken fun a ha => hw a (List.mem_append_right _ ha)

end

end Typing

end Exprc

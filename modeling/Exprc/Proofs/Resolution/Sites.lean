/-
Where expressions stand in a module, and what is declared there. What is in scope at a site depends on the
shape of the tree alone: a block opens a scope, a `var` declares its name in the scope that it is in once its
initial value is known, and what a part of an expression declares is in scope in the parts after it.
-/
import Exprc.Proofs.Scope.Frames
import Exprc.Proofs.Syntax.Nodes

namespace Exprc

namespace Syntax

/-! ## Sites -/

/-- Where an expression stands in a module: it is the body of a function, the top-level statements, or a
part of an expression. -/
inductive Site where
  | function (index : Nat)
  | main
  | part (whole : Site) (index : Nat)
deriving DecidableEq, Repr

namespace Expr

/-- The parts of an expression, in the order of evaluation. -/
def parts : Expr → List Expr
  | int .. | bool .. | unit .. | name .. | control .. | leave .. => []
  | unary _ _ e | declare _ _ _ e | leaveWith _ e => [e]
  | binary _ _ _ e e' | assign _ _ e e' | ifThen _ e e' | loop _ e e' => [e, e']
  | ifElse _ c t e => [c, t, e]
  | block _ es | call _ _ es => es

/-- Whether an expression opens a scope for its parts. -/
def opensScope : Expr → Bool
  | block .. => true
  | _ => false

/-- The name that an expression itself declares. -/
def binder? : Expr → Option String
  | declare _ x _ _ => some x.text
  | _ => none

/-- The name that an expression itself uses: that of a variable, of what it calls, or of the variable to which
it assigns. -/
def use? : Expr → Option String
  | name _ x | assign _ _ (name _ x) _ => some x
  | call _ f _ => some f
  | _ => none

theorem sizeOf_parts {e part : Expr} (h : part ∈ e.parts) : sizeOf part < sizeOf e := by
  cases e with
  | block _ es | call _ _ es =>
    have hlt := List.sizeOf_lt_of_mem (show part ∈ es from h)
    simp only [block.sizeOf_spec, call.sizeOf_spec]
    omega
  | ifElse n c t e =>
    simp only [parts, List.mem_cons, List.not_mem_nil, or_false] at h
    obtain rfl | rfl | rfl := h <;> simp only [ifElse.sizeOf_spec] <;> omega
  | binary | assign | ifThen | loop =>
    simp only [parts, List.mem_cons, List.not_mem_nil, or_false] at h
    obtain rfl | rfl := h <;>
      simp only [binary.sizeOf_spec, assign.sizeOf_spec, ifThen.sizeOf_spec, loop.sizeOf_spec] <;> omega
  | unary | declare | leaveWith =>
    obtain rfl := List.mem_singleton.1 h
    simp only [unary.sizeOf_spec, declare.sizeOf_spec, leaveWith.sizeOf_spec]
    omega
  | _ => cases h

/-- What holds of an expression if it holds of its parts holds of every expression. -/
theorem parts_induction {motive : Expr → Prop}
    (h : ∀ e, (∀ part ∈ e.parts, motive part) → motive e) (e : Expr) : motive e :=
  h e fun part _ => parts_induction h part
termination_by sizeOf e
decreasing_by exact sizeOf_parts ‹_›

theorem subexpressions_eq (e : Expr) : e.subexpressions = e :: allSubexpressions e.parts := by
  cases e <;> simp [subexpressions, allSubexpressions, parts]

theorem allUntyped_map (es : List Expr) : allUntyped es = es.map (·.untyped) := by
  induction es with
  | nil => rfl
  | cons e es ih => rw [allUntyped, ih, List.map_cons]

theorem parts_untyped (e : Expr) : e.untyped.parts = e.parts.map (·.untyped) := by
  cases e with
  | block _ es | call _ _ es => exact allUntyped_map es
  | _ => rfl

/-- Trees that are the same but for types have the same parts but for types. -/
theorem parts_of_untyped {e e' : Expr} (h : e.untyped = e'.untyped) :
    e.parts.map (·.untyped) = e'.parts.map (·.untyped) := by
  rw [← parts_untyped, h, parts_untyped]

theorem opensScope_untyped (e : Expr) : e.untyped.opensScope = e.opensScope := by cases e <;> rfl

theorem binder?_untyped (e : Expr) : e.untyped.binder? = e.binder? := by cases e <;> rfl

theorem use?_untyped (e : Expr) : e.untyped.use? = e.use? := by
  cases e with
  | assign _ _ target => cases target <;> rfl
  | _ => rfl

end Expr

/-- The expression at a site of a module. -/
def Module.expr? (m : Module) : Site → Option Expr
  | .function i => m.functions[i]?.map (·.body)
  | .main => some m.body
  | .part whole i => (m.expr? whole).bind (·.parts[i]?)

theorem Module.functions_of_untyped {m m' : Module} (h : m.untyped = m'.untyped) (i : Nat) :
    m.functions[i]?.map (·.untyped) = m'.functions[i]?.map (·.untyped) := by
  have hfunctions := congrArg (fun m => m.functions[i]?) h
  simpa [Module.untyped] using hfunctions

/-- The same expression, but for types, stands at each site. -/
theorem Module.expr?_of_untyped {m m' : Module} (h : m.untyped = m'.untyped) (P : Site) :
    (m.expr? P).map (·.untyped) = (m'.expr? P).map (·.untyped) := by
  induction P with
  | function i =>
    have hbody := congrArg (Option.map (·.body)) (functions_of_untyped h i)
    simpa [expr?, Function.comp_def, FunctionDefinition.untyped] using hbody
  | main => exact congrArg (fun m => some m.body) h
  | part whole i ih =>
    rw [expr?, expr?]
    cases he : m.expr? whole with
    | none =>
      rw [he, Option.map_none, eq_comm, Option.map_eq_none_iff] at ih
      rw [ih]
    | some e =>
      rw [he] at ih
      obtain ⟨e', he', hsame⟩ := Option.map_eq_some_iff.1 ih.symm
      have hparts := congrArg (·[i]?) (Expr.parts_of_untyped hsame.symm)
      simpa [he'] using hparts

/-! ## Declarations -/

/-- What a name in a module can be declared by: a built-in function, a function by its number, a parameter by
its function and its own number, or a variable by the site of its declaration. -/
inductive Declaration where
  | builtin (b : Builtin)
  | function (index : Nat)
  | parameter (function index : Nat)
  | variable (site : Site)
deriving DecidableEq, Repr

/-- Names with what declares them. -/
abbrev Declarations := List (String × Declaration)

namespace Expr

mutual

/-- What an expression at a site declares in the scope that it is in, in order. What is declared in a block
is not declared there. -/
def introduces (here : Site) : Expr → Declarations
  | int .. | bool .. | unit .. | name .. | control .. | leave .. | block .. => []
  | unary _ _ e | leaveWith _ e => introduces (here.part 0) e
  | declare _ x _ e => introduces (here.part 0) e ++ [(x.text, .variable here)]
  | binary _ _ _ e e' | assign _ _ e e' | ifThen _ e e' | loop _ e e' =>
    introduces (here.part 0) e ++ introduces (here.part 1) e'
  | ifElse _ c t e => introduces (here.part 0) c ++ (introduces (here.part 1) t ++ introduces (here.part 2) e)
  | call _ _ es => allIntroduce here 0 es

/-- What some parts of an expression declare, the first of which has a given number. -/
def allIntroduce (whole : Site) (first : Nat) : List Expr → Declarations
  | [] => []
  | e :: es => introduces (whole.part first) e ++ allIntroduce whole (first + 1) es

end

theorem allIntroduce_append (whole : Site) (first : Nat) (es es' : List Expr) :
    allIntroduce whole first (es ++ es') =
      allIntroduce whole first es ++ allIntroduce whole (first + es.length) es' := by
  induction es generalizing first with
  | nil => rfl
  | cons e es ih =>
    rw [List.cons_append, allIntroduce, allIntroduce, ih, List.append_assoc, List.length_cons,
      Nat.add_assoc, Nat.add_comm 1]

/-- An expression that opens no scope declares what its parts declare, and then its own name. -/
theorem introduces_eq (here : Site) {e : Expr} (h : e.opensScope = false) :
    e.introduces here =
      allIntroduce here 0 e.parts ++ (e.binder?.map fun x => (x, .variable here)).toList := by
  cases e with
  | block => cases h
  | _ => simp [introduces, allIntroduce, parts, binder?]

theorem introduces_block (here : Site) {e : Expr} (h : e.opensScope = true) : e.introduces here = [] := by
  cases e with
  | block => rfl
  | _ => cases h

section

variable {view : Expr → Expr} (hparts : ∀ e, (view e).parts = e.parts.map view)
  (hopens : ∀ e, (view e).opensScope = e.opensScope) (hbinder : ∀ e, (view e).binder? = e.binder?)

theorem allIntroduce_map (whole : Site) {es : List Expr}
    (h : ∀ e ∈ es, ∀ here, (view e).introduces here = e.introduces here) (first : Nat) :
    allIntroduce whole first (es.map view) = allIntroduce whole first es := by
  induction es generalizing first with
  | nil => rfl
  | cons e es ih =>
    rw [List.forall_mem_cons] at h
    rw [List.map_cons, allIntroduce, allIntroduce, h.1, ih h.2]

include hparts hopens hbinder in
/-- What an expression declares does not depend on what leaves its parts, scopes and names as they are. -/
theorem introduces_view (e : Expr) : ∀ here, (view e).introduces here = e.introduces here := by
  induction e using parts_induction with
  | h e ih =>
    intro here
    cases he : e.opensScope with
    | true => rw [introduces_block here he, introduces_block here (by rw [hopens, he])]
    | false =>
      rw [introduces_eq here he, introduces_eq here (by rw [hopens, he]), hparts, hbinder, allIntroduce_map here ih]

end

theorem introduces_untyped (e : Expr) (here : Site) : e.untyped.introduces here = e.introduces here :=
  introduces_view parts_untyped opensScope_untyped binder?_untyped e here

/-- What an expression declares does not depend on types. -/
theorem introduces_of_untyped (e : Expr) {e' : Expr} (h : e.untyped = e'.untyped) (here : Site) :
    e.introduces here = e'.introduces here := by
  rw [← introduces_untyped e, h, introduces_untyped]

theorem allIntroduce_of_untyped (whole : Site) {es es' : List Expr}
    (h : es.map (·.untyped) = es'.map (·.untyped)) (first : Nat) :
    allIntroduce whole first es = allIntroduce whole first es' := by
  rw [← allIntroduce_map whole fun e _ => introduces_untyped e, h,
    allIntroduce_map whole fun e _ => introduces_untyped e]

end Expr

theorem map_fst_mapIdx {α β γ : Type} (l : List α) (f : α → β) (g : Nat → γ) :
    (l.mapIdx fun i a => (f a, g i)).map Prod.fst = l.map f := by
  refine List.ext_getElem? fun i => ?_
  simp [Function.comp_def]

/-- What is declared around all functions: the functions of a module, and before them the built-in functions. -/
def Module.rootDeclarations (m : Module) : Stack Declaration :=
  Stack.declareAll [Builtin.all.map fun b => (b.name, .builtin b)]
    (m.functions.mapIdx fun i f => (f.name.text, .function i))

/-- What is in scope in the parts of an expression before the first of them is evaluated. -/
def Expr.opened {β : Type} (e : Expr) (scopes : Stack β) : Stack β :=
  if e.opensScope then [] :: scopes else scopes

/-- What is in scope at a site, as the shape of the module tells. -/
def Module.declarations? (m : Module) : Site → Option (Stack Declaration)
  | .function i => m.functions[i]?.map fun f =>
      Stack.declareAll ([] :: m.rootDeclarations)
        (f.parameters.mapIdx fun j p => (p.name.text, .parameter i j))
  | .main => some m.rootDeclarations
  | .part whole i =>
    (m.declarations? whole).bind fun scopes => (m.expr? whole).map fun e =>
      (e.opened scopes).declareAll (Expr.allIntroduce whole 0 (e.parts.take i))

end Syntax

end Exprc

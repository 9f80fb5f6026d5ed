/-
Other names for parameters and variables. A module is renamed (`Module.renamed`) where parameters and variables
are declared, and where the shape of the tree tells that a name is declared by one of them; what else a name can
stand for keeps it. Nothing else changes, and every expression stays at its site (`Module.expr?_renamed`).
-/
import Exprc.Proofs.Resolution.Sites

namespace Exprc.Syntax

/-! ## Names -/

/-- Whether a declaration is that of a parameter or a variable. -/
def Declaration.isLocal : Declaration → Bool
  | .builtin _ | .function _ => false
  | .parameter .. | .variable _ => true

/-- Another name in the place of one that is declared so. -/
def Declaration.rename (d : Declaration) (ρ : String → String) (x : String) : String :=
  if d.isLocal then ρ x else x

/-- The new name for one that is used where some declarations are in scope. -/
def renamedUse (ρ : String → String) (D : Stack Declaration) (x : String) : String :=
  (D.find? x).elim x fun d => d.rename ρ x

/-- A declared name with another text. -/
def Name.renamed (ρ : String → String) (x : Name) : Name := { x with text := ρ x.text }

/-- A parameter with another name. -/
def Parameter.renamed (ρ : String → String) (p : Parameter) : Parameter := { p with name := p.name.renamed ρ }

/-! ## Trees -/

namespace Expr

mutual

/-- An expression at a site, before which some declarations are in scope, with other names for parameters and
variables. -/
def renamed (ρ : String → String) : (here : Site) → (D : Stack Declaration) → Expr → Expr
  | _, _, int n value => int n value
  | _, _, bool n value => bool n value
  | _, _, unit n => unit n
  | _, D, name n x => name n (renamedUse ρ D x)
  | here, D, unary n op e => unary n op (renamed ρ (here.part 0) D e)
  | here, D, binary n op l lhs rhs =>
    binary n op l (renamed ρ (here.part 0) D lhs)
      (renamed ρ (here.part 1) (D.declareAll (lhs.introduces (here.part 0))) rhs)
  | here, D, assign n l target value =>
    assign n l (renamed ρ (here.part 0) D target)
      (renamed ρ (here.part 1) (D.declareAll (target.introduces (here.part 0))) value)
  | here, D, ifThen n c t =>
    ifThen n (renamed ρ (here.part 0) D c)
      (renamed ρ (here.part 1) (D.declareAll (c.introduces (here.part 0))) t)
  | here, D, ifElse n c t e =>
    ifElse n (renamed ρ (here.part 0) D c)
      (renamed ρ (here.part 1) (D.declareAll (c.introduces (here.part 0))) t)
      (renamed ρ (here.part 2)
        (D.declareAll (c.introduces (here.part 0) ++ t.introduces (here.part 1))) e)
  | here, D, loop n c b =>
    loop n (renamed ρ (here.part 0) D c)
      (renamed ρ (here.part 1) (D.declareAll (c.introduces (here.part 0))) b)
  | here, D, block n es => block n (allRenamed ρ here 0 ([] :: D) es)
  | here, D, declare n x written? e => declare n (x.renamed ρ) written? (renamed ρ (here.part 0) D e)
  | here, D, call n f es => call n (renamedUse ρ D f) (allRenamed ρ here 0 D es)
  | _, _, control n c => control n c
  | _, _, leave n => leave n
  | here, D, leaveWith n e => leaveWith n (renamed ρ (here.part 0) D e)

/-- Some parts of an expression, the first of which has a given number, with other names. -/
def allRenamed (ρ : String → String) :
    (whole : Site) → (first : Nat) → (D : Stack Declaration) → List Expr → List Expr
  | _, _, _, [] => []
  | whole, first, D, e :: es =>
    renamed ρ (whole.part first) D e ::
      allRenamed ρ whole (first + 1) (D.declareAll (e.introduces (whole.part first))) es

end

theorem note_renamed (ρ : String → String) (here : Site) (D : Stack Declaration) (e : Expr) :
    (e.renamed ρ here D).note = e.note := by
  cases e <;> rfl

/-- The parts of an expression are renamed one after the other. -/
theorem parts_renamed (ρ : String → String) (here : Site) (D : Stack Declaration) (e : Expr) :
    (e.renamed ρ here D).parts = allRenamed ρ here 0 (e.opened D) e.parts := by
  cases e with
  | ifElse n c t e => simp [renamed, allRenamed, parts, opened, opensScope, Stack.declareAll_append]
  | _ => rfl

theorem getElem?_allRenamed (ρ : String → String) (whole : Site) (es : List Expr) :
    ∀ (first : Nat) (D : Stack Declaration) (i : Nat),
      (allRenamed ρ whole first D es)[i]? = es[i]?.map fun e =>
        e.renamed ρ (whole.part (first + i)) (D.declareAll (allIntroduce whole first (es.take i))) := by
  induction es with
  | nil => simp [allRenamed]
  | cons e es ih =>
    intro first D i
    cases i with
    | zero => simp [allRenamed, allIntroduce]
    | succ i =>
      rw [allRenamed, List.getElem?_cons_succ, List.getElem?_cons_succ, ih, List.take_succ_cons, allIntroduce,
        Stack.declareAll_append, Nat.add_assoc, Nat.add_comm 1]

theorem length_allRenamed (ρ : String → String) (whole : Site) (es : List Expr) :
    ∀ (first : Nat) (D : Stack Declaration), (allRenamed ρ whole first D es).length = es.length := by
  induction es with
  | nil => exact fun _ _ => rfl
  | cons e es ih => exact fun first D => congrArg (· + 1) (ih _ _)

/-! ### Without other names -/

theorem renamedUse_id (D : Stack Declaration) (x : String) : renamedUse id D x = x := by
  unfold renamedUse Declaration.rename
  cases D.find? x with
  | none => rfl
  | some d => exact ite_self x

mutual

theorem renamed_id : ∀ (here : Site) (D : Stack Declaration) (e : Expr), e.renamed id here D = e
  | _, _, int .. | _, _, bool .. | _, _, unit .. | _, _, control .. | _, _, leave .. => rfl
  | _, D, name n x => congrArg (name n) (renamedUse_id D x)
  | _, _, unary n op e => congrArg (unary n op) (renamed_id _ _ e)
  | _, _, declare n x written? e => congrArg (declare n x written?) (renamed_id _ _ e)
  | _, _, leaveWith n e => congrArg (leaveWith n) (renamed_id _ _ e)
  | _, _, binary n op l lhs rhs => congrArg₂ (binary n op l) (renamed_id _ _ lhs) (renamed_id _ _ rhs)
  | _, _, assign n l target value => congrArg₂ (assign n l) (renamed_id _ _ target) (renamed_id _ _ value)
  | _, _, ifThen n c t => congrArg₂ (ifThen n) (renamed_id _ _ c) (renamed_id _ _ t)
  | _, _, loop n c b => congrArg₂ (loop n) (renamed_id _ _ c) (renamed_id _ _ b)
  | _, _, ifElse n c t e => by
    rw [renamed, renamed_id _ _ c, renamed_id _ _ t, renamed_id _ _ e]
  | _, _, block n es => congrArg (block n) (allRenamed_id _ _ _ es)
  | _, D, call n f es => congrArg₂ (call n) (renamedUse_id D f) (allRenamed_id _ _ _ es)

theorem allRenamed_id : ∀ (whole : Site) (first : Nat) (D : Stack Declaration) (es : List Expr),
    allRenamed id whole first D es = es
  | _, _, _, [] => rfl
  | _, _, _, e :: es => congrArg₂ List.cons (renamed_id _ _ e) (allRenamed_id _ _ _ es)

end

/-! ### Returns -/

theorem isReturn_renamed (ρ : String → String) (here : Site) (D : Stack Declaration) (e : Expr) :
    (e.renamed ρ here D).isReturn = e.isReturn := by
  cases e <;> rfl

theorem map_isReturn_allRenamed (ρ : String → String) (whole : Site) (es : List Expr) :
    ∀ (first : Nat) (D : Stack Declaration),
      (allRenamed ρ whole first D es).map (·.isReturn) = es.map (·.isReturn) := by
  induction es with
  | nil => exact fun _ _ => rfl
  | cons e es ih => exact fun first D => congrArg₂ List.cons (isReturn_renamed ..) (ih _ _)

theorem endsInReturn_renamed (ρ : String → String) (here : Site) (D : Stack Declaration) (e : Expr) :
    (e.renamed ρ here D).endsInReturn = e.endsInReturn := by
  cases e with
  | block n es =>
    have hlast := congrArg (fun l => l.getLast?.any id) (map_isReturn_allRenamed ρ here es 0 ([] :: D))
    simpa [renamed, endsInReturn, List.getLast?_map, Option.any_map] using hlast
  | _ => rfl

end Expr

/-! ## Functions and modules -/

/-- What is in scope in the body of a function, where some declarations are in scope around it. -/
def FunctionDefinition.declarations (f : FunctionDefinition) (i : Nat) (D : Stack Declaration) :
    Stack Declaration :=
  Stack.declareAll ([] :: D) (f.parameters.mapIdx fun j p => (p.name.text, .parameter i j))

/-- A definition with other names for its parameters and variables. -/
def FunctionDefinition.renamed (ρ : String → String) (i : Nat) (D : Stack Declaration)
    (f : FunctionDefinition) : FunctionDefinition :=
  { f with
    parameters := f.parameters.map (·.renamed ρ)
    body := f.body.renamed ρ (.function i) (f.declarations i D) }

/-- A module with other names for the parameters and variables in it. -/
def Module.renamed (ρ : String → String) (m : Module) : Module :=
  { m with
    functions := m.functions.mapIdx fun i f => f.renamed ρ i m.rootDeclarations
    body := m.body.renamed ρ .main m.rootDeclarations }

/-- The names of the parameters and variables of a module. -/
def Module.localNames (m : Module) : List String :=
  m.functions.flatMap (·.parameters.map (·.name.text)) ++ m.subexpressions.filterMap (·.binder?)

/-- The expression at a site of a renamed module is the one that was there, in which those names are others
that are declared by parameters and variables. -/
theorem Module.expr?_renamed (ρ : String → String) (m : Module) (P : Site) :
    (m.renamed ρ).expr? P = (m.expr? P).bind fun e => (m.declarations? P).map fun D => e.renamed ρ P D := by
  induction P with
  | function i =>
    cases hi : m.functions[i]? with
    | none => simp [expr?, renamed, hi]
    | some f => simp [expr?, renamed, declarations?, hi, FunctionDefinition.renamed,
        FunctionDefinition.declarations]
  | main => rfl
  | part whole i ih =>
    rw [expr?, ih, expr?, declarations?]
    cases m.expr? whole with
    | none => rfl
    | some e =>
      cases m.declarations? whole with
      | none => simp
      | some D => simp [Expr.parts_renamed, Expr.getElem?_allRenamed, Option.map_eq_bind]

end Exprc.Syntax

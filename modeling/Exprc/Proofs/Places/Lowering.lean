/-
Lowering without places. A tree without places lowers to the code of the tree, without places
(`lower_unplaced`): no number of a temporary or of a label depends on where something stands.
-/
import Exprc.Lowering
import Exprc.Proofs.Places.Erasure

namespace Exprc

namespace Lowering

open Syntax IR

/-- A fragment without places. -/
def Fragment.unplaced (f : Fragment) : Fragment := { f with code := f.code.map (·.unplaced) }

theorem emit_unplaced (l : Location) (ops : List Op) : (emit l ops).map (·.unplaced) = emit .nowhere ops := by
  simp [emit, Instruction.unplaced]

theorem codes_unplaced (fs : List Fragment) :
    (fs.map (·.unplaced)).flatMap (·.code) = (fs.flatMap (·.code)).map (·.unplaced) := by
  rw [List.flatMap_map, List.map_flatMap]
  rfl

theorem values_unplaced (fs : List Fragment) : (fs.map (·.unplaced)).map (·.value) = fs.map (·.value) := by
  rw [List.map_map]
  rfl

/-! ## Steps -/

variable {α β α' β' : Type}

/-- Lowering a tree without places gives, from all states, what lowering the tree gives, without places, and
leaves the same state. -/
def Mirrors (view : α → α') (x' : Lower α') (x : Lower α) : Prop :=
  ∀ L, x' L = ((x L).map fun (a, L') => (view a, L')).mapError Fault.unplaced

namespace Mirrors

variable {view : α → α'} {w : β → β'} {x : Lower α} {x' : Lower α'}

theorem pure {a : α} {a' : α'} (h : a' = view a) : Mirrors view (Pure.pure a') (Pure.pure a) := by
  subst h
  exact fun _ => rfl

theorem throw {fault fault' : Fault LowerError} (h : fault' = fault.unplaced) :
    Mirrors view (MonadExcept.throw fault' : Lower α') (MonadExcept.throw fault) := by
  subst h
  exact fun _ => rfl

theorem bind {next : α → Lower β} {next' : α' → Lower β'} (h : Mirrors view x' x)
    (hnext : ∀ a, Mirrors w (next' (view a)) (next a)) : Mirrors w (x' >>= next') (x >>= next) := by
  intro L
  change Except.bind (x' L) _ = Except.mapError Fault.unplaced (Except.map _ (Except.bind (x L) _))
  rw [h L]
  cases x L with
  | error fault => rfl
  | ok p => exact hnext p.1 p.2

theorem freshTemp : Mirrors id freshTemp freshTemp := fun _ => rfl

theorem freshLabel : Mirrors id freshLabel freshLabel := fun _ => rfl

theorem get : Mirrors id (MonadState.get : Lower State) MonadState.get := fun _ => rfl

theorem set (L : State) : Mirrors id (MonadStateOf.set L : Lower PUnit) (MonadStateOf.set L) := fun _ => rfl

theorem modify (f : State → State) : Mirrors id (modify f : Lower PUnit) (modify f) := fun _ => rfl

/-! ### Names -/

theorem declare (name : String) (v : Var) {fault fault' : Fault LowerError} (h : fault' = fault.unplaced) :
    Mirrors id (declare name v fault') (declare name v fault) := by
  refine .bind .get fun L => ?_
  dsimp only [id]
  cases L.scopes.declare? name (.value v) with
  | some scopes => exact .set _
  | none => exact .throw h

theorem declareOwned (x : Name) (v : Var) : Mirrors id (declareOwned x.unplaced v) (declareOwned x v) :=
  .bind (.declare x.text v rfl) fun _ => .modify _

theorem resolve (x : String) (l : Location) : Mirrors id (resolve x .nowhere) (resolve x l) := by
  refine .bind .get fun L => ?_
  dsimp only [id]
  rcases L.scopes.resolve? x with _ | b | v
  · exact .throw rfl
  · exact .pure rfl
  · exact .pure rfl

theorem inScope (h : Mirrors view x' x) : Mirrors view (inScope x') (inScope x) :=
  .bind (.modify _) fun _ => .bind h fun _ => .bind (.modify _) fun _ => .pure rfl

/-! ### Fragments -/

theorem typeOf (n : Note) : Mirrors id (typeOf n.unplaced) (typeOf n) := by
  unfold Lowering.typeOf
  cases h : n.ty? with
  | none =>
    simp only [Note.unplaced, h]
    exact .throw rfl
  | some τ =>
    simp only [Note.unplaced, h]
    exact .pure rfl

theorem applyOperator (l : Location) (b : Builtin) (operands : List Fragment) :
    Mirrors Fragment.unplaced (applyOperator .nowhere b (operands.map (·.unplaced)))
      (applyOperator l b operands) := by
  refine .bind .freshTemp fun target => .pure ?_
  rw [codes_unplaced, values_unplaced, Fragment.unplaced, List.map_append, emit_unplaced]
  rfl

theorem mergeTarget (l : Location) (v : Var) :
    Mirrors Fragment.unplaced (mergeTarget .nowhere v) (mergeTarget l v) := by
  refine .bind .get fun L => ?_
  dsimp only [id]
  split
  · exact .pure rfl
  · exact .bind .freshTemp fun target => .pure rfl

end Mirrors

/-! ## Expressions -/

mutual

/-- Lowering an expression without places. -/
theorem lowerExpr_mirrors (loop? : Option LoopLabels) :
    ∀ e : Expr, Mirrors Fragment.unplaced (lowerExpr loop? e.unplaced) (lowerExpr loop? e)
  | .int n value => by
    simp only [Expr.unplaced, lowerExpr]
    exact .bind .freshTemp fun target => .pure rfl
  | .bool n value => by
    simp only [Expr.unplaced, lowerExpr]
    exact .bind .freshTemp fun target => .pure rfl
  | .unit n => by
    simp only [Expr.unplaced, lowerExpr]
    exact .pure rfl
  | .name n x => by
    simp only [Expr.unplaced, lowerExpr]
    exact .bind (.resolve x n.location) fun v => .pure rfl
  | .unary n op e => by
    simp only [Expr.unplaced, lowerExpr]
    exact .bind (lowerExpr_mirrors loop? e) fun e => .applyOperator n.location op.builtin [e]
  | .binary n op l lhs rhs => by
    simp only [Expr.unplaced, lowerExpr]
    split
    · refine .bind .freshLabel fun right => .bind .freshLabel fun skip => .bind .freshLabel fun done => ?_
      refine .bind (lowerExpr_mirrors loop? lhs) fun lhs => .bind (lowerExpr_mirrors loop? rhs) fun rhs => ?_
      refine .bind .freshTemp fun target => .pure ?_
      simp only [Fragment.unplaced, List.map_append, emit_unplaced]
      rfl
    · refine .bind (lowerExpr_mirrors loop? lhs) fun lhs => .bind (lowerExpr_mirrors loop? rhs) fun rhs => ?_
      exact .applyOperator n.location op.builtin [lhs, rhs]
  | .assign n l target value => by
    cases target with
    | name n x =>
      simp only [Expr.unplaced, lowerExpr]
      refine .bind (.resolve x n.location) fun v => ?_
      refine .bind (lowerExpr_mirrors loop? value) fun value => .pure ?_
      simp only [Fragment.unplaced, List.map_append, emit_unplaced]
      rfl
    | _ =>
      simp only [Expr.unplaced, lowerExpr]
      exact .throw rfl
  | .ifThen n c t => by
    simp only [Expr.unplaced, lowerExpr]
    refine .bind .freshLabel fun yes => .bind .freshLabel fun done => ?_
    refine .bind (lowerExpr_mirrors loop? c) fun c => .bind (lowerExpr_mirrors loop? t) fun t => .pure ?_
    simp only [Fragment.unplaced, List.map_append, emit_unplaced]
    rfl
  | .ifElse n c t e => by
    simp only [Expr.unplaced, lowerExpr]
    refine .bind (.typeOf n) fun τ => ?_
    refine .bind .freshLabel fun yes => .bind .freshLabel fun no => .bind .freshLabel fun done => ?_
    refine .bind (lowerExpr_mirrors loop? c) fun c => .bind (lowerExpr_mirrors loop? t) fun t => ?_
    dsimp only [id]
    split
    · refine .bind (lowerExpr_mirrors loop? e) fun e => .pure ?_
      simp only [Fragment.unplaced, List.map_append, emit_unplaced]
      rfl
    · refine .bind (.mergeTarget n.location t.value) fun merge => ?_
      refine .bind (lowerExpr_mirrors loop? e) fun e => .pure ?_
      simp only [Fragment.unplaced, List.map_append, emit_unplaced]
      rfl
  | .loop n c b => by
    simp only [Expr.unplaced, lowerExpr]
    refine .bind .freshLabel fun start => .bind .freshLabel fun body => .bind .freshLabel fun exit => ?_
    refine .bind (lowerExpr_mirrors loop? c) fun c => ?_
    refine .bind (lowerExpr_mirrors (some ⟨start, exit⟩) b) fun b => .pure ?_
    simp only [Fragment.unplaced, List.map_append, emit_unplaced]
    rfl
  | .block n es => by
    simp only [Expr.unplaced, lowerExpr]
    exact .inScope (lowerStatements_mirrors loop? es .unit)
  | .declare n x written? e => by
    simp only [Expr.unplaced, lowerExpr]
    refine .bind (lowerExpr_mirrors loop? e) fun e => .bind .freshTemp fun v => ?_
    refine .bind (.declareOwned x v) fun _ => .pure ?_
    simp only [Fragment.unplaced, List.map_append, emit_unplaced]
    rfl
  | .call n f es => by
    simp only [Expr.unplaced, lowerExpr]
    refine .bind (.resolve f n.location) fun callee => .bind (lowerArguments_mirrors loop? es) fun es => ?_
    refine .bind .freshTemp fun target => .pure ?_
    rw [codes_unplaced, values_unplaced, Fragment.unplaced, List.map_append, emit_unplaced]
    rfl
  | .control n c => by
    simp only [Expr.unplaced, lowerExpr]
    split
    · exact .pure rfl
    · exact .throw rfl
  | .leave n => by
    simp only [Expr.unplaced, lowerExpr]
    exact .pure rfl
  | .leaveWith n e => by
    simp only [Expr.unplaced, lowerExpr]
    refine .bind (lowerExpr_mirrors loop? e) fun e => .pure ?_
    simp only [Fragment.unplaced, List.map_append, emit_unplaced]
    rfl

theorem lowerStatements_mirrors (loop? : Option LoopLabels) : ∀ (es : List Expr) (last : Var),
    Mirrors Fragment.unplaced (lowerStatements loop? (Expr.allUnplaced es) last)
      (lowerStatements loop? es last)
  | [], last => by
    simp only [Expr.allUnplaced, lowerStatements]
    exact .pure rfl
  | e :: es, last => by
    simp only [Expr.allUnplaced, lowerStatements]
    refine .bind (lowerExpr_mirrors loop? e) fun e => ?_
    refine .bind (lowerStatements_mirrors loop? es e.value) fun rest => .pure ?_
    simp only [Fragment.unplaced, List.map_append]

theorem lowerArguments_mirrors (loop? : Option LoopLabels) : ∀ es : List Expr,
    Mirrors (List.map Fragment.unplaced) (lowerArguments loop? (Expr.allUnplaced es))
      (lowerArguments loop? es)
  | [] => by
    simp only [Expr.allUnplaced, lowerArguments]
    exact .pure rfl
  | e :: es => by
    simp only [Expr.allUnplaced, lowerArguments]
    refine .bind (lowerExpr_mirrors loop? e) fun e => ?_
    exact .bind (lowerArguments_mirrors loop? es) fun rest => .pure rfl

end

/-! ## Functions and modules -/

theorem declareFunction_mirrors (f : FunctionDefinition) :
    Mirrors id (declareFunction f.unplaced) (declareFunction f) :=
  .declare f.name.text (.named f.name.text) rfl

theorem lowerParameter_mirrors (p : Parameter) : Mirrors id (lowerParameter p.unplaced) (lowerParameter p) :=
  .bind .freshTemp fun v => .bind (.declareOwned p.name v) fun _ => .pure rfl

/-- Going through a list. -/
theorem Mirrors.mapM {γ γ' : Type} {view : γ → γ'} {f : α → Lower γ} {f' : α' → Lower γ'} {g : α → α'}
    (h : ∀ a, Mirrors view (f' (g a)) (f a)) : ∀ as : List α,
      Mirrors (List.map view) ((as.map g).mapM f') (as.mapM f)
  | [] => .pure rfl
  | a :: as => by
    rw [List.map_cons, List.mapM_cons, List.mapM_cons]
    exact .bind (h a) fun c => .bind (mapM h as) fun cs => .pure rfl

theorem Mirrors.forM {f : α → Lower PUnit} {f' : α' → Lower PUnit} {g : α → α'}
    (h : ∀ a, Mirrors id (f' (g a)) (f a)) : ∀ as : List α, Mirrors id ((as.map g).forM f') (as.forM f)
  | [] => .pure rfl
  | a :: as => .bind (h a) fun _ => forM h as

theorem lowerFunction_mirrors (f : FunctionDefinition) :
    Mirrors Function.unplaced (lowerFunction f.unplaced) (lowerFunction f) := by
  refine .inScope (.bind (.mapM lowerParameter_mirrors f.parameters) fun parameters => ?_)
  refine .bind (lowerExpr_mirrors none f.body) fun body => .pure ?_
  have hends : f.unplaced.body.endsInReturn = f.body.endsInReturn := f.body.endsInReturn_unplaced
  rw [hends, List.map_id]
  split
  · rfl
  · simp only [Function.unplaced, Fragment.unplaced, List.map_append, emit_unplaced, Expr.location,
      FunctionDefinition.unplaced, f.body.note_unplaced]
    rfl

theorem lowerEntryPoint_mirrors (body : Expr) :
    Mirrors Function.unplaced (lowerEntryPoint body.unplaced) (lowerEntryPoint body) := by
  refine .bind (lowerExpr_mirrors none body) fun fragment => ?_
  rw [Expr.location, body.note_unplaced]
  refine .bind (.typeOf body.note) fun τ => ?_
  dsimp only [id]
  split
  · exact .pure rfl
  · rename_i printer _
    exact .bind (.applyOperator body.location printer [fragment]) fun printed => .pure rfl

theorem lowerModule_mirrors (m : Syntax.Module) :
    Mirrors IR.Module.unplaced (lowerModule m.unplaced) (lowerModule m) := by
  refine .bind (.forM declareFunction_mirrors m.functions) fun _ => ?_
  refine .bind (.mapM lowerFunction_mirrors m.functions) fun functions => ?_
  refine .bind (lowerEntryPoint_mirrors m.body) fun main => .pure ?_
  simp [IR.Module.unplaced]

end Lowering

/-- A module without places lowers to the code of the module, without places. -/
theorem lower_unplaced (m : Syntax.Module) :
    lower m.unplaced = ((lower m).map IR.Module.unplaced).mapError Fault.unplaced := by
  have h := Lowering.lowerModule_mirrors m {}
  change Except.map Prod.fst (Lowering.lowerModule m.unplaced {}) =
    ((Except.map Prod.fst (Lowering.lowerModule m {})).map _).mapError _
  rw [h]
  cases Lowering.lowerModule m {} <;> rfl

end Exprc

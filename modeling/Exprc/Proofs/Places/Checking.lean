/-
Checking without places. Checking a tree without places gives what checking the tree itself gives, without
places (`checkModule_unplaced`): places go into the places of failures and nowhere else.
-/
import Exprc.Proofs.Places.Erasure
import Exprc.Typing.Checker

namespace Exprc.Typing

open Syntax

/-- What a check leaves behind, without places. -/
def Checked.unplaced {α β γ : Type} (view : α → β) (c : Checked α γ) : Checked β γ :=
  ⟨view c.tree, c.outcome.mapError Fault.unplaced, c.scopes⟩

/-! ## Combinators -/

namespace Checker

variable {α β γ δ α' β' : Type}

/-- A check of a tree without places that gives, in all scopes, what the check of the tree gives, without
places. -/
def Mirrors (view : α → α') (c' : Checker α' γ) (c : Checker α γ) : Prop := ∀ s, c' s = (c s).unplaced view

namespace Mirrors

variable {view : α → α'} {w : β → β'} {c : Checker α γ} {c' : Checker α' γ} {tree : α} {tree' : α'}

theorem done {found : γ} (h : tree' = view tree) : Mirrors view (done tree' found) (done tree found) := by
  subst h
  exact fun _ => rfl

theorem fail {fault fault' : Fault TypeError} (h : tree' = view tree) (hfault : fault' = fault.unplaced) :
    Mirrors view (fail tree' fault' : Checker α' γ) (fail tree fault) := by
  subst h hfault
  exact fun _ => rfl

theorem map {f : α → β} {f' : α' → β'} (h : Mirrors view c' c) (hf : ∀ a, f' (view a) = w (f a)) :
    Mirrors w (map f' c') (map f c) := by
  intro s
  simp only [Checker.map, h s, Checked.unplaced, hf]

theorem andThen {rebuild : α → β} {rebuild' : α' → β'} {rest : α → γ → Checker β δ}
    {rest' : α' → γ → Checker β' δ} (h : Mirrors view c' c)
    (hrebuild : ∀ a, rebuild' (view a) = w (rebuild a))
    (hrest : ∀ a found, Mirrors w (rest' (view a) found) (rest a found)) :
    Mirrors w (c'.andThen rebuild' rest') (c.andThen rebuild rest) := by
  intro s
  simp only [Checker.andThen, h s, Checked.unplaced]
  cases (c s).outcome with
  | ok found => exact hrest _ found _
  | error fault => simp only [Except.mapError, hrebuild]

theorem ensure {demand : α → γ → Except (Fault TypeError) Unit}
    {demand' : α' → γ → Except (Fault TypeError) Unit} (h : Mirrors view c' c)
    (hdemand : ∀ a found, demand' (view a) found = (demand a found).mapError Fault.unplaced) :
    Mirrors view (c'.ensure demand') (c.ensure demand) := by
  intro s
  simp only [Checker.ensure, h s, Checked.unplaced, Checked.mk.injEq, true_and, and_true]
  cases (c s).outcome with
  | error fault => rfl
  | ok found =>
    simp only [Except.mapError, bind, Except.bind, hdemand]
    cases demand (c s).tree found <;> rfl

theorem ask {question question' : Scopes → Except (Fault TypeError) δ} {rest : δ → Checker α γ}
    {rest' : δ → Checker α' γ} (h : tree' = view tree)
    (hquestion : ∀ s, question' s = (question s).mapError Fault.unplaced)
    (hrest : ∀ answer, Mirrors view (rest' answer) (rest answer)) :
    Mirrors view (ask tree' question' rest') (ask tree question rest) := by
  subst h
  intro s
  simp only [Checker.ask, hquestion s]
  cases question s with
  | ok answer => exact hrest answer s
  | error fault => rfl

theorem declaring {name : String} {τ : Ty} {fault fault' : Fault TypeError} (htree : tree' = view tree)
    (hfault : fault' = fault.unplaced) (h : Mirrors view c' c) :
    Mirrors view (declaring tree' name τ fault' c') (declaring tree name τ fault c) := by
  subst htree hfault
  intro s
  simp only [Checker.declaring]
  cases s.declare? name (.value τ) with
  | some s => exact h s
  | none => rfl

theorem inScope (h : Mirrors view c' c) : Mirrors view (inScope c') (inScope c) := by
  intro s
  simp only [Checker.inScope, h s.push, Checked.unplaced]
  cases ho : (c s.push).outcome <;> simp only [Except.mapError, ho]

theorem conclude {build build' : Note → Expr} {n : Note} {τ : Ty}
    (h : ∀ n, build' n.unplaced = (build n).unplaced) :
    Mirrors Expr.unplaced (conclude build' n.unplaced τ) (conclude build n τ) := by
  obtain ⟨l, _ | known⟩ := n
  · exact .done (h ⟨l, some τ⟩)
  · simp only [Typing.conclude, Note.unplaced]
    split
    · exact .done (h ⟨l, some known⟩)
    · exact .fail (h ⟨l, some known⟩) rfl

end Mirrors

end Checker

open Checker (Mirrors)

/-! ## What is demanded -/

theorem blame_unplaced {γ : Type} (l : Location) (r : Except TypeError γ) :
    blame .nowhere r = (blame l r).mapError Fault.unplaced := by cases r <;> rfl

theorem demandCondition_unplaced (c : Expr) (τ : Ty) :
    demandCondition c.unplaced τ = (demandCondition c τ).mapError Fault.unplaced := by
  unfold demandCondition
  split
  · rfl
  · rw [Expr.location, c.note_unplaced]
    rfl

theorem demandArgument_unplaced (expected : Ty) (e : Expr) (τ : Ty) :
    demandArgument expected e.unplaced τ = (demandArgument expected e τ).mapError Fault.unplaced := by
  unfold demandArgument
  split
  · rfl
  · rw [Expr.location, e.note_unplaced]
    rfl

theorem isVariable_unplaced (e : Expr) : isVariable e.unplaced = isVariable e := by cases e <;> rfl

/-! ## Expressions -/

mutual

/-- Checking an expression without places. -/
theorem checkExpr_mirrors (ρ? : Option Ty) :
    ∀ e : Expr, Mirrors Expr.unplaced (checkExpr ρ? e.unplaced) (checkExpr ρ? e)
  | .int .. | .bool .. | .unit .. | .control .. => by
    simp only [Expr.unplaced, checkExpr]
    exact .conclude fun _ => rfl
  | .name n x => by
    simp only [Expr.unplaced, checkExpr]
    exact .ask rfl (fun s => blame_unplaced ..) fun τ => .conclude fun _ => rfl
  | .leave n => by
    simp only [Expr.unplaced, checkExpr]
    exact .ask rfl (fun s => blame_unplaced ..) fun τ => .conclude fun _ => rfl
  | .unary n op e => by
    simp only [Expr.unplaced, checkExpr]
    refine .andThen (checkExpr_mirrors ρ? e) (fun _ => rfl) fun e τ => ?_
    exact .ask rfl (fun s => blame_unplaced ..) fun τ => .conclude fun _ => rfl
  | .binary n op l lhs rhs => by
    simp only [Expr.unplaced, checkExpr]
    refine .andThen (checkExpr_mirrors ρ? lhs) (fun _ => rfl) fun lhs τ => ?_
    refine .andThen (checkExpr_mirrors ρ? rhs) (fun _ => rfl) fun rhs υ => ?_
    exact .ask rfl (fun s => blame_unplaced ..) fun τ => .conclude fun _ => rfl
  | .assign n l target value => by
    simp only [Expr.unplaced, checkExpr, isVariable_unplaced]
    split
    · refine .andThen (checkExpr_mirrors ρ? target) (fun _ => rfl) fun target τ => ?_
      refine .andThen (checkExpr_mirrors ρ? value) (fun _ => rfl) fun value υ => ?_
      split
      · exact .conclude fun _ => rfl
      · exact .fail rfl rfl
    · rw [Expr.location, target.note_unplaced]
      exact .fail rfl rfl
  | .ifThen n c t => by
    simp only [Expr.unplaced, checkExpr]
    refine .andThen (.ensure (checkExpr_mirrors ρ? c) demandCondition_unplaced) (fun _ => rfl) fun c _ => ?_
    refine .andThen (checkExpr_mirrors ρ? t) (fun _ => rfl) fun t _ => ?_
    exact .conclude fun _ => rfl
  | .ifElse n c t e => by
    simp only [Expr.unplaced, checkExpr]
    refine .andThen (.ensure (checkExpr_mirrors ρ? c) demandCondition_unplaced) (fun _ => rfl) fun c _ => ?_
    refine .andThen (checkExpr_mirrors ρ? t) (fun _ => rfl) fun t τ => ?_
    refine .andThen (checkExpr_mirrors ρ? e) (fun _ => rfl) fun e υ => ?_
    split
    · exact .conclude fun _ => rfl
    · exact .fail rfl rfl
  | .loop n c b => by
    simp only [Expr.unplaced, checkExpr]
    refine .andThen (.ensure (checkExpr_mirrors ρ? c) demandCondition_unplaced) (fun _ => rfl) fun c _ => ?_
    refine .andThen (checkExpr_mirrors ρ? b) (fun _ => rfl) fun b _ => ?_
    exact .conclude fun _ => rfl
  | .block n es => by
    simp only [Expr.unplaced, checkExpr]
    refine .andThen (.inScope (checkStatements_mirrors ρ? es .unit)) (fun _ => rfl) fun es τ => ?_
    exact .conclude fun _ => rfl
  | .declare n x written? e => by
    simp only [Expr.unplaced, checkExpr]
    have hty : (written?.map (·.unplaced)).map (·.ty) = written?.map (·.ty) := by
      rw [Option.map_map]
      rfl
    refine .andThen (checkExpr_mirrors ρ? e) (fun _ => rfl) fun e τ => ?_
    refine .ask rfl (fun s => ?_) fun τ => .declaring rfl rfl (.conclude fun _ => rfl)
    rw [hty]
    exact blame_unplaced ..
  | .call n f es => by
    have hlength : (Expr.allUnplaced es).length = es.length := by
      rw [Expr.allUnplaced_eq, List.length_map]
    simp only [Expr.unplaced, checkExpr, hlength]
    refine .ask rfl (fun s => blame_unplaced ..) fun σ => ?_
    refine .andThen (checkArguments_mirrors ρ? es σ.parameters) (fun _ => rfl) fun es _ => ?_
    exact .conclude fun _ => rfl
  | .leaveWith n e => by
    simp only [Expr.unplaced, checkExpr]
    split
    · refine .andThen (checkExpr_mirrors ρ? e) (fun _ => rfl) fun e τ => ?_
      exact .ask rfl (fun s => blame_unplaced ..) fun τ => .conclude fun _ => rfl
    · exact .fail rfl rfl

theorem checkStatements_mirrors (ρ? : Option Ty) : ∀ (es : List Expr) (τ₀ : Ty),
    Mirrors Expr.allUnplaced (checkStatements ρ? (Expr.allUnplaced es) τ₀) (checkStatements ρ? es τ₀)
  | [], τ₀ => by
    simp only [Expr.allUnplaced, checkStatements]
    exact .done rfl
  | e :: es, τ₀ => by
    simp only [Expr.allUnplaced, checkStatements]
    refine .andThen (checkExpr_mirrors ρ? e) (fun _ => rfl) fun e τ => ?_
    exact .map (checkStatements_mirrors ρ? es τ) fun _ => rfl

theorem checkArguments_mirrors (ρ? : Option Ty) : ∀ (es : List Expr) (τs : List Ty),
    Mirrors Expr.allUnplaced (checkArguments ρ? (Expr.allUnplaced es) τs) (checkArguments ρ? es τs)
  | [], τs => by
    simp only [Expr.allUnplaced, checkArguments]
    exact .done rfl
  | e :: es, [] => by
    simp only [Expr.allUnplaced, checkArguments]
    exact .done rfl
  | e :: es, τ :: τs => by
    simp only [Expr.allUnplaced, checkArguments]
    have hargument := (checkExpr_mirrors ρ? e).ensure (demandArgument_unplaced τ)
    refine .andThen hargument (fun _ => rfl) fun e _ => ?_
    exact .map (checkArguments_mirrors ρ? es τs) fun _ => rfl

end

/-! ## Functions and modules -/

theorem declareFunction_unplaced (f : FunctionDefinition) (s : Scopes) :
    declareFunction f.unplaced s = (declareFunction f s).mapError Fault.unplaced := by
  have hsignature : f.unplaced.signature = f.signature := by
    simp only [FunctionDefinition.signature, FunctionDefinition.unplaced, List.map_map]
    rfl
  have hname : f.unplaced.name.text = f.name.text := rfl
  unfold declareFunction
  rw [hsignature, hname]
  split
  · rfl
  · rcases s.resolve? f.name.text with _ | b | v
    · cases s.declare? f.name.text (.value f.signature.ty) <;> rfl
    · rfl
    · cases s.declare? f.name.text (.value f.signature.ty) <;> rfl

theorem declareFunctions_unplaced : ∀ (fs : List FunctionDefinition) (s : Scopes),
    (fs.map (·.unplaced)).foldlM (fun s f => declareFunction f s) s =
      (fs.foldlM (fun s f => declareFunction f s) s).mapError Fault.unplaced
  | [], _ => rfl
  | f :: fs, s => by
    rw [List.map_cons, List.foldlM_cons, List.foldlM_cons, declareFunction_unplaced]
    cases declareFunction f s with
    | error fault => rfl
    | ok s => exact declareFunctions_unplaced fs s

theorem declaringParameters_mirrors {α α' γ : Type} {view : α → α'} {tree : α} {tree' : α'}
    {rest : Checker α γ} {rest' : Checker α' γ} (htree : tree' = view tree)
    (h : Mirrors view rest' rest) : ∀ ps : List Parameter,
      Mirrors view (declaringParameters tree' rest' (ps.map (·.unplaced))) (declaringParameters tree rest ps)
  | [] => h
  | _ :: ps => .declaring htree rfl (declaringParameters_mirrors htree h ps)

theorem checkFunction_mirrors (f : FunctionDefinition) :
    Mirrors FunctionDefinition.unplaced (checkFunction f.unplaced) (checkFunction f) := by
  have hbody : Mirrors FunctionDefinition.unplaced
      ((checkExpr (some f.result.ty) f.body.unplaced).map fun body => { f.unplaced with body })
      ((checkExpr (some f.result.ty) f.body).map fun body => { f with body }) :=
    .map (checkExpr_mirrors _ f.body) fun _ => rfl
  refine .ensure (.inScope (declaringParameters_mirrors rfl hbody f.parameters)) fun g τ => ?_
  unfold demandBody
  change (if τ = g.result.ty then _ else _) = _
  split
  · rfl
  · change Except.error (Fault.at g.body.unplaced.location _) = _
    rw [Expr.location, g.body.note_unplaced]
    rfl

theorem checkFunctions_mirrors : ∀ fs : List FunctionDefinition,
    Mirrors (List.map FunctionDefinition.unplaced) (checkFunctions (fs.map (·.unplaced))) (checkFunctions fs)
  | [] => .done rfl
  | f :: fs => .andThen (checkFunction_mirrors f) (fun _ => rfl) fun _ _ =>
      .map (checkFunctions_mirrors fs) fun _ => rfl

/-- Checking a module without places gives what checking the module gives, without places. -/
theorem checkModule_unplaced (m : Module) :
    checkModule m.unplaced = (checkModule m).unplaced Module.unplaced := by
  have hdeclared := declareFunctions_unplaced m.functions ScopeChain.withBuiltins
  unfold checkModule
  simp only [Module.unplaced, hdeclared]
  cases m.functions.foldlM (fun s f => declareFunction f s) ScopeChain.withBuiltins with
  | error fault => rfl
  | ok s =>
    refine Mirrors.andThen (w := Module.unplaced) (checkFunctions_mirrors m.functions) (fun _ => rfl)
      (fun functions _ => ?_) s
    exact .map (checkExpr_mirrors none m.body) fun _ => rfl

end Exprc.Typing

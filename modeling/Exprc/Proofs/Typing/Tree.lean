/-
What a check does to a tree. Whether it succeeds or not, it changes nothing but the types in notes: a
tree without types is the same before and behind the check. And if it succeeds, then it has come to every
expression in the tree, and has accepted it.
-/
import Exprc.Proofs.Syntax.Nodes
import Exprc.Proofs.Typing.Success

namespace Exprc.Typing

open Syntax

/-! ## Combinators -/

namespace Checker

variable {α β γ δ ν : Type} {s : Scopes} {v : ν}

theorem andThen_tree {view : β → ν} {part : Checker α γ} {rebuild : α → β} {rest : α → γ → Checker β δ}
    (hpart : view (rebuild (part s).tree) = v)
    (hrest : ∀ found, view (rest (part s).tree found (part s).scopes).tree = v) :
    view (part.andThen rebuild rest s).tree = v := by
  unfold andThen
  cases ho : (part s).outcome with
  | error fault => simpa only [ho] using hpart
  | ok found => simpa only [ho] using hrest found

theorem ask_tree {view : α → ν} {tree : α} {question : Scopes → Except (Fault TypeError) δ}
    {rest : δ → Checker α γ} (htree : view tree = v) (hrest : ∀ answer, view (rest answer s).tree = v) :
    view (ask tree question rest s).tree = v := by
  unfold ask
  split
  · exact hrest _
  · exact htree

theorem declaring_tree {view : α → ν} {tree : α} {name : String} {τ : Ty} {fault : Fault TypeError}
    {rest : Checker α γ} (htree : view tree = v) (hrest : ∀ s, view (rest s).tree = v) :
    view (declaring tree name τ fault rest s).tree = v := by
  unfold declaring
  split
  · exact hrest _
  · exact htree

theorem inScope_tree (c : Checker α γ) (s : Scopes) : (inScope c s).tree = (c s.push).tree := by
  unfold inScope
  cases h : (c s.push).outcome <;> simp only [h]

theorem conclude_tree {view : Expr → ν} {build : Note → Expr} {n : Note} {τ : Ty}
    (h : ∀ n' : Note, n'.untyped = n.untyped → view (build n') = v) :
    view (conclude build n τ s).tree = v := by
  unfold conclude
  cases n.ty? with
  | none => exact h _ rfl
  | some known =>
    dsimp only
    split
    · exact h n rfl
    · exact h n rfl

end Checker

open Checker

/-! ## Expressions -/

mutual

/-- Checking an expression changes nothing but types. -/
theorem checkExpr_untyped (ρ? : Option Ty) :
    ∀ (e : Expr) (s : Scopes), (checkExpr ρ? e s).tree.untyped = e.untyped
  | .int n value, s => by rw [checkExpr]; exact conclude_tree fun n' hn => by simp [Expr.untyped, hn]
  | .bool n value, s => by rw [checkExpr]; exact conclude_tree fun n' hn => by simp [Expr.untyped, hn]
  | .unit n, s => by rw [checkExpr]; exact conclude_tree fun n' hn => by simp [Expr.untyped, hn]
  | .control n c, s => by rw [checkExpr]; exact conclude_tree fun n' hn => by simp [Expr.untyped, hn]
  | .name n x, s => by
    rw [checkExpr]
    exact ask_tree rfl fun τ => conclude_tree fun n' hn => by simp [Expr.untyped, hn]
  | .leave n, s => by
    rw [checkExpr]
    exact ask_tree rfl fun ρ => conclude_tree fun n' hn => by simp [Expr.untyped, hn]
  | .unary n op e, s => by
    have h := checkExpr_untyped ρ? e s
    rw [checkExpr]
    refine andThen_tree (by simp [Expr.untyped, h]) fun τ => ask_tree (by simp [Expr.untyped, h]) fun ρ => ?_
    exact conclude_tree fun n' hn => by simp [Expr.untyped, hn, h]
  | .binary n op l lhs rhs, s => by
    have h₁ := checkExpr_untyped ρ? lhs s
    have h₂ := checkExpr_untyped ρ? rhs (checkExpr ρ? lhs s).scopes
    rw [checkExpr]
    refine andThen_tree (by simp [Expr.untyped, h₁]) fun τ => ?_
    refine andThen_tree (by simp [Expr.untyped, h₁, h₂]) fun υ => ?_
    refine ask_tree (by simp [Expr.untyped, h₁, h₂]) fun ρ => ?_
    exact conclude_tree fun n' hn => by simp [Expr.untyped, hn, h₁, h₂]
  | .assign n l target value, s => by
    have h₁ := checkExpr_untyped ρ? target s
    have h₂ := checkExpr_untyped ρ? value (checkExpr ρ? target s).scopes
    rw [checkExpr]
    split
    · refine andThen_tree (by simp [Expr.untyped, h₁]) fun τ => ?_
      refine andThen_tree (by simp [Expr.untyped, h₁, h₂]) fun υ => ?_
      split
      · exact conclude_tree fun n' hn => by simp [Expr.untyped, hn, h₁, h₂]
      · simp [fail, Expr.untyped, h₁, h₂]
    · rfl
  | .ifThen n c t, s => by
    have h₁ := checkExpr_untyped ρ? c s
    have h₂ := checkExpr_untyped ρ? t (checkExpr ρ? c s).scopes
    rw [checkExpr]
    refine andThen_tree (by simp [ensure, Expr.untyped, h₁]) fun _ => ?_
    refine andThen_tree (by simp [ensure, Expr.untyped, h₁, h₂]) fun τ => ?_
    exact conclude_tree fun n' hn => by simp [ensure, Expr.untyped, hn, h₁, h₂]
  | .ifElse n c t e, s => by
    have h₁ := checkExpr_untyped ρ? c s
    have h₂ := checkExpr_untyped ρ? t (checkExpr ρ? c s).scopes
    have h₃ := checkExpr_untyped ρ? e (checkExpr ρ? t (checkExpr ρ? c s).scopes).scopes
    rw [checkExpr]
    refine andThen_tree (by simp [ensure, Expr.untyped, h₁]) fun _ => ?_
    refine andThen_tree (by simp [ensure, Expr.untyped, h₁, h₂]) fun τ => ?_
    refine andThen_tree (by simp [ensure, Expr.untyped, h₁, h₂, h₃]) fun υ => ?_
    split
    · exact conclude_tree fun n' hn => by simp [ensure, Expr.untyped, hn, h₁, h₂, h₃]
    · simp [ensure, fail, Expr.untyped, h₁, h₂, h₃]
  | .loop n c b, s => by
    have h₁ := checkExpr_untyped ρ? c s
    have h₂ := checkExpr_untyped ρ? b (checkExpr ρ? c s).scopes
    rw [checkExpr]
    refine andThen_tree (by simp [ensure, Expr.untyped, h₁]) fun _ => ?_
    refine andThen_tree (by simp [ensure, Expr.untyped, h₁, h₂]) fun τ => ?_
    exact conclude_tree fun n' hn => by simp [ensure, Expr.untyped, hn, h₁, h₂]
  | .block n es, s => by
    have h := checkStatements_untyped ρ? es .unit s.push
    rw [checkExpr]
    refine andThen_tree (by simp [inScope_tree, Expr.untyped, h]) fun τ => ?_
    exact conclude_tree fun n' hn => by simp [inScope_tree, Expr.untyped, hn, h]
  | .declare n x written? e, s => by
    have h := checkExpr_untyped ρ? e s
    rw [checkExpr]
    refine andThen_tree (by simp [Expr.untyped, h]) fun τ => ask_tree (by simp [Expr.untyped, h]) fun τ => ?_
    refine declaring_tree (by simp [Expr.untyped, h]) fun s => ?_
    exact conclude_tree fun n' hn => by simp [Expr.untyped, hn, h]
  | .call n f es, s => by
    rw [checkExpr]
    refine ask_tree rfl fun σ => ?_
    have h := checkArguments_untyped ρ? es σ.parameters s
    refine andThen_tree (by simp [Expr.untyped, h]) fun _ => ?_
    exact conclude_tree fun n' hn => by simp [Expr.untyped, hn, h]
  | .leaveWith n e, s => by
    have h := checkExpr_untyped ρ? e s
    rw [checkExpr]
    split
    · refine andThen_tree (by simp [Expr.untyped, h]) fun τ => ask_tree (by simp [Expr.untyped, h]) fun ρ => ?_
      exact conclude_tree fun n' hn => by simp [Expr.untyped, hn, h]
    · rfl

theorem checkStatements_untyped (ρ? : Option Ty) :
    ∀ (es : List Expr) (τ₀ : Ty) (s : Scopes),
      Expr.allUntyped (checkStatements ρ? es τ₀ s).tree = Expr.allUntyped es
  | [], τ₀, s => by rw [checkStatements]; rfl
  | e :: es, τ₀, s => by
    have h₁ := checkExpr_untyped ρ? e s
    rw [checkStatements]
    refine andThen_tree (by simp [Expr.allUntyped, h₁]) fun τ => ?_
    have h₂ := checkStatements_untyped ρ? es τ (checkExpr ρ? e s).scopes
    simp [Checker.map, Expr.allUntyped, h₁, h₂]

theorem checkArguments_untyped (ρ? : Option Ty) :
    ∀ (es : List Expr) (τs : List Ty) (s : Scopes),
      Expr.allUntyped (checkArguments ρ? es τs s).tree = Expr.allUntyped es
  | [], _, s => by rw [checkArguments]; rfl; simp
  | e :: es, [], s => by rw [checkArguments]; rfl; simp
  | e :: es, τ :: τs, s => by
    have h₁ := checkExpr_untyped ρ? e s
    have h₂ := checkArguments_untyped ρ? es τs (checkExpr ρ? e s).scopes
    rw [checkArguments]
    refine andThen_tree (by simp [ensure, Expr.allUntyped, h₁]) fun _ => ?_
    simp [ensure, Checker.map, Expr.allUntyped, h₁, h₂]

end

/-! ## Functions and modules -/

theorem declaringParameters_tree {α γ ν : Type} {view : α → ν} {v : ν} {tree : α} {rest : Checker α γ}
    (htree : view tree = v) (hrest : ∀ s, view (rest s).tree = v) :
    ∀ (ps : List Parameter) (s : Scopes), view (declaringParameters tree rest ps s).tree = v
  | [], s => hrest s
  | _ :: ps, _ => declaring_tree htree (declaringParameters_tree htree hrest ps)

/-- Checking a function changes nothing but types in its body. -/
theorem checkFunction_untyped (f : FunctionDefinition) (s : Scopes) :
    (checkFunction f s).tree.untyped = f.untyped := by
  change FunctionDefinition.untyped (inScope _ s).tree = _
  rw [inScope_tree]
  refine declaringParameters_tree rfl (fun s => ?_) f.parameters s.push
  exact congrArg (fun body => { f with body }) (checkExpr_untyped (some f.result.ty) f.body s)

theorem checkFunctions_untyped :
    ∀ (fs : List FunctionDefinition) (s : Scopes),
      (checkFunctions fs s).tree.map (·.untyped) = fs.map (·.untyped)
  | [], s => rfl
  | f :: fs, s => by
    have h₁ := checkFunction_untyped f s
    have h₂ := checkFunctions_untyped fs (checkFunction f s).scopes
    rw [checkFunctions]
    refine andThen_tree (by simp [h₁]) fun _ => ?_
    simp [Checker.map, h₁, h₂]

/-- Checking a module changes nothing but types. -/
theorem checkModule_untyped (m : Module) : (checkModule m).tree.untyped = m.untyped := by
  unfold checkModule
  split
  · rfl
  · rename_i s _
    have h₁ := checkFunctions_untyped m.functions s
    have h₂ := checkExpr_untyped none m.body (checkFunctions m.functions s).scopes
    refine andThen_tree (by simp [Module.untyped, h₁]) fun _ => ?_
    simp [Checker.map, Module.untyped, h₁, h₂]

/-! ## Parts of a tree that is accepted -/

/-- Whether an expression is accepted somewhere. -/
def Accepted (e : Expr) : Prop := ∃ ρ? s τ, (checkExpr ρ? e s).outcome = .ok τ

mutual

/-- All expressions in an accepted one have been accepted. -/
theorem accepted_subexpressions {ρ? : Option Ty} :
    ∀ (e : Expr) {s : Scopes} {τ : Ty}, (checkExpr ρ? e s).outcome = .ok τ →
      ∀ a ∈ e.subexpressions, Accepted a
  | .int .., s, τ, h | .bool .., s, τ, h | .unit .., s, τ, h | .name .., s, τ, h
  | .control .., s, τ, h | .leave .., s, τ, h => List.forall_mem_singleton.2 ⟨ρ?, s, τ, h⟩
  | .unary n op e, s, τ, h => by
    refine List.forall_mem_cons.2 ⟨⟨ρ?, s, τ, h⟩, ?_⟩
    rw [checkExpr] at h
    obtain ⟨_, h₁, -⟩ := andThen_ok h
    exact accepted_subexpressions e h₁
  | .binary n op l lhs rhs, s, τ, h => by
    refine List.forall_mem_cons.2 ⟨⟨ρ?, s, τ, h⟩, ?_⟩
    rw [checkExpr] at h
    obtain ⟨_, h₁, he⟩ := andThen_ok h
    rw [he] at h
    obtain ⟨_, h₂, -⟩ := andThen_ok h
    exact List.forall_mem_append.2 ⟨accepted_subexpressions lhs h₁, accepted_subexpressions rhs h₂⟩
  | .assign n l target value, s, τ, h => by
    refine List.forall_mem_cons.2 ⟨⟨ρ?, s, τ, h⟩, ?_⟩
    rw [checkExpr] at h
    split at h
    · obtain ⟨_, h₁, he⟩ := andThen_ok h
      rw [he] at h
      obtain ⟨_, h₂, -⟩ := andThen_ok h
      exact List.forall_mem_append.2
        ⟨accepted_subexpressions target h₁, accepted_subexpressions value h₂⟩
    · cases h
  | .ifThen n c t, s, τ, h => by
    refine List.forall_mem_cons.2 ⟨⟨ρ?, s, τ, h⟩, ?_⟩
    rw [checkExpr] at h
    obtain ⟨_, h₀, he⟩ := andThen_ok h
    obtain ⟨h₁, -, -, -⟩ := ensure_ok h₀
    rw [he] at h
    obtain ⟨_, h₂, -⟩ := andThen_ok h
    exact List.forall_mem_append.2 ⟨accepted_subexpressions c h₁, accepted_subexpressions t h₂⟩
  | .ifElse n c t e, s, τ, h => by
    refine List.forall_mem_cons.2 ⟨⟨ρ?, s, τ, h⟩, ?_⟩
    rw [checkExpr] at h
    obtain ⟨_, h₀, he⟩ := andThen_ok h
    obtain ⟨h₁, -, -, -⟩ := ensure_ok h₀
    rw [he] at h
    obtain ⟨_, h₂, he⟩ := andThen_ok h
    rw [he] at h
    obtain ⟨_, h₃, -⟩ := andThen_ok h
    refine List.forall_mem_append.2 ⟨accepted_subexpressions c h₁, ?_⟩
    exact List.forall_mem_append.2 ⟨accepted_subexpressions t h₂, accepted_subexpressions e h₃⟩
  | .loop n c b, s, τ, h => by
    refine List.forall_mem_cons.2 ⟨⟨ρ?, s, τ, h⟩, ?_⟩
    rw [checkExpr] at h
    obtain ⟨_, h₀, he⟩ := andThen_ok h
    obtain ⟨h₁, -, -, -⟩ := ensure_ok h₀
    rw [he] at h
    obtain ⟨_, h₂, -⟩ := andThen_ok h
    exact List.forall_mem_append.2 ⟨accepted_subexpressions c h₁, accepted_subexpressions b h₂⟩
  | .block n es, s, τ, h => by
    refine List.forall_mem_cons.2 ⟨⟨ρ?, s, τ, h⟩, ?_⟩
    rw [checkExpr] at h
    obtain ⟨_, h₀, -⟩ := andThen_ok h
    obtain ⟨h₁, -⟩ := inScope_ok h₀
    exact accepted_statements es h₁
  | .declare n x written? e, s, τ, h => by
    refine List.forall_mem_cons.2 ⟨⟨ρ?, s, τ, h⟩, ?_⟩
    rw [checkExpr] at h
    obtain ⟨_, h₁, -⟩ := andThen_ok h
    exact accepted_subexpressions e h₁
  | .call n f es, s, τ, h => by
    refine List.forall_mem_cons.2 ⟨⟨ρ?, s, τ, h⟩, ?_⟩
    rw [checkExpr] at h
    obtain ⟨σ, hq, he⟩ := ask_ok h
    rw [he] at h
    obtain ⟨_, h₁, -⟩ := andThen_ok h
    exact accepted_arguments es σ.parameters (callSignature_ok (blame_ok hq)).2.symm h₁
  | .leaveWith n e, s, τ, h => by
    refine List.forall_mem_cons.2 ⟨⟨ρ?, s, τ, h⟩, ?_⟩
    rw [checkExpr] at h
    split at h
    · obtain ⟨_, h₁, -⟩ := andThen_ok h
      exact accepted_subexpressions e h₁
    · cases h

theorem accepted_statements {ρ? : Option Ty} :
    ∀ (es : List Expr) {s : Scopes} {τ₀ τ : Ty}, (checkStatements ρ? es τ₀ s).outcome = .ok τ →
      ∀ a ∈ Expr.allSubexpressions es, Accepted a
  | [], _, _, _, _ => nofun
  | e :: es, s, τ₀, τ, h => by
    rw [checkStatements] at h
    obtain ⟨_, h₁, he⟩ := andThen_ok h
    rw [he] at h
    exact List.forall_mem_append.2 ⟨accepted_subexpressions e h₁, accepted_statements es h⟩

theorem accepted_arguments {ρ? : Option Ty} :
    ∀ (es : List Expr) (τs : List Ty) {s : Scopes}, es.length = τs.length →
      (checkArguments ρ? es τs s).outcome = .ok () → ∀ a ∈ Expr.allSubexpressions es, Accepted a
  | [], _, _, _, _ => nofun
  | e :: es, τ :: τs, s, hlen, h => by
    rw [checkArguments] at h
    obtain ⟨_, h₀, he⟩ := andThen_ok h
    obtain ⟨h₁, -, -, hscopes⟩ := ensure_ok h₀
    rw [he, hscopes] at h
    exact List.forall_mem_append.2
      ⟨accepted_subexpressions e h₁, accepted_arguments es τs (Nat.succ.inj hlen) h⟩

end

theorem declaringParameters_ok {α γ : Type} {tree : α} {rest : Checker α γ} {found : γ} :
    ∀ (ps : List Parameter) {s : Scopes}, (declaringParameters tree rest ps s).outcome = .ok found →
      ∃ s', (rest s').outcome = .ok found
  | [], s, h => ⟨s, h⟩
  | p :: ps, s, h => by
    obtain ⟨s', -, he⟩ := declaring_ok h
    rw [declaringParameters, he] at h
    exact declaringParameters_ok ps h

theorem accepted_functions :
    ∀ (fs : List FunctionDefinition) {s : Scopes}, (checkFunctions fs s).outcome = .ok () →
      ∀ f ∈ fs, Accepted f.body
  | [], _, _ => nofun
  | f :: fs, s, h => by
    rw [checkFunctions] at h
    obtain ⟨τ, h₁, he⟩ := andThen_ok h
    rw [he] at h
    refine List.forall_mem_cons.2 ⟨?_, accepted_functions fs h⟩
    obtain ⟨h₂, -, -, -⟩ := ensure_ok h₁
    obtain ⟨h₃, -⟩ := inScope_ok h₂
    obtain ⟨s', h₄⟩ := declaringParameters_ok f.parameters h₃
    exact ⟨some f.result.ty, s', τ, h₄⟩

/-- All expressions in an accepted module have been accepted. -/
theorem accepted_module {m : Module} {τ : Ty} (h : (checkModule m).outcome = .ok τ) :
    ∀ a ∈ m.subexpressions, Accepted a := by
  unfold checkModule at h
  split at h
  · cases h
  · obtain ⟨_, h₁, he⟩ := andThen_ok h
    rw [he] at h
    refine List.forall_mem_append.2 ⟨fun a ha => ?_, accepted_subexpressions m.body h⟩
    obtain ⟨f, hf, ha⟩ := List.mem_flatMap.1 ha
    obtain ⟨ρ?, s, υ, hbody⟩ := accepted_functions m.functions h₁ f hf
    exact accepted_subexpressions f.body hbody a ha

end Exprc.Typing

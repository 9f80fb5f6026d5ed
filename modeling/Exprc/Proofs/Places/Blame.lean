/-
What a check blames. A check that fails blames the place of an expression in the tree or of a name that is declared
there, and no other (`checkModule_blames`).
-/
import Exprc.Proofs.Places.Erasure
import Exprc.Proofs.Places.Within
import Exprc.Proofs.Typing.Tree

namespace Exprc

namespace Typing

open Syntax

variable {P : Location → Prop}

/-! ## Combinators -/

namespace Checker

variable {α β γ δ : Type}

/-- A check that blames only places of a kind, in all scopes. -/
def Blames (P : Location → Prop) (c : Checker α γ) : Prop :=
  ∀ s fault, (c s).outcome = .error fault → fault.Blames P

namespace Blames

variable {c : Checker α γ} {tree : α}

theorem done (tree : α) (found : γ) : Blames P (done tree found) := nofun

theorem fail {fault : Fault TypeError} (h : fault.Blames P) : Blames P (fail tree fault : Checker α γ) := by
  rintro s _ ⟨⟩
  exact h

theorem map {f : α → β} (h : Blames P c) : Blames P (map f c) := h

theorem andThen {rebuild : α → β} {rest : α → γ → Checker β δ} (h : Blames P c)
    (hrest : ∀ s found, Blames P (rest (c s).tree found)) : Blames P (c.andThen rebuild rest) := by
  intro s fault hfault
  unfold Checker.andThen at hfault
  cases hc : (c s).outcome with
  | ok found =>
    simp only [hc] at hfault
    exact hrest s found _ _ hfault
  | error fault' =>
    simp only [hc] at hfault
    cases hfault
    exact h s fault hc

theorem ensure {demand : α → γ → Except (Fault TypeError) Unit} (h : Blames P c)
    (hdemand : ∀ s found fault, demand (c s).tree found = .error fault → fault.Blames P) :
    Blames P (c.ensure demand) := by
  intro s fault hfault
  simp only [Checker.ensure] at hfault
  cases hc : (c s).outcome with
  | ok found =>
    cases hd : demand (c s).tree found with
    | ok u =>
      rw [hc] at hfault
      simp only [bind, Except.bind, hd] at hfault
      cases hfault
    | error fault' =>
      rw [hc] at hfault
      simp only [bind, Except.bind, hd] at hfault
      cases hfault
      exact hdemand s found fault hd
  | error fault' =>
    rw [hc] at hfault
    cases hfault
    exact h s fault hc

theorem ask {question : Scopes → Except (Fault TypeError) δ} {rest : δ → Checker α γ}
    (hquestion : ∀ s fault, question s = .error fault → fault.Blames P) (hrest : ∀ answer, Blames P (rest answer)) :
    Blames P (ask tree question rest) := by
  intro s fault hfault
  unfold Checker.ask at hfault
  split at hfault
  · exact hrest _ s fault hfault
  · rename_i hq
    cases hfault
    exact hquestion s fault hq

theorem declaring {name : String} {τ : Ty} {fault : Fault TypeError} (hfault : fault.Blames P) (h : Blames P c) :
    Blames P (declaring tree name τ fault c) := by
  intro s fault' he
  unfold Checker.declaring at he
  split at he
  · exact h _ fault' he
  · cases he
    exact hfault

theorem inScope (h : Blames P c) : Blames P (inScope c) := by
  intro s fault hfault
  unfold Checker.inScope at hfault
  cases hc : (c s.push).outcome with
  | ok found =>
    simp only [hc] at hfault
    cases hfault
  | error fault' =>
    simp only [hc] at hfault
    cases hfault
    exact h s.push fault hc

theorem conclude {build : Note → Expr} {n : Note} {τ : Ty} (h : P n.location) : Blames P (conclude build n τ) := by
  unfold Typing.conclude
  split
  · exact .done _ _
  · split
    · exact .done _ _
    · exact .fail (.at h _)

end Blames

end Checker

open Checker (Blames)

/-! ## What is demanded -/

theorem blame_blames {γ : Type} {l : Location} {r : Except TypeError γ} {fault : Fault TypeError} (hl : P l)
    (h : blame l r = .error fault) : fault.Blames P := by
  cases r with
  | ok found => cases h
  | error cause =>
    cases h
    exact .at hl cause

/-- An expression that is checked stays where it is. -/
theorem checkExpr_location (ρ? : Option Ty) (e : Expr) (s : Scopes) :
    (checkExpr ρ? e s).tree.location = e.location := by
  rw [← Expr.location_untyped, checkExpr_untyped, Expr.location_untyped]

theorem demandCondition_blames {c : Expr} {τ : Ty} {fault : Fault TypeError} (hc : P c.location)
    (h : demandCondition c τ = .error fault) : fault.Blames P := by
  unfold demandCondition at h
  split at h <;> cases h
  exact .at hc _

theorem demandArgument_blames {expected τ : Ty} {e : Expr} {fault : Fault TypeError} (he : P e.location)
    (h : demandArgument expected e τ = .error fault) : fault.Blames P := by
  unfold demandArgument at h
  split at h <;> cases h
  exact .at he _

/-! ## Expressions -/

theorem ensureCondition_blames {ρ? : Option Ty} {c : Expr} (hc : P c.location) (h : Blames P (checkExpr ρ? c)) :
    Blames P ((checkExpr ρ? c).ensure demandCondition) :=
  h.ensure fun s _ _ => demandCondition_blames (by rwa [checkExpr_location])

mutual

/-- What the check of an expression blames. -/
theorem checkExpr_blames (ρ? : Option Ty) : ∀ e : Expr, e.Within P → Blames P (checkExpr ρ? e)
  | .int .., h | .bool .., h | .unit .., h | .control .., h => by
    simp only [checkExpr]
    exact .conclude h.location
  | .name n x, h => by
    simp only [checkExpr]
    exact .ask (fun s _ => blame_blames h.location) fun τ => .conclude h.location
  | .leave n, h => by
    simp only [checkExpr]
    exact .ask (fun s _ => blame_blames h.location) fun ρ => .conclude h.location
  | .unary n op e, h => by
    obtain ⟨⟨hl, -⟩, he⟩ := List.forall_mem_cons.1 h
    simp only [checkExpr]
    refine (checkExpr_blames ρ? e he).andThen fun _ τ => ?_
    exact .ask (fun s _ => blame_blames hl) fun ρ => .conclude hl
  | .binary n op l lhs rhs, h => by
    obtain ⟨⟨hl, -⟩, hparts⟩ := List.forall_mem_cons.1 h
    obtain ⟨hlhs, hrhs⟩ := List.forall_mem_append.1 hparts
    simp only [checkExpr]
    refine (checkExpr_blames ρ? lhs hlhs).andThen fun _ τ => ?_
    refine (checkExpr_blames ρ? rhs hrhs).andThen fun _ υ => ?_
    exact .ask (fun s _ => blame_blames hl) fun ρ => .conclude hl
  | .assign n l target value, h => by
    obtain ⟨⟨hl, -⟩, hparts⟩ := List.forall_mem_cons.1 h
    obtain ⟨htarget, hvalue⟩ := List.forall_mem_append.1 hparts
    simp only [checkExpr]
    split
    · refine (checkExpr_blames ρ? target htarget).andThen fun _ τ => ?_
      refine (checkExpr_blames ρ? value hvalue).andThen fun _ υ => ?_
      split
      · exact .conclude hl
      · exact .fail (.at hl _)
    · exact .fail (.at (Expr.Within.location htarget) _)
  | .ifThen n c t, h => by
    obtain ⟨⟨hl, -⟩, hparts⟩ := List.forall_mem_cons.1 h
    obtain ⟨hc, ht⟩ := List.forall_mem_append.1 hparts
    simp only [checkExpr]
    refine (ensureCondition_blames (Expr.Within.location hc) (checkExpr_blames ρ? c hc)).andThen fun _ _ => ?_
    refine (checkExpr_blames ρ? t ht).andThen fun _ _ => ?_
    exact .conclude hl
  | .ifElse n c t e, h => by
    obtain ⟨⟨hl, -⟩, hparts⟩ := List.forall_mem_cons.1 h
    obtain ⟨hc, hparts⟩ := List.forall_mem_append.1 hparts
    obtain ⟨ht, he⟩ := List.forall_mem_append.1 hparts
    simp only [checkExpr]
    refine (ensureCondition_blames (Expr.Within.location hc) (checkExpr_blames ρ? c hc)).andThen fun _ _ => ?_
    refine (checkExpr_blames ρ? t ht).andThen fun _ τ => ?_
    refine (checkExpr_blames ρ? e he).andThen fun _ υ => ?_
    split
    · exact .conclude hl
    · exact .fail (.at hl _)
  | .loop n c b, h => by
    obtain ⟨⟨hl, -⟩, hparts⟩ := List.forall_mem_cons.1 h
    obtain ⟨hc, hb⟩ := List.forall_mem_append.1 hparts
    simp only [checkExpr]
    refine (ensureCondition_blames (Expr.Within.location hc) (checkExpr_blames ρ? c hc)).andThen fun _ _ => ?_
    refine (checkExpr_blames ρ? b hb).andThen fun _ _ => ?_
    exact .conclude hl
  | .block n es, h => by
    obtain ⟨⟨hl, -⟩, hes⟩ := List.forall_mem_cons.1 h
    simp only [checkExpr]
    exact (Blames.inScope (checkStatements_blames ρ? es .unit hes)).andThen fun _ τ => .conclude hl
  | .declare n x written? e, h => by
    obtain ⟨⟨hl, hx⟩, he⟩ := List.forall_mem_cons.1 h
    simp only [checkExpr]
    refine (checkExpr_blames ρ? e he).andThen fun _ τ => ?_
    refine .ask (fun s _ => blame_blames hl) fun τ => ?_
    exact .declaring (.at (hx x rfl) _) (.conclude hl)
  | .call n f es, h => by
    obtain ⟨⟨hl, -⟩, hes⟩ := List.forall_mem_cons.1 h
    simp only [checkExpr]
    refine .ask (fun s _ => blame_blames hl) fun σ => ?_
    exact (checkArguments_blames ρ? es σ.parameters hes).andThen fun _ _ => .conclude hl
  | .leaveWith n e, h => by
    obtain ⟨⟨hl, -⟩, he⟩ := List.forall_mem_cons.1 h
    simp only [checkExpr]
    split
    · refine (checkExpr_blames ρ? e he).andThen fun _ τ => ?_
      exact .ask (fun s _ => blame_blames hl) fun ρ => .conclude hl
    · exact .fail (.at hl _)

theorem checkStatements_blames (ρ? : Option Ty) : ∀ (es : List Expr) (τ₀ : Ty),
    Expr.AllWithin P es → Blames P (checkStatements ρ? es τ₀)
  | [], τ₀, _ => by
    simp only [checkStatements]
    exact .done _ _
  | e :: es, τ₀, h => by
    obtain ⟨he, hes⟩ := List.forall_mem_append.1 h
    simp only [checkStatements]
    exact (checkExpr_blames ρ? e he).andThen fun _ τ => .map (checkStatements_blames ρ? es τ hes)

theorem checkArguments_blames (ρ? : Option Ty) : ∀ (es : List Expr) (τs : List Ty),
    Expr.AllWithin P es → Blames P (checkArguments ρ? es τs)
  | [], τs, _ => by
    simp only [checkArguments]
    exact .done _ _
  | e :: es, [], _ => by
    simp only [checkArguments]
    exact .done _ _
  | e :: es, τ :: τs, h => by
    obtain ⟨he, hes⟩ := List.forall_mem_append.1 h
    have hlocation : P e.location := Expr.Within.location he
    simp only [checkArguments]
    have hargument : Blames P ((checkExpr ρ? e).ensure (demandArgument τ)) :=
      (checkExpr_blames ρ? e he).ensure fun s _ _ => demandArgument_blames (by rwa [checkExpr_location])
    exact hargument.andThen fun _ _ => .map (checkArguments_blames ρ? es τs hes)

end

/-! ## Functions and modules -/

theorem declareFunction_blames {f : FunctionDefinition} {s : Scopes} {fault : Fault TypeError} (h : f.Within P)
    (hfault : declareFunction f s = .error fault) : fault.Blames P := by
  unfold declareFunction at hfault
  split at hfault
  · cases hfault
    exact .at h.name _
  · split at hfault
    · cases hfault
      exact .at h.name _
    · split at hfault <;> cases hfault
      exact .at h.name _

theorem declareFunctions_blames {fs : List FunctionDefinition} {s : Scopes} {fault : Fault TypeError}
    (h : ∀ f ∈ fs, f.Within P) (hfault : fs.foldlM (fun s f => declareFunction f s) s = .error fault) :
    fault.Blames P := by
  induction fs generalizing s with
  | nil => cases hfault
  | cons f fs ih =>
    obtain ⟨hf, hfs⟩ := List.forall_mem_cons.1 h
    rw [List.foldlM_cons] at hfault
    cases hd : declareFunction f s with
    | error fault' =>
      rw [hd] at hfault
      cases hfault
      exact declareFunction_blames hf hd
    | ok s' =>
      rw [hd] at hfault
      exact ih hfs hfault

theorem declaringParameters_blames {α γ : Type} {tree : α} {rest : Checker α γ} (h : Blames P rest) :
    ∀ ps : List Parameter, (∀ p ∈ ps, P p.name.location) → Blames P (declaringParameters tree rest ps)
  | [], _ => h
  | _ :: ps, hps => by
    obtain ⟨hp, hps⟩ := List.forall_mem_cons.1 hps
    exact .declaring (.at hp _) (declaringParameters_blames h ps hps)

theorem checkFunction_blames {f : FunctionDefinition} (h : f.Within P) : Blames P (checkFunction f) := by
  have hbody := checkExpr_blames (some f.result.ty) f.body h.body
  refine .ensure (.inScope (declaringParameters_blames (.map hbody) f.parameters h.parameters)) ?_
  intro s τ fault hfault
  -- the body has stayed where it is
  have huntyped := FunctionDefinition.within_untyped.2 h
  rw [← checkFunction_untyped f s] at huntyped
  have hlocation := (FunctionDefinition.within_untyped.1 huntyped).body.location
  unfold demandBody at hfault
  split at hfault
  · cases hfault
  · cases hfault
    exact .at hlocation _

theorem checkFunctions_blames : ∀ fs : List FunctionDefinition, (∀ f ∈ fs, f.Within P) → Blames P (checkFunctions fs)
  | [], _ => .done _ _
  | f :: fs, h => by
    obtain ⟨hf, hfs⟩ := List.forall_mem_cons.1 h
    exact (checkFunction_blames hf).andThen fun _ _ => .map (checkFunctions_blames fs hfs)

/-- A check of a module that fails blames a place in the module. -/
theorem checkModule_blames {m : Module} {fault : Fault TypeError} (h : m.Within P)
    (hfault : (checkModule m).outcome = .error fault) : fault.Blames P := by
  unfold checkModule at hfault
  split at hfault
  · rename_i fault' hd
    cases hfault
    exact declareFunctions_blames h.functions hd
  · rename_i s _
    have hfunctions := checkFunctions_blames m.functions h.functions
    have hbody : ∀ functions, Blames P ((checkExpr none m.body).map fun body => { m with functions, body }) :=
      fun _ => .map (checkExpr_blames none m.body h.body)
    exact hfunctions.andThen (fun _ _ => hbody _) s fault hfault

end Typing

end Exprc

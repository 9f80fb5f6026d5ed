/-
The checker as a traversal: in which scopes it checks each expression of a module. It checks the parts of an
expression one after the other, each in the scopes that the one before left, the first in those of the whole,
or in a scope opened there.
-/
import Exprc.Proofs.Resolution.Traversal
import Exprc.Proofs.Typing.Functions

namespace Exprc.Typing

open Syntax
open Traversal (Closing)
open Checker

/-! ## Parts one after the other -/

theorem conclude_scopes {build : Note → Expr} {n : Note} {τ υ : Ty} {s : Scopes}
    (h : (conclude build n τ s).outcome = .ok υ) : (conclude build n τ s).scopes = s := by
  obtain ⟨-, _, -, -, he⟩ := conclude_ok h
  rw [he]

/-- The scopes that a check leaves behind, if it succeeds. -/
def Checked.scopes? {α γ : Type} (r : Checked α γ) : Option Scopes :=
  match r.outcome with
  | .ok _ => some r.scopes
  | .error _ => none

theorem Checked.scopes?_eq_some {α γ : Type} {r : Checked α γ} {s : Scopes} :
    r.scopes? = some s ↔ ∃ found, r.outcome = .ok found ∧ r.scopes = s := by
  unfold scopes?
  cases r.outcome <;> simp

/-- The scopes after a check of expressions one after the other. -/
def checkAll? (ρ? : Option Ty) (es : List Expr) (s : Scopes) : Option Scopes :=
  es.foldlM (fun s e => (checkExpr ρ? e s).scopes?) s

section

variable {ρ? : Option Ty} {e : Expr} {es : List Expr} {s : Scopes} {τ : Ty}

theorem checkAll?_cons (h : (checkExpr ρ? e s).outcome = .ok τ) :
    checkAll? ρ? (e :: es) s = checkAll? ρ? es (checkExpr ρ? e s).scopes := by
  rw [checkAll?, List.foldlM_cons, Checked.scopes?, h]
  rfl

theorem checkAll?_take_succ {i : Nat} (h : es[i]? = some e) :
    checkAll? ρ? (es.take (i + 1)) s =
      (checkAll? ρ? (es.take i) s).bind fun s => (checkExpr ρ? e s).scopes? := by
  rw [List.take_add_one, h, checkAll?, List.foldlM_append]
  simp [checkAll?]

theorem checkStatements_checkAll? (es : List Expr) {s : Scopes} {last τ : Ty}
    (h : (checkStatements ρ? es last s).outcome = .ok τ) :
    checkAll? ρ? es s = some (checkStatements ρ? es last s).scopes := by
  induction es generalizing s last with
  | nil => rfl
  | cons e es ih =>
    rw [checkStatements] at h ⊢
    obtain ⟨υ, he, hrest⟩ := andThen_ok h
    rw [hrest] at h ⊢
    rw [checkAll?_cons he]
    exact ih h

theorem checkArguments_checkAll? :
    ∀ (es : List Expr) (τs : List Ty) {s : Scopes}, es.length = τs.length →
      (checkArguments ρ? es τs s).outcome = .ok () →
      checkAll? ρ? es s = some (checkArguments ρ? es τs s).scopes
  | [], [], _, _, _ => rfl
  | e :: es, τ :: τs, s, hlength, h => by
    rw [checkArguments] at h ⊢
    obtain ⟨υ, hensure, hrest⟩ := andThen_ok h
    obtain ⟨he, -, -, hscopes⟩ := ensure_ok hensure
    rw [hrest, hscopes] at h ⊢
    rw [checkAll?_cons he]
    exact checkArguments_checkAll? es τs (Nat.succ.inj hlength) h

/-- A check of an expression is a check of its parts one after the other, after which the scope that was opened
is closed, or the declared name is declared. -/
theorem checkExpr_parts {e : Expr} {s : Scopes} {τ : Ty} (h : (checkExpr ρ? e s).outcome = .ok τ) :
    ∃ inner, checkAll? ρ? e.parts (if e.opensScope then s.push else s) = some inner ∧
      Closing e inner (checkExpr ρ? e s).scopes := by
  cases e with
  | int | bool | unit | control =>
    rw [checkExpr] at h ⊢
    rw [conclude_scopes h]
    exact ⟨s, rfl, .plain rfl rfl⟩
  | name | leave =>
    rw [checkExpr] at h ⊢
    obtain ⟨_, -, he⟩ := ask_ok h
    rw [he] at h ⊢
    rw [conclude_scopes h]
    exact ⟨s, rfl, .plain rfl rfl⟩
  | unary n op e =>
    rw [checkExpr] at h ⊢
    obtain ⟨_, h₁, he⟩ := andThen_ok h
    rw [he] at h ⊢
    obtain ⟨_, -, he⟩ := ask_ok h
    rw [he] at h ⊢
    rw [conclude_scopes h]
    exact ⟨_, checkAll?_cons h₁, .plain rfl rfl⟩
  | binary n op l lhs rhs =>
    rw [checkExpr] at h ⊢
    obtain ⟨_, h₁, he⟩ := andThen_ok h
    rw [he] at h ⊢
    obtain ⟨_, h₂, he⟩ := andThen_ok h
    rw [he] at h ⊢
    obtain ⟨_, -, he⟩ := ask_ok h
    rw [he] at h ⊢
    rw [conclude_scopes h]
    exact ⟨_, (checkAll?_cons h₁).trans (checkAll?_cons h₂), .plain rfl rfl⟩
  | assign n l target value =>
    rw [checkExpr] at h ⊢
    split at h
    · rename_i hvariable
      rw [if_pos hvariable]
      obtain ⟨_, h₁, he⟩ := andThen_ok h
      rw [he] at h ⊢
      obtain ⟨_, h₂, he⟩ := andThen_ok h
      rw [he] at h ⊢
      split at h
      · rename_i hsame
        rw [if_pos hsame]
        rw [conclude_scopes h]
        exact ⟨_, (checkAll?_cons h₁).trans (checkAll?_cons h₂), .plain rfl rfl⟩
      · cases h
    · cases h
  | ifThen n c t =>
    rw [checkExpr] at h ⊢
    obtain ⟨_, h₀, he⟩ := andThen_ok h
    obtain ⟨h₁, -, -, hscopes⟩ := ensure_ok h₀
    rw [he, hscopes] at h ⊢
    obtain ⟨_, h₂, he⟩ := andThen_ok h
    rw [he] at h ⊢
    rw [conclude_scopes h]
    exact ⟨_, (checkAll?_cons h₁).trans (checkAll?_cons h₂), .plain rfl rfl⟩
  | ifElse n c t e =>
    rw [checkExpr] at h ⊢
    obtain ⟨_, h₀, he⟩ := andThen_ok h
    obtain ⟨h₁, -, -, hscopes⟩ := ensure_ok h₀
    rw [he, hscopes] at h ⊢
    obtain ⟨_, h₂, he⟩ := andThen_ok h
    rw [he] at h ⊢
    obtain ⟨_, h₃, he⟩ := andThen_ok h
    rw [he] at h ⊢
    split at h
    · rename_i hsame
      rw [if_pos hsame]
      rw [conclude_scopes h]
      exact ⟨_, (checkAll?_cons h₁).trans ((checkAll?_cons h₂).trans (checkAll?_cons h₃)), .plain rfl rfl⟩
    · cases h
  | loop n c b =>
    rw [checkExpr] at h ⊢
    obtain ⟨_, h₀, he⟩ := andThen_ok h
    obtain ⟨h₁, -, -, hscopes⟩ := ensure_ok h₀
    rw [he, hscopes] at h ⊢
    obtain ⟨_, h₂, he⟩ := andThen_ok h
    rw [he] at h ⊢
    rw [conclude_scopes h]
    exact ⟨_, (checkAll?_cons h₁).trans (checkAll?_cons h₂), .plain rfl rfl⟩
  | block n es =>
    rw [checkExpr] at h ⊢
    obtain ⟨_, h₀, he⟩ := andThen_ok h
    obtain ⟨h₁, hscope⟩ := inScope_ok h₀
    rw [he, hscope] at h ⊢
    rw [conclude_scopes h]
    exact ⟨_, checkStatements_checkAll? es h₁, .block rfl⟩
  | declare n x written? e =>
    rw [checkExpr] at h ⊢
    obtain ⟨_, h₁, he⟩ := andThen_ok h
    rw [he] at h ⊢
    obtain ⟨_, -, he⟩ := ask_ok h
    rw [he] at h ⊢
    obtain ⟨_, hdeclare, he⟩ := declaring_ok h
    rw [he] at h ⊢
    rw [conclude_scopes h]
    exact ⟨_, checkAll?_cons h₁, .declare rfl rfl hdeclare⟩
  | call n f es =>
    rw [checkExpr] at h ⊢
    obtain ⟨σ, hcall, he⟩ := ask_ok h
    rw [he] at h ⊢
    obtain ⟨_, h₁, he⟩ := andThen_ok h
    rw [he] at h ⊢
    obtain ⟨-, _, -, -, he⟩ := conclude_ok h
    rw [he]
    have hlength := (callSignature_ok (blame_ok hcall)).2.symm
    exact ⟨_, checkArguments_checkAll? es _ hlength h₁, .plain rfl rfl⟩
  | leaveWith n e =>
    rw [checkExpr] at h ⊢
    split at h
    · rename_i hinside
      rw [if_pos hinside]
      obtain ⟨_, h₁, he⟩ := andThen_ok h
      rw [he] at h ⊢
      obtain ⟨_, -, he⟩ := ask_ok h
      rw [he] at h ⊢
      rw [conclude_scopes h]
      exact ⟨_, checkAll?_cons h₁, .plain rfl rfl⟩
    · cases h

end

/-! ## What names are used for -/

/-- The type of an expression is told by what the name that it uses means. -/
def TypedBy : Expr → Binding Ty → Ty → Prop
  | .name _ x, b, τ | .assign _ _ (.name _ x) _, b, τ => variableType x (some b) = .ok τ
  | .call _ f es, b, τ => ∃ σ, callSignature f es.length (some b) = .ok σ ∧ τ = σ.result
  | _, _, _ => True

theorem checkName_use {ρ? : Option Ty} {n : Note} {x : String} {s : Scopes} {τ : Ty}
    (h : (checkExpr ρ? (.name n x) s).outcome = .ok τ) :
    ∃ b, s.resolve? x = some b ∧ variableType x (some b) = .ok τ := by
  rw [checkExpr] at h
  obtain ⟨υ, hask, he⟩ := ask_ok h
  rw [he] at h
  obtain ⟨rfl, -⟩ := conclude_ok h
  have htype := blame_ok hask
  cases hx : s.resolve? x with
  | none =>
    rw [hx] at htype
    cases htype
  | some b => exact ⟨b, rfl, by rwa [hx] at htype⟩

/-- A name that an accepted expression uses means something in the scopes in which the check begins, and this
tells the type of the expression. -/
theorem checkExpr_use {ρ? : Option Ty} {e : Expr} {s : Scopes} {τ : Ty} {x : String}
    (h : (checkExpr ρ? e s).outcome = .ok τ) (hx : e.use? = some x) :
    ∃ b, s.resolve? x = some b ∧ TypedBy e b τ := by
  cases e with
  | name n y =>
    obtain rfl := Option.some.inj hx
    exact checkName_use h
  | assign n l target value =>
    cases target with
    | name n' y =>
      obtain rfl := Option.some.inj hx
      rw [checkExpr, if_pos (isVariable_iff.2 ⟨n', y, rfl⟩)] at h
      obtain ⟨υ, htarget, he⟩ := andThen_ok h
      rw [he] at h
      obtain ⟨υ', -, he⟩ := andThen_ok h
      rw [he] at h
      split at h
      · obtain ⟨rfl, -⟩ := conclude_ok h
        exact checkName_use htarget
      · cases h
    | _ => cases hx
  | call n f es =>
    obtain rfl := Option.some.inj hx
    rw [checkExpr] at h
    obtain ⟨σ, hask, he⟩ := ask_ok h
    rw [he] at h
    obtain ⟨_, -, he⟩ := andThen_ok h
    rw [he] at h
    obtain ⟨rfl, -⟩ := conclude_ok h
    have hcall := blame_ok hask
    cases hf : s.resolve? f with
    | none =>
      rw [hf] at hcall
      cases hcall
    | some b => exact ⟨b, rfl, σ, by rwa [hf] at hcall, rfl⟩
  | _ => cases hx

/-! ## The checker as a traversal -/

/-- Where the checker looks at the expressions of a module. -/
def checking (m : Module) : Traversal Ty where
  State := Option Ty × Scopes
  scopes := Prod.snd
  enter := fun (ρ?, s) e i =>
    (checkAll? ρ? (e.parts.take i) (if e.opensScope then s.push else s)).map (ρ?, ·)
  leave := fun (ρ?, s) e => (checkExpr ρ? e s).scopes?
  root := (m.functions.foldlM (fun s f => declareFunction f s) .withBuiltins).toOption
  function := fun i => do
    let f ← m.functions[i]?
    let s ← (m.functions.foldlM (fun s f => declareFunction f s) .withBuiltins).toOption
    let s ← (checkFunctions (m.functions.take i) s).scopes?
    let s ← (declaringParameters () (done () ()) f.parameters s.push).scopes?
    return ((some f.result.ty, s), f.body)
  main := do
    let s ← (m.functions.foldlM (fun s f => declareFunction f s) .withBuiltins).toOption
    let s ← (checkFunctions m.functions s).scopes?
    return ((none, s), m.body)

variable {m : Module}

theorem checking_after {ρ? : Option Ty} {s inner : Scopes} {e : Expr} {i : Nat} (hi : i ≤ e.parts.length)
    (h : checkAll? ρ? (e.parts.take i) (if e.opensScope then s.push else s) = some inner) :
    (checking m).After (ρ?, s) e i inner := by
  cases i with
  | zero =>
    rw [List.take_zero] at h
    exact (Option.some.inj h).symm
  | succ i =>
    have ha := List.getElem?_eq_getElem hi
    rw [checkAll?_take_succ ha] at h
    obtain ⟨s', hbefore, hpart⟩ := Option.bind_eq_some_iff.1 h
    exact ⟨_, (ρ?, s'), ha, congrArg (Option.map (ρ?, ·)) hbefore, hpart⟩

theorem checking_orderly (m : Module) : (checking m).Orderly where
  enter {s e i s'} hi h := by
    obtain ⟨inner, hinner, rfl⟩ := Option.map_eq_some_iff.1 h
    exact checking_after (Nat.le_of_lt hi) hinner
  leave {s e scopes} h := by
    obtain ⟨τ, hok, rfl⟩ := Checked.scopes?_eq_some.1 h
    obtain ⟨inner, hinner, hclosing⟩ := checkExpr_parts hok
    refine ⟨inner, checking_after (Nat.le_refl _) ?_, hclosing⟩
    rwa [List.take_length]

theorem checkExpr_grows {ρ? : Option Ty} {e : Expr} {s : Scopes} {τ : Ty}
    (h : (checkExpr ρ? e s).outcome = .ok τ) : s.Grows (checkExpr ρ? e s).scopes :=
  (checking_orderly ⟨e.location, [], e⟩).grows e (s := (ρ?, s)) (Checked.scopes?_eq_some.2 ⟨τ, h, rfl⟩)

/-! ## Functions -/

theorem declareFunctions_declares :
    ∀ {fs : List FunctionDefinition} {s s' : Scopes}, fs.foldlM (fun s f => declareFunction f s) s = .ok s' →
      s.DeclaresEach (fs.map (·.name.text)) s'
  | [], s, s', h => by
    cases h
    exact .nil
  | f :: fs, s, s', h => by
    rw [List.foldlM_cons] at h
    cases hf : declareFunction f s with
    | error fault =>
      rw [hf] at h
      cases h
    | ok s₁ =>
      rw [hf] at h
      exact .cons (declareFunction_ok hf).2 (declareFunctions_declares h)

theorem declaringParameters_declares :
    ∀ {ps : List Parameter} {s s' : Scopes},
      (declaringParameters () (done () ()) ps s).scopes? = some s' →
      s.DeclaresEach (ps.map (·.name.text)) s'
  | [], s, s', h => by
    cases h
    exact .nil
  | p :: ps, s, s', h => by
    obtain ⟨found, hok, rfl⟩ := Checked.scopes?_eq_some.1 h
    rw [declaringParameters] at h hok ⊢
    obtain ⟨s₁, hp, he⟩ := declaring_ok hok
    rw [he] at h ⊢
    exact .cons hp (declaringParameters_declares h)

/-- What is checked after parameters are declared is checked in the scopes that declaring them leaves. -/
theorem declaringParameters_scopes? {α γ : Type} {tree : α} {rest : Checker α γ} {found : γ} :
    ∀ (ps : List Parameter) {s : Scopes}, (declaringParameters tree rest ps s).outcome = .ok found →
      ∃ s', (declaringParameters () (done () ()) ps s).scopes? = some s' ∧
        declaringParameters tree rest ps s = rest s'
  | [], s, _ => ⟨s, rfl, rfl⟩
  | p :: ps, s, h => by
    rw [declaringParameters] at h
    obtain ⟨s₁, hp, he⟩ := declaring_ok h
    rw [he] at h
    obtain ⟨s', hscopes, hrest⟩ := declaringParameters_scopes? ps h
    refine ⟨s', ?_, by rw [declaringParameters, he, hrest]⟩
    rwa [declaringParameters, declaring_run hp]

/-- A check of a function declares the parameters in a scope of their own, checks the body, and closes the
scope. -/
theorem checkFunction_body {f : FunctionDefinition} {s : Scopes} {τ : Ty}
    (h : (checkFunction f s).outcome = .ok τ) :
    ∃ s₁, (declaringParameters () (done () ()) f.parameters s.push).scopes? = some s₁ ∧
      (checkExpr (some f.result.ty) f.body s₁).outcome = .ok τ ∧
      (checkFunction f s).scopes = (checkExpr (some f.result.ty) f.body s₁).scopes.close := by
  rw [checkFunction] at h ⊢
  obtain ⟨hscope, -, -, hscopes⟩ := ensure_ok h
  obtain ⟨hok, he⟩ := inScope_ok hscope
  obtain ⟨s₁, hparameters, hbody⟩ := declaringParameters_scopes? f.parameters hok
  rw [hbody] at hok
  refine ⟨s₁, hparameters, hok, ?_⟩
  rw [hscopes, he, hbody]
  rfl

theorem checkFunction_restores {f : FunctionDefinition} {s : Scopes} {τ : Ty}
    (h : (checkFunction f s).outcome = .ok τ) : s.Restores (checkFunction f s).scopes := by
  obtain ⟨s₁, hparameters, hok, hscopes⟩ := checkFunction_body h
  have hdeclares := declaringParameters_declares hparameters
  obtain ⟨popped, hpop, hrestores⟩ := (hdeclares.grows.trans (checkExpr_grows hok)).pop
  rwa [hscopes, ScopeChain.close_eq hpop]

theorem checkFunctions_restores :
    ∀ (fs : List FunctionDefinition) {s : Scopes}, (checkFunctions fs s).outcome = .ok () →
      s.Restores (checkFunctions fs s).scopes
  | [], s, _ => .refl s
  | f :: fs, s, h => by
    rw [checkFunctions] at h ⊢
    obtain ⟨τ, hf, he⟩ := andThen_ok h
    rw [he] at h ⊢
    exact (checkFunction_restores hf).trans (checkFunctions_restores fs h)

/-- If functions are checked then some of them are checked before each of them. -/
theorem checkFunctions_getElem :
    ∀ (fs : List FunctionDefinition) {s : Scopes}, (checkFunctions fs s).outcome = .ok () →
      ∀ (i : Nat) (hi : i < fs.length), ∃ s' τ, (checkFunctions (fs.take i) s).scopes? = some s' ∧
        (checkFunction fs[i] s').outcome = .ok τ
  | f :: fs, s, h, i, hi => by
    rw [checkFunctions] at h
    obtain ⟨τ, hf, he⟩ := andThen_ok h
    cases i with
    | zero => exact ⟨s, τ, rfl, hf⟩
    | succ i =>
      rw [he] at h
      obtain ⟨s', τ', hbefore, hok⟩ := checkFunctions_getElem fs h i (Nat.lt_of_succ_lt_succ hi)
      refine ⟨s', τ', ?_, hok⟩
      rw [List.take_succ_cons, checkFunctions, andThen_run hf]
      exact hbefore

/-! ## The whole module -/

/-- The scopes of the checker change as the shape of the module tells. -/
theorem checking_lawful (m : Module) : (checking m).Lawful m where
  toOrderly := checking_orderly m
  root h := declareFunctions_declares (toOption_eq_some.1 h)
  function {i s e} h := by
    simp only [checking, bind, Option.bind_eq_some_iff] at h
    obtain ⟨f, hf, root, hroot, before, hbefore, s₁, hparameters, h⟩ := h
    cases h
    obtain ⟨_, hok, rfl⟩ := Checked.scopes?_eq_some.1 hbefore
    exact ⟨f, _, hf, rfl, ⟨root, hroot, checkFunctions_restores _ hok⟩,
      declaringParameters_declares hparameters⟩
  main {s e} h := by
    simp only [checking, bind, Option.bind_eq_some_iff] at h
    obtain ⟨root, hroot, after, hafter, h⟩ := h
    cases h
    obtain ⟨_, hok, rfl⟩ := Checked.scopes?_eq_some.1 hafter
    exact ⟨rfl, root, hroot, checkFunctions_restores _ hok⟩

/-- Of an accepted module everything is checked, and nothing of it fails. -/
theorem checking_visits {τ : Ty} (h : (checkModule m).outcome = .ok τ) {P : Site} {e₀ : Expr}
    (hP : m.expr? P = some e₀) :
    ∃ s e scopes, (checking m).visit? P = some (s, e) ∧ (checking m).leave s e = some scopes := by
  unfold checkModule at h
  split at h
  · cases h
  · rename_i root hroot
    have hroot := toOption_eq_some.2 hroot
    obtain ⟨_, hfunctions, he⟩ := andThen_ok h
    rw [he] at h
    refine (checking_lawful m).visits_all (fun i hi => ?_) ?_ hP
    · obtain ⟨before, υ, hbefore, hok⟩ := checkFunctions_getElem m.functions hfunctions i hi
      obtain ⟨s₁, hparameters, hbody, -⟩ := checkFunction_body hok
      refine ⟨(some m.functions[i].result.ty, s₁), m.functions[i].body, _, ?_,
        Checked.scopes?_eq_some.2 ⟨υ, hbody, rfl⟩⟩
      simp [checking, hi, hroot, hbefore, hparameters]
    · refine ⟨(none, (checkFunctions m.functions root).scopes), m.body, _, ?_,
        Checked.scopes?_eq_some.2 ⟨τ, h, rfl⟩⟩
      have hafter := Checked.scopes?_eq_some.2 ⟨_, hfunctions, rfl⟩
      simp [checking, hroot, hafter]

end Exprc.Typing

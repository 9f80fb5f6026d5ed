/-
Many checks of one tree. Expressions anywhere in a module and the module itself are checked in any scopes, one
call after the other (`performAll`), whether the calls succeed or not. A type that an expression has got it
keeps; a call that would give it another type fails; and a call that is made a second time comes out as the
first time (`annotations_persist`).
-/
import Exprc.Proofs.Resolution.Agreement
import Exprc.Proofs.Typing.Annotation

namespace Exprc

/-! ## Replacing expressions -/

namespace Syntax

namespace Expr

/-- An expression with other parts. -/
def withParts : Expr → List Expr → Expr
  | unary n op _, [e] => unary n op e
  | binary n op l _ _, [lhs, rhs] => binary n op l lhs rhs
  | assign n l _ _, [target, value] => assign n l target value
  | ifThen n _ _, [c, t] => ifThen n c t
  | ifElse n _ _ _, [c, t, e] => ifElse n c t e
  | loop n _ _, [c, b] => loop n c b
  | block n _, es => block n es
  | declare n x written? _, [e] => declare n x written? e
  | call n f _, es => call n f es
  | leaveWith n _, [e] => leaveWith n e
  | e, _ => e

theorem withParts_parts (e : Expr) : e.withParts e.parts = e := by cases e <;> rfl

theorem parts_withParts {e : Expr} {es : List Expr} (h : es.length = e.parts.length) :
    (e.withParts es).parts = es := by
  cases e with
  | block | call => rfl
  | unary | declare | leaveWith =>
    obtain ⟨a, rfl⟩ := List.length_eq_one_iff.1 h
    rfl
  | binary | assign | ifThen | loop =>
    obtain ⟨a, b, rfl⟩ := List.length_eq_two.1 h
    rfl
  | ifElse =>
    obtain ⟨a, b, c, rfl⟩ := List.length_eq_three.1 h
    rfl
  | _ => exact (List.length_eq_zero_iff.1 h).symm

theorem note_withParts (e : Expr) (es : List Expr) : (e.withParts es).note = e.note := by
  unfold withParts
  split <;> rfl

/-- An expression that has other parts, which are the same but for types, is the same but for types. -/
theorem untyped_withParts {e : Expr} {es : List Expr} (h : es.map (·.untyped) = e.parts.map (·.untyped)) :
    (e.withParts es).untyped = e.untyped := by
  cases e with
  | block n es' | call n f es' =>
    have hes : allUntyped es = allUntyped es' := by rwa [allUntyped_map, allUntyped_map]
    simp only [withParts, untyped, hes]
  | unary | declare | leaveWith =>
    obtain ⟨a, rfl⟩ := List.length_eq_one_iff.1 (by simpa [parts] using congrArg List.length h)
    simp_all [withParts, untyped, parts]
  | binary | assign | ifThen | loop =>
    obtain ⟨a, b, rfl⟩ := List.length_eq_two.1 (by simpa [parts] using congrArg List.length h)
    simp_all [withParts, untyped, parts]
  | ifElse =>
    obtain ⟨a, b, c, rfl⟩ := List.length_eq_three.1 (by simpa [parts] using congrArg List.length h)
    simp_all [withParts, untyped, parts]
  | _ => rfl

theorem Extends.withParts {e e' : Expr} {es es' : List Expr} (h : e.Extends e')
    (hlength : es.length = e.parts.length) (hes : List.Forall₂ Extends es es') :
    (e.withParts es).Extends (e'.withParts es') := by
  have hlength' : es'.length = e'.parts.length := by
    rw [← hes.length_eq, hlength, h.parts.length_eq]
  refine .intro (fun τ hτ => ?_) ?_
  · rw [Expr.ty?, note_withParts] at hτ ⊢
    exact h.ty? hτ
  · rwa [parts_withParts hlength, parts_withParts hlength']

end Expr

namespace Module

/-- A module with another expression at a site. -/
def replace (m : Module) : Site → Expr → Module
  | .function i, e => { m with functions := m.functions.modify i fun f => { f with body := e } }
  | .main, e => { m with body := e }
  | .part whole i, e =>
    match m.expr? whole with
    | none => m
    | some a => m.replace whole (a.withParts (a.parts.set i e))

theorem replace_part {m : Module} {a : Expr} {whole : Site} (ha : m.expr? whole = some a) (i : Nat) (e : Expr) :
    m.replace (.part whole i) e = m.replace whole (a.withParts (a.parts.set i e)) := by
  rw [replace, ha]

theorem expr?_replace {m : Module} {e : Expr} (e' : Expr) {P : Site} (h : m.expr? P = some e) :
    (m.replace P e').expr? P = some e' := by
  induction P generalizing e e' with
  | function i =>
    obtain ⟨f, hf, -⟩ := Option.map_eq_some_iff.1 h
    simp [replace, expr?, hf]
  | main => rfl
  | part whole i ih =>
    obtain ⟨a, ha, hi⟩ := Option.bind_eq_some_iff.1 h
    rw [replace_part ha, expr?, ih _ ha, Option.bind_some, Expr.parts_withParts List.length_set]
    exact List.getElem?_set_self (List.getElem?_eq_some_iff.1 hi).1

/-- Putting back what is there changes nothing. -/
theorem replace_self {m : Module} {e : Expr} {P : Site} (h : m.expr? P = some e) : m.replace P e = m := by
  induction P generalizing e with
  | function i =>
    obtain ⟨f, hf, rfl⟩ := Option.map_eq_some_iff.1 h
    have hfunctions : m.functions.modify i (fun g => { g with body := f.body }) = m.functions := by
      refine List.ext_getElem? fun j => ?_
      rw [List.getElem?_modify]
      split
      · rename_i hj
        rw [← hj, hf]
        rfl
      · exact id_map _
    rw [replace, hfunctions]
  | main =>
    cases h
    rfl
  | part whole i ih =>
    obtain ⟨a, ha, hi⟩ := Option.bind_eq_some_iff.1 h
    obtain ⟨hlt, rfl⟩ := List.getElem?_eq_some_iff.1 hi
    rw [replace_part ha, List.set_getElem_self, Expr.withParts_parts]
    exact ih ha

/-- An expression that is the same but for types leaves the module the same but for types. -/
theorem untyped_replace {m : Module} {e e' : Expr} {P : Site} (h : m.expr? P = some e)
    (he : e'.untyped = e.untyped) : (m.replace P e').untyped = m.untyped := by
  induction P generalizing e e' with
  | function i =>
    obtain ⟨f, hf, rfl⟩ := Option.map_eq_some_iff.1 h
    have hfunctions : (m.functions.modify i fun g => { g with body := e' }).map (·.untyped) =
        m.functions.map (·.untyped) := by
      refine List.ext_getElem? fun j => ?_
      rw [List.getElem?_map, List.getElem?_map, List.getElem?_modify]
      split
      · rename_i hj
        rw [← hj, hf]
        simp [FunctionDefinition.untyped, he]
      · simp
    rw [replace, untyped, hfunctions, untyped]
  | main =>
    cases h
    simp [replace, untyped, he]
  | part whole i ih =>
    obtain ⟨a, ha, hi⟩ := Option.bind_eq_some_iff.1 h
    rw [replace_part ha]
    refine ih ha (Expr.untyped_withParts ?_)
    obtain ⟨hlt, rfl⟩ := List.getElem?_eq_some_iff.1 hi
    rw [List.map_set, he, ← List.map_set, List.set_getElem_self]

end Module

/-! ## Modules with more types -/

theorem forall₂_modify {α : Type} {R : α → α → Prop} {f g : α → α} (hf : ∀ a b, R a b → R (f a) (g b)) :
    ∀ {l l' : List α}, List.Forall₂ R l l' → ∀ i, List.Forall₂ R (l.modify i f) (l'.modify i g)
  | [], [], .nil, i => by cases i <;> exact .nil
  | _ :: _, _ :: _, .cons h hs, 0 => .cons (hf _ _ h) hs
  | _ :: _, _ :: _, .cons h hs, i + 1 => .cons h (forall₂_modify hf hs i)

theorem forall₂_set {α : Type} {R : α → α → Prop} {a b : α} (hab : R a b) {l l' : List α}
    (h : List.Forall₂ R l l') (i : Nat) : List.Forall₂ R (l.set i a) (l'.set i b) := by
  rw [List.set_eq_modify, List.set_eq_modify]
  exact forall₂_modify (fun _ _ _ => hab) h i

namespace Module

/-- The second module has every type that the first one has. -/
structure Extends (m m' : Module) : Prop where
  functions : List.Forall₂ (fun f f' : FunctionDefinition => f.body.Extends f'.body) m.functions m'.functions
  body : m.body.Extends m'.body

theorem untyped_extends (m : Module) : m.untyped.Extends m where
  functions := by
    simp only [untyped, List.forall₂_map_left_iff]
    exact List.forall₂_same.2 fun f _ => f.body.untyped_extends
  body := m.body.untyped_extends

theorem expr?_untyped (m : Module) (P : Site) : m.untyped.expr? P = (m.expr? P).map (·.untyped) := by
  induction P with
  | function i => simp [expr?, untyped, FunctionDefinition.untyped, Function.comp_def]
  | main => rfl
  | part whole i ih =>
    rw [expr?, ih, expr?]
    cases m.expr? whole with
    | none => rfl
    | some a => simp [Expr.parts_untyped]

theorem Extends.refl (m : Module) : m.Extends m where
  functions := List.forall₂_same.2 fun f _ => .refl f.body
  body := .refl m.body

variable {m m' : Module}

theorem Extends.expr? (h : m.Extends m') {P : Site} {e : Expr} (he : m.expr? P = some e) :
    ∃ e', m'.expr? P = some e' ∧ e.Extends e' := by
  induction P generalizing e with
  | function i =>
    obtain ⟨f, hf, rfl⟩ := Option.map_eq_some_iff.1 he
    obtain ⟨hi, rfl⟩ := List.getElem?_eq_some_iff.1 hf
    have hi' : i < m'.functions.length := h.functions.length_eq ▸ hi
    refine ⟨m'.functions[i].body, ?_, h.functions.get hi hi'⟩
    rw [Module.expr?, List.getElem?_eq_getElem hi', Option.map_some]
  | main =>
    cases he
    exact ⟨m'.body, rfl, h.body⟩
  | part whole i ih =>
    obtain ⟨a, ha, hi⟩ := Option.bind_eq_some_iff.1 he
    obtain ⟨a', ha', hextends⟩ := ih ha
    obtain ⟨hlt, rfl⟩ := List.getElem?_eq_some_iff.1 hi
    have hlt' : i < a'.parts.length := hextends.parts.length_eq ▸ hlt
    refine ⟨a'.parts[i], ?_, hextends.parts.get hlt hlt'⟩
    rw [Module.expr?, ha', Option.bind_some, List.getElem?_eq_getElem hlt']

theorem Extends.replace (h : m.Extends m') {P : Site} {a e e' : Expr} (ha : m.expr? P = some a)
    (he : e.Extends e') : (m.replace P e).Extends (m'.replace P e') := by
  induction P generalizing a e e' with
  | function i =>
    refine ⟨forall₂_modify ?_ h.functions i, h.body⟩
    exact fun _ _ _ => he
  | main => exact ⟨h.functions, he⟩
  | part whole i ih =>
    obtain ⟨b, hb, hi⟩ := Option.bind_eq_some_iff.1 ha
    obtain ⟨b', hb', hextends⟩ := h.expr? hb
    rw [replace_part hb, replace_part hb']
    exact ih hb (hextends.withParts List.length_set (forall₂_set he hextends.parts i))

/-- The type of the expression at a site. -/
def ty? (m : Module) (P : Site) : Option Ty := (m.expr? P).bind (·.ty?)

theorem Extends.ty? (h : m.Extends m') {P : Site} {τ : Ty} (hτ : m.ty? P = some τ) : m'.ty? P = some τ := by
  obtain ⟨e, he, hty⟩ := Option.bind_eq_some_iff.1 hτ
  obtain ⟨e', he', hextends⟩ := h.expr? he
  rw [Module.ty?, he', Option.bind_some, hextends.ty? hty]

end Module

end Syntax

namespace Typing

open Syntax Checker

/-! ## Functions and modules -/

/-- Checks a module in some scopes. -/
def checkModuleIn (m : Module) : Checker Module Ty :=
  ask m (fun s => m.functions.foldlM (fun s f => declareFunction f s) s) fun s _ =>
    (checkFunctions m.functions).andThen (fun functions => { m with functions })
      (fun functions _ => (checkExpr none m.body).map fun body => { m with functions, body }) s

/-- A module is checked in scopes that hold the built-in functions. -/
theorem checkModule_eq (m : Module) : checkModule m = checkModuleIn m .withBuiltins := by
  cases h : m.functions.foldlM (fun s f => declareFunction f s) ScopeChain.withBuiltins <;>
    simp only [checkModule, checkModuleIn, ask, fail, h]

theorem checkModuleIn_untyped (m : Module) (s : Scopes) : (checkModuleIn m s).tree.untyped = m.untyped := by
  refine ask_tree (show Module.untyped m = _ from rfl) fun s' => ?_
  have h₁ := checkFunctions_untyped m.functions s'
  have h₂ := checkExpr_untyped none m.body (checkFunctions m.functions s').scopes
  refine andThen_tree (by simp [Module.untyped, h₁]) fun _ => ?_
  simp [Checker.map, Module.untyped, h₁, h₂]

/-- Whether a definition has every type that another one has. -/
def BodyExtends (f f' : FunctionDefinition) : Prop := f.body.Extends f'.body

theorem BodyExtends.refl_all (fs : List FunctionDefinition) : List.Forall₂ BodyExtends fs fs :=
  List.forall₂_same.2 fun f _ => .refl f.body

theorem BodyExtends.untyped_all (fs : List FunctionDefinition) :
    List.Forall₂ BodyExtends (fs.map (·.untyped)) fs := by
  rw [List.forall₂_map_left_iff]
  exact List.forall₂_same.2 fun f _ => f.body.untyped_extends

theorem declaringParameters_leaves {α γ : Type} {P : α → Prop} {tree : α} {rest : Checker α γ} (htree : P tree)
    (hrest : Leaves P rest) : ∀ ps : List Parameter, Leaves P (declaringParameters tree rest ps)
  | [] => hrest
  | _ :: ps => .declaring htree (declaringParameters_leaves htree hrest ps)

theorem declaringParameters_finds {α γ : Type} {P : α → γ → Prop} {tree : α} {rest : Checker α γ}
    (hrest : Finds P rest) : ∀ ps : List Parameter, Finds P (declaringParameters tree rest ps)
  | [] => hrest
  | _ :: ps => .declaring (declaringParameters_finds hrest ps)

theorem declaringParameters_follows {α γ : Type} {le : α → α → Prop} {tree₀ tree : α} {rest₀ rest : Checker α γ}
    (htree : le tree₀ tree) (hrest : Follows le rest₀ rest) : ∀ ps : List Parameter,
      Follows le (declaringParameters tree₀ rest₀ ps) (declaringParameters tree rest ps)
  | [] => hrest
  | _ :: ps => .declaring htree (declaringParameters_follows htree hrest ps)

theorem checkFunction_extends (f : FunctionDefinition) : Leaves (BodyExtends f) (checkFunction f) := by
  have hself : BodyExtends f f := .refl f.body
  refine .ensure (.inScope (declaringParameters_leaves hself ?_ f.parameters))
  exact .map (checkExpr_extends _ f.body) fun _ hbody => hbody

theorem checkFunctions_extends : ∀ fs : List FunctionDefinition,
    Leaves (List.Forall₂ BodyExtends fs) (checkFunctions fs)
  | [] => .done .nil
  | f :: fs => .andThen (checkFunction_extends f) (fun _ hf => .cons hf (BodyExtends.refl_all fs))
      fun _ _ hf => .map (checkFunctions_extends fs) fun _ hfs => .cons hf hfs

/-- A check leaves a module the types that it has. -/
theorem checkModuleIn_extends (m : Module) : Leaves m.Extends (checkModuleIn m) := by
  refine .ask (.refl m) fun s => fun _ => ?_
  refine Leaves.andThen (checkFunctions_extends m.functions) (fun fs hfs => ⟨hfs, .refl m.body⟩)
    (fun fs _ hfs => ?_) s
  exact .map (checkExpr_extends none m.body) fun _ hbody => ⟨hfs, hbody⟩

theorem checkFunction_annotates (f : FunctionDefinition) :
    Finds (fun f' _ => f'.body.Complete) (checkFunction f) :=
  .ensure (.inScope (declaringParameters_finds
    (.map (checkExpr_annotates _ f.body) fun _ _ hbody => hbody.2) f.parameters))

theorem checkFunctions_annotates : ∀ fs : List FunctionDefinition,
    Finds (fun fs' _ => ∀ f ∈ fs', f.body.Complete) (checkFunctions fs)
  | [] => .done nofun
  | f :: fs => .andThen (checkFunction_annotates f) fun _ _ hf =>
      .map (checkFunctions_annotates fs) fun _ _ hfs => List.forall_mem_cons.2 ⟨hf, hfs⟩

/-- Whether a module carries a type, and every expression in it some type. -/
def AnnotatesModule (m : Module) (τ : Ty) : Prop :=
  m.body.ty? = some τ ∧ ∀ a ∈ m.subexpressions, a.ty?.isSome = true

/-- A check of a module that succeeds leaves no expression without a type. -/
theorem checkModuleIn_annotates (m : Module) : Finds AnnotatesModule (checkModuleIn m) := by
  refine .ask fun _ s _ => fun _ τ h => ?_
  refine Finds.andThen (Q := AnnotatesModule) (checkFunctions_annotates m.functions) (fun fs _ hfs => ?_) s τ h
  refine .map (checkExpr_annotates none m.body) fun body τ hbody => ⟨hbody.1, ?_⟩
  refine List.forall_mem_append.2 ⟨fun a ha => ?_, hbody.2⟩
  obtain ⟨f, hf, ha⟩ := List.mem_flatMap.1 ha
  exact hfs f hf a ha

theorem checkFunction_follows (f : FunctionDefinition) :
    Follows BodyExtends (checkFunction f.untyped) (checkFunction f) := by
  have hself : BodyExtends f.untyped f := f.body.untyped_extends
  refine .ensure (.inScope (declaringParameters_follows hself ?_ f.parameters))
  exact .map (checkExpr_follows _ f.body) fun _ _ hbody => hbody

theorem checkFunctions_follows : ∀ fs : List FunctionDefinition,
    Follows (List.Forall₂ BodyExtends) (checkFunctions (fs.map (·.untyped))) (checkFunctions fs)
  | [] => .done .nil
  | f :: fs => .andThen (checkFunction_follows f) (fun _ _ hf => .cons hf (BodyExtends.untyped_all fs))
      fun f _ => .map (checkFunctions_follows fs) fun _ _ hfs => .cons (.refl f.body) hfs

/-- Functions are declared by their headers. -/
theorem declareFunctions_untyped (fs : List FunctionDefinition) (s : Scopes) :
    (fs.map (·.untyped)).foldlM (fun s f => declareFunction f s) s =
      fs.foldlM (fun s f => declareFunction f s) s := by
  rw [List.foldlM_map]
  rfl

/-- The types that a module has do not change what its check does, unless one of them is another type than the
check finds. -/
theorem checkModuleIn_follows (m : Module) :
    Follows Module.Extends (checkModuleIn m.untyped) (checkModuleIn m) := by
  have hquestion : (fun s => m.untyped.functions.foldlM (fun s f => declareFunction f s) s) =
      fun s => m.functions.foldlM (fun s f => declareFunction f s) s :=
    funext fun s => declareFunctions_untyped m.functions s
  rw [checkModuleIn, checkModuleIn, hquestion]
  refine .ask m.untyped_extends fun _ s _ => fun _ => ?_
  refine Follows.andThen (checkFunctions_follows m.functions) (fun fs₀ fs hfs => ⟨hfs, m.body.untyped_extends⟩)
    (fun fs _ => ?_) s
  exact .map (checkExpr_follows none m.body) fun _ _ hbody => ⟨BodyExtends.refl_all fs, hbody⟩

/-- Declares some parameters of a function and checks its body. -/
def checkDefinition (ps : List Parameter) (f : FunctionDefinition) : Checker FunctionDefinition Ty :=
  declaringParameters f ((checkExpr (some f.result.ty) f.body).map fun body => { f with body }) ps

theorem checkDefinition_repeats (f : FunctionDefinition) : ∀ (ps : List Parameter) (s : Scopes),
    Repeats (checkDefinition ps · s) (checkDefinition ps f s)
  | [], s => .map (checkExpr_repeats _ f.body s) fun _ => rfl
  | p :: ps, s => by
    refine .declaring rfl fun s' hs' => ?_
    have hagain : (checkDefinition (p :: ps) · s) = (checkDefinition ps · s') :=
      funext fun g => declaring_run hs'
    rw [hagain]
    exact checkDefinition_repeats f ps s'

theorem checkFunction_repeats (f : FunctionDefinition) (s : Scopes) :
    Repeats (checkFunction · s) (checkFunction f s) := by
  -- the second check declares the parameters of the tree that the first one left
  have hparameters : (checkFunction f s).tree.parameters = f.parameters :=
    congrArg (·.parameters) (checkFunction_untyped f s)
  have hagain : checkFunction (checkFunction f s).tree s =
      (inScope (checkDefinition f.parameters (checkFunction f s).tree)).ensure demandBody s := by
    rw [← hparameters]
    rfl
  exact hagain.trans (Repeats.ensure (.inScope (checkDefinition_repeats f f.parameters s.push)))

theorem checkFunctions_repeats : ∀ (fs : List FunctionDefinition) (s : Scopes),
    Repeats (checkFunctions · s) (checkFunctions fs s)
  | [], _ => rfl
  | f :: fs, s => by
    refine .andThen (checkFunction_repeats f s) rfl fun f' _ s' _ hf' => ?_
    exact .map (checkFunctions_repeats fs s') fun fs' => by rw [checkFunctions, andThen, hf']

/-- A check of the module that a check in the same scopes has left comes out the same. -/
theorem checkModuleIn_repeats (m : Module) (s : Scopes) : Repeats (checkModuleIn · s) (checkModuleIn m s) := by
  refine .ask rfl fun s' hs' => ?_
  have hagain : ∀ fs body, fs.map (·.untyped) = m.functions.map (·.untyped) →
      checkModuleIn { m with functions := fs, body } s =
        (checkFunctions fs).andThen (fun functions => { m with functions, body })
          (fun functions _ => (checkExpr none body).map fun body => { m with functions, body }) s' := by
    intro fs body hfs
    refine ask_run ?_
    rw [← hs', ← declareFunctions_untyped, hfs, declareFunctions_untyped]
  have hfunctions := checkFunctions_untyped m.functions s'
  refine .andThen (checkFunctions_repeats m.functions s') (hagain _ _ hfunctions) fun fs _ s'' hfs hfs' => ?_
  rw [hfs] at hfunctions
  refine .map (checkExpr_repeats none m.body s'') fun body => ?_
  rw [hagain fs body hfunctions, andThen, hfs']

/-! ## Calls -/

/-- A call of the checker: on the expression at a site, or on the whole module. -/
inductive Call where
  | expression (site : Site) (result? : Option Ty) (scopes : Scopes)
  | module (scopes : Scopes)

namespace Call

/-- What a call on a module leaves behind, if there is an expression for it. The types that it finds are noted
in the module. -/
def perform? (m : Module) : Call → Option (Checked Module Ty)
  | expression site ρ? s => (m.expr? site).map fun e =>
    let r := checkExpr ρ? e s
    ⟨m.replace site r.tree, r.outcome, r.scopes⟩
  | module s => some (checkModuleIn m s)

/-- Whether the checked expression carries a type, and every expression in it some type. -/
def Annotated (m : Module) (τ : Ty) : Call → Prop
  | expression site _ _ => ∃ e, m.expr? site = some e ∧ Annotates e τ
  | module _ => AnnotatesModule m τ

variable {m : Module} {r : Checked Module Ty}

theorem extends_of_perform? {call : Call} (h : call.perform? m = some r) : m.Extends r.tree := by
  cases call with
  | module s =>
    cases h
    exact checkModuleIn_extends m s
  | expression site ρ? s =>
    obtain ⟨e, he, rfl⟩ := Option.map_eq_some_iff.1 h
    have hreplaced := (Module.Extends.refl m).replace he (checkExpr_extends ρ? e s)
    rwa [Module.replace_self he] at hreplaced

theorem untyped_of_perform? {call : Call} (h : call.perform? m = some r) : r.tree.untyped = m.untyped := by
  cases call with
  | module s =>
    cases h
    exact checkModuleIn_untyped m s
  | expression site ρ? s =>
    obtain ⟨e, he, rfl⟩ := Option.map_eq_some_iff.1 h
    exact Module.untyped_replace he (checkExpr_untyped ρ? e s)

theorem annotated_of_perform? {call : Call} {τ : Ty} (h : call.perform? m = some r)
    (hτ : r.outcome = .ok τ) : call.Annotated r.tree τ := by
  cases call with
  | module s =>
    cases h
    exact checkModuleIn_annotates m s τ hτ
  | expression site ρ? s =>
    obtain ⟨e, he, rfl⟩ := Option.map_eq_some_iff.1 h
    exact ⟨_, Module.expr?_replace _ he, checkExpr_annotates ρ? e s τ hτ⟩

/-- A call on a module clashes, or finds no other types than a call on the module without types. -/
theorem follows_of_perform? {call : Call} {r₀ : Checked Module Ty} (h : call.perform? m = some r)
    (h₀ : call.perform? m.untyped = some r₀) : Clashes r.outcome ∨ r₀.tree.Extends r.tree := by
  cases call with
  | module s =>
    cases h
    cases h₀
    exact (checkModuleIn_follows m s).imp id (·.types)
  | expression site ρ? s =>
    obtain ⟨e, he, rfl⟩ := Option.map_eq_some_iff.1 h
    obtain ⟨e₀, he₀, rfl⟩ := Option.map_eq_some_iff.1 h₀
    obtain rfl : e.untyped = e₀ := by
      rwa [Module.expr?_untyped, he, Option.map_some, Option.some_inj] at he₀
    exact (checkExpr_follows ρ? e s).imp id fun hagrees => m.untyped_extends.replace he₀ hagrees.types

theorem repeats_of_perform? {call : Call} (h : call.perform? m = some r) : call.perform? r.tree = some r := by
  cases call with
  | module s =>
    cases h
    exact congrArg some (checkModuleIn_repeats m s)
  | expression site ρ? s =>
    obtain ⟨e, he, rfl⟩ := Option.map_eq_some_iff.1 h
    have hreplaced := Module.expr?_replace (checkExpr ρ? e s).tree he
    have hrepeats : checkExpr ρ? (checkExpr ρ? e s).tree s = checkExpr ρ? e s := checkExpr_repeats ρ? e s
    simp only [perform?, hreplaced, Option.map_some, hrepeats, Module.replace_self hreplaced]

end Call

/-- What calls one after the other leave of a module. -/
def performAll (m : Module) (calls : List Call) : Module :=
  calls.foldl (fun m call => ((call.perform? m).map (·.tree)).getD m) m

theorem performAll_cons (m : Module) (call : Call) (calls : List Call) :
    performAll m (call :: calls) = performAll (((call.perform? m).map (·.tree)).getD m) calls := rfl

/-- What one call keeps, many calls keep. -/
theorem performAll_induction {motive : Module → Prop} {m : Module} (h : motive m)
    (hcall : ∀ (m : Module) (call : Call) (r : Checked Module Ty), call.perform? m = some r →
      motive m → motive r.tree) (calls : List Call) : motive (performAll m calls) := by
  induction calls generalizing m with
  | nil => exact h
  | cons call calls ih =>
    rw [performAll_cons]
    cases hr : call.perform? m with
    | none => exact ih h
    | some r => exact ih (hcall m call r hr h)

/-- Types are noted once, and a check can be repeated. Whatever calls are made on a module, in whatever scopes
and whether they succeed or not, they change nothing but types, and no type that an expression has. A call that
succeeds leaves every expression that it checks with a type, and finds the type of the outermost one. A call fails
if an expression has a type and the call would note another type there if there were none. A call that is made
again comes out the same and changes nothing; so does the check of a module, even if it failed half-way. -/
theorem annotations_persist :
    (∀ (m : Module) (calls : List Call), (performAll m calls).untyped = m.untyped ∧
      ∀ site τ, m.ty? site = some τ → (performAll m calls).ty? site = some τ) ∧
    (∀ (m : Module) (call : Call) (r : Checked Module Ty), call.perform? m = some r →
      (∀ τ, r.outcome = .ok τ → call.Annotated r.tree τ) ∧
      (∀ r₀ site known now, call.perform? m.untyped = some r₀ → m.ty? site = some known →
        r₀.tree.ty? site = some now → known ≠ now → Clashes r.outcome) ∧
      call.perform? r.tree = some r) ∧
    ∀ m : Module, checkModule (checkModule m).tree = checkModule m := by
  refine ⟨fun m calls => ⟨?_, fun site τ hτ => ?_⟩, fun m call r hr => ⟨fun τ hτ => ?_, ?_, ?_⟩, fun m => ?_⟩
  · exact performAll_induction (motive := fun m' => m'.untyped = m.untyped) rfl
      (fun _ _ _ hr hm => (Call.untyped_of_perform? hr).trans hm) calls
  · exact performAll_induction (motive := fun m' => m'.ty? site = some τ) hτ
      (fun _ _ _ hr hm => (Call.extends_of_perform? hr).ty? hm) calls
  · exact Call.annotated_of_perform? hr hτ
  · intro r₀ site known now hr₀ hknown hnow hne
    -- the call keeps the known type; if it did not clash, it would have noted the other one as well
    refine (Call.follows_of_perform? hr hr₀).resolve_right fun hextends => hne ?_
    have hkept := (Call.extends_of_perform? hr).ty? hknown
    exact Option.some.inj (hkept.symm.trans (hextends.ty? hnow))
  · exact Call.repeats_of_perform? hr
  · rw [checkModule_eq, checkModule_eq]
    exact checkModuleIn_repeats m .withBuiltins

/-- A variable that is checked where it is an integer, and then where it is a boolean. -/
theorem annotations_persist_variable :
    ∃ r r', (Call.expression .main none (.root [("x", .value .int)])).perform?
        ⟨.nowhere, [], .name ⟨.nowhere, none⟩ "x"⟩ = some r ∧
      (Call.expression .main none (.root [("x", .value .bool)])).perform? r.tree = some r' ∧
      (Call.expression .main none (.root [("x", .value .int)])).Annotated r.tree .int ∧
      (performAll r.tree [.expression .main none (.root [("x", .value .bool)])]).ty? .main = some .int ∧
      Clashes r'.outcome ∧
      (Call.expression .main none (.root [("x", .value .bool)])).perform? r'.tree = some r' := by
  obtain ⟨hkeeps, hcalls, -⟩ := annotations_persist
  have hint : (Call.expression .main none (.root [("x", .value .int)])).perform?
      ⟨.nowhere, [], .name ⟨.nowhere, none⟩ "x"⟩ = some
        ⟨⟨.nowhere, [], .name ⟨.nowhere, some .int⟩ "x"⟩, .ok .int, .root [("x", .value .int)]⟩ := by cbv
  have hbool : (Call.expression .main none (.root [("x", .value .bool)])).perform?
      ⟨.nowhere, [], .name ⟨.nowhere, some .int⟩ "x"⟩ = some
        ⟨⟨.nowhere, [], .name ⟨.nowhere, some .int⟩ "x"⟩, .error (.at .nowhere (.conflict .int .bool)),
          .root [("x", .value .bool)]⟩ := by cbv
  have hfresh : (Call.expression .main none (.root [("x", .value .bool)])).perform?
      ⟨.nowhere, [], .name ⟨.nowhere, none⟩ "x"⟩ = some
        ⟨⟨.nowhere, [], .name ⟨.nowhere, some .bool⟩ "x"⟩, .ok .bool, .root [("x", .value .bool)]⟩ := by cbv
  obtain ⟨-, hclash, hagain⟩ := hcalls _ _ _ hbool
  refine ⟨_, _, hint, hbool, (hcalls _ _ _ hint).1 _ rfl, (hkeeps _ _).2 _ _ rfl, ?_, hagain⟩
  exact hclash _ .main .int .bool hfresh rfl rfl (by decide)

end Typing

end Exprc

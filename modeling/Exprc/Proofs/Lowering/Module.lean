/-
Checking and lowering a whole module. If the check succeeds then every function and the top-level
statements lower by the rules of `Lowers`, one after the other, unless some loop control is outside
of every loop. What the rules say of a module is collected in `LowersModule`; later proofs start from
it and not from the checker.
-/
import Exprc.Proofs.Lowering.Elaboration
import Exprc.Proofs.Typing.Functions

namespace Exprc

/-- The first loop control of a module that is outside of every loop, in the order of lowering. -/
def Syntax.Module.misplaced? (m : Syntax.Module) : Option (Location × Syntax.LoopControl) :=
  (m.functions.findSome? (·.body.misplaced? false)).or (m.body.misplaced? false)

namespace Lowering

open Syntax IR Typing
open Checker (andThen_ok ask_ok declaring_ok ensure_ok inScope_ok)

/-! ## Rules for functions and modules -/

namespace Stage

/-- Where lowering a module starts. -/
def initial : Stage := ⟨[[]], [], [], 1, 1⟩

/-- Declares parameters. -/
def declareAll (s : Stage) (ps : List Parameter) : Stage :=
  ps.foldl (fun s p => s.declare p.name.text p.written.ty) s

theorem Extends.declareAll (s : Stage) (ps : List Parameter) : s.Extends (s.declareAll ps) := by
  induction ps generalizing s with
  | nil => exact .refl s
  | cons p ps ih => exact (Extends.declare s _ _).trans (ih _)

theorem WF.declareAll {s : Stage} (h : s.WF) (ps : List Parameter) : (s.declareAll ps).WF := by
  induction ps generalizing s with
  | nil => exact h
  | cons p ps ih => exact ih (h.declare _ _)

theorem WF.initial : Stage.initial.WF :=
  ⟨List.cons_ne_nil _ _, nofun, nofun, List.nodup_nil, by simp [Stage.initial],
    by simp [Stage.initial], by simp [Stage.initial]⟩

end Stage

/-- The definition of a function lowers to a function. -/
inductive LowersFunction (sig : String → Option Signature) :
    Stage → FunctionDefinition → Function → Stage → Prop
  | intro {s s₁ : Stage} {f : FunctionDefinition} {g : Fragment} :
      Lowers sig (some f.result.ty) none (s.enter.declareAll f.parameters) f.body f.result.ty g s₁ →
      LowersFunction sig s f
        ⟨f.name.text, (List.range' s.nextTemp f.parameters.length).map .temp,
          if f.body.endsInReturn then g.code else g.code ++ emit f.body.location [.leave g.value],
          g.value⟩ s₁.leave

/-- Definitions in order lower to functions. -/
inductive LowersFunctions (sig : String → Option Signature) :
    Stage → List FunctionDefinition → List Function → Stage → Prop
  | nil {s : Stage} : LowersFunctions sig s [] [] s
  | cons {s s₁ s₂ : Stage} {f : FunctionDefinition} {fs : List FunctionDefinition} {F : Function}
      {Fs : List Function} :
      LowersFunction sig s f F s₁ → LowersFunctions sig s₁ fs Fs s₂ →
      LowersFunctions sig s (f :: fs) (F :: Fs) s₂

/-- Top-level statements lower to the function in which a run starts. -/
inductive LowersEntry (sig : String → Option Signature) :
    Stage → Expr → Ty → Function → Stage → Prop
  | silent {s s₁ : Stage} {e : Expr} {τ : Ty} {g : Fragment} :
      Lowers sig none none s e τ g s₁ → printer? τ = none →
      LowersEntry sig s e τ ⟨entryPoint, [], g.code, g.value⟩ s₁
  | printing {s s₁ : Stage} {e : Expr} {τ : Ty} {g : Fragment} {b : Builtin} :
      Lowers sig none none s e τ g s₁ → printer? τ = some b →
      LowersEntry sig s e τ
        ⟨entryPoint, [], (applied e.location b.name [g] s₁).code, g.value⟩ (s₁.withTemp .unit)

/-- A module whose top-level statements have type `τ` lowers to `M`. -/
structure LowersModule (m : Syntax.Module) (τ : Ty) (M : IR.Module) : Prop where
  nodup : (m.functions.map (·.name.text)).Nodup
  reserved : ∀ f ∈ m.functions, f.name.text ≠ entryPoint ∧ Builtin.ofName? f.name.text = none
  isData : τ.isData = true
  lowers : ∃ Fs F s s', M.functions = Fs ++ [F] ∧
    LowersFunctions (signatureOf? m.functions) .initial m.functions Fs s ∧
    LowersEntry (signatureOf? m.functions) s m.body τ F s'

/-! ## Names of functions -/

/-- Lowering can declare functions whose names differ and are free. -/
theorem run_declareFunctions :
    ∀ {fs : List FunctionDefinition} {L : State} {vars : List (String × Binding Var)},
      L.scopes.stack = [vars] → (fs.map (·.name.text)).Nodup →
      (∀ f ∈ fs, vars.lookup f.name.text = none) →
      ∃ scopes vars', fs.forM declareFunction L = .ok ((), { L with scopes }) ∧
        scopes.stack = [vars'] ∧
        ∀ x, vars'.lookup x = rootOf (fun f => .value (.named f.name.text)) fs vars x
  | [], L, vars, hs, _, _ => ⟨L.scopes, vars, rfl, hs, fun x => by simp [rootOf]⟩
  | f :: fs, L, vars, hs, hnodup, hfree => by
    rw [List.map_cons, List.nodup_cons] at hnodup
    have hne : ∀ g ∈ fs, g.name.text ≠ f.name.text :=
      fun g hg he => hnodup.1 (he ▸ List.mem_map_of_mem hg)
    cases hd : L.scopes.declare? f.name.text (.value (.named f.name.text)) with
    | none =>
      obtain ⟨top, below, hs₀, hbound⟩ := ScopeChain.declare?_eq_none hd
      obtain ⟨rfl, rfl⟩ := List.cons.inj (hs.symm.trans hs₀)
      rw [hfree f List.mem_cons_self] at hbound
      cases hbound
    | some scopes₁ =>
      obtain ⟨top, below, hs₀, -, hs₁⟩ := ScopeChain.declare?_eq_some hd
      obtain ⟨rfl, rfl⟩ := List.cons.inj (hs.symm.trans hs₀)
      obtain ⟨scopes, vars', hrun, hs', hl⟩ :=
        run_declareFunctions (L := { L with scopes := scopes₁ }) hs₁ hnodup.2
          fun g hg => by
            have : (g.name.text == f.name.text) = false := by simpa using hne g hg
            rw [List.lookup_cons, this]
            exact hfree g (List.mem_cons_of_mem _ hg)
      refine ⟨scopes, vars', ?_, hs', fun x => by rw [hl, rootOf_cons _ hne]⟩
      exact (run_bind_ok (run_declare hd)).trans hrun

theorem signatureOf?_isData {fs : List FunctionDefinition} {x : String} {σ : Signature}
    (h : signatureOf? fs x = some σ) : σ.result.isData = true := by
  unfold signatureOf? at h
  split at h
  · cases h; exact TypeName.isData _
  · obtain ⟨b, -, hb⟩ := Option.bind_eq_some_iff.1 h
    cases b <;> simp [Builtin.signature?, Builtin.kind] at hb <;> subst hb <;> rfl

/-- Once the functions are declared the checker and the lowering know the same of them. -/
theorem roots {fs : List FunctionDefinition} {types : List (String × Binding Ty)}
    {vars : List (String × Binding Var)}
    (ht : ∀ x, types.lookup x = rootOf (fun f => .value f.signature.ty) fs
      (Builtin.all.map fun b => (b.name, .builtin b)) x)
    (hv : ∀ x, vars.lookup x = rootOf (fun f => .value (.named f.name.text)) fs
      (Builtin.all.map fun b => (b.name, .builtin b)) x) :
    Roots (signatureOf? fs) types vars := by
  refine ⟨fun x => ?_, fun x σ => signatureOf?_isData⟩
  simp only [ht, hv, rootOf, lookup_builtins, signatureOf?]
  cases hf : fs.find? (·.name.text == x) with
  | some f =>
    have hx : f.name.text = x := by simpa using List.find?_some hf
    exact .inr (.inr ⟨f.signature, rfl, by simp [hx], rfl⟩)
  | none =>
    cases hb : Builtin.ofName? x with
    | none => exact .inl ⟨rfl, rfl⟩
    | some b => exact .inr (.inl ⟨b, by simpa using List.find?_some hb, rfl, rfl, rfl⟩)

/-! ## Functions -/

section Elaboration

variable {sig : String → Option Signature} {types : List (String × Binding Ty)}
  {vars : List (String × Binding Var)}

/-- Parameters that the checker declares are lowered to the next temporaries. -/
theorem elaborateParameters (hR : Roots sig types vars) {α γ : Type} {tree : α}
    {rest : Checker α γ} {found : γ} :
    ∀ (ps : List Parameter) {s : Stage} {Γ : Scopes} {L : State}, Agrees types vars s Γ L →
      (declaringParameters tree rest ps Γ).outcome = .ok found →
      ∃ Γ' L', declaringParameters tree rest ps Γ = rest Γ' ∧
        ps.mapM lowerParameter L =
          .ok ((List.range' s.nextTemp ps.length).map .temp, L') ∧
        Agrees types vars (s.declareAll ps) Γ' L'
  | [], s, Γ, L, hA, h => ⟨Γ, L, rfl, rfl, hA⟩
  | p :: ps, s, Γ, L, hA, h => by
    rw [declaringParameters] at h ⊢
    obtain ⟨Γ₁, hd, he⟩ := declaring_ok h
    rw [he] at h ⊢
    obtain ⟨scopes, hs, hA₁⟩ := hA.declare hR hd (TypeName.isData _)
    obtain ⟨Γ', L', hrest, hrun, hA'⟩ := elaborateParameters hR ps hA₁ h
    refine ⟨Γ', L', hrest, ?_, hA'⟩
    have hp : lowerParameter p L = .ok (.temp L.nextTemp, _) :=
      (run_bind_ok (run_freshTemp L)).trans (run_bind_ok (run_declareOwned hs))
    rw [List.mapM_cons, run_bind_ok hp, run_bind_ok hrun, hA.nextTemp]; rfl

/-- What comes of lowering the definition of a function. -/
theorem elaborateFunction (hR : Roots sig types vars) {f : FunctionDefinition} {s : Stage}
    {Γ : Scopes} {L : State} {τ : Ty} (hA : Agrees types vars s Γ L)
    (h : (checkFunction f Γ).outcome = .ok τ) :
    Elaborated ((checkFunction f Γ).tree.body.misplaced? false)
      (lowerFunction (checkFunction f Γ).tree L)
      (fun F L => ∃ s', LowersFunction sig s (checkFunction f Γ).tree F s' ∧
        Agrees types vars s' (checkFunction f Γ).scopes L ∧ s'.locals = s.locals) := by
  unfold checkFunction at h ⊢
  obtain ⟨h₁, hd, ht, hs⟩ := ensure_ok h
  obtain ⟨h₂, hin⟩ := inScope_ok h₁
  obtain ⟨Γ', L', hrest, hrun, hA'⟩ := elaborateParameters hR f.parameters hA.push h₂
  rw [ht, hs, hin, hrest]
  rw [hrest] at h₂
  rw [hin, hrest] at hd
  obtain rfl : τ = f.result.ty := by
    unfold demandBody at hd
    split at hd
    · assumption
    · cases hd
  change (checkExpr (some f.result.ty) f.body Γ').outcome = _ at h₂
  refine .inScope (.step hrun ?_) fun F L₁ (hF : ∃ s₁,
      LowersFunction sig s { f with body := (checkExpr (some f.result.ty) f.body Γ').tree } F
        s₁.leave ∧ s.enter.Extends s₁ ∧
      Agrees types vars s₁ (checkExpr (some f.result.ty) f.body Γ').scopes L₁) => ?_
  · refine (elaborateExpr hR (some f.result.ty) f.body none hA' h₂).last
      fun g L₁ ⟨s₁, hg, hA₁, _⟩ => ?_
    exact ⟨_, _, rfl, s₁, .intro hg, (Stage.Extends.declareAll _ _).trans hg.extends, hA₁⟩
  · obtain ⟨s₁, hF, hext, hA₁⟩ := hF
    obtain ⟨new, hl⟩ := hext.locals [] s.locals rfl
    exact ⟨s₁.leave, hF, hA₁.close hl hA.isOpen, hext.leave.1⟩

/-- What comes of lowering the top-level statements. -/
theorem elaborateEntry (hR : Roots sig types vars) {e : Expr} {s : Stage} {Γ : Scopes} {L : State}
    {τ : Ty} (hA : Agrees types vars s Γ L) (h : (checkExpr none e Γ).outcome = .ok τ) :
    Elaborated ((checkExpr none e Γ).tree.misplaced? false)
      (lowerEntryPoint (checkExpr none e Γ).tree L)
      (fun F _ => τ.isData = true ∧ ∃ s', LowersEntry sig s (checkExpr none e Γ).tree τ F s') := by
  refine (elaborateExpr hR none e none hA h).last fun g L₁ ⟨s₁, hg, hA₁, hd, hn⟩ => ?_
  rw [run_bind_ok (run_typeOf hn L₁)]
  cases hp : printer? τ with
  | none => exact ⟨_, _, rfl, hd, s₁, .silent hg hp⟩
  | some b =>
    refine ⟨_, _, rfl, hd, s₁.withTemp .unit, ?_⟩
    rw [hA₁.nextTemp]
    exact .printing hg hp

theorem findSome?_cons {α β : Type} (p : α → Option β) (a : α) (l : List α) :
    (a :: l).findSome? p = (p a).or (l.findSome? p) := by
  rw [List.findSome?_cons]
  cases p a <;> rfl

/-- What comes of lowering the definitions of functions. -/
theorem elaborateFunctions (hR : Roots sig types vars) :
    ∀ (fs : List FunctionDefinition) {s : Stage} {Γ : Scopes} {L : State},
      Agrees types vars s Γ L → (checkFunctions fs Γ).outcome = .ok () →
      Elaborated ((checkFunctions fs Γ).tree.findSome? (·.body.misplaced? false))
        ((checkFunctions fs Γ).tree.mapM lowerFunction L)
        (fun Fs L => ∃ s', LowersFunctions sig s (checkFunctions fs Γ).tree Fs s' ∧
          Agrees types vars s' (checkFunctions fs Γ).scopes L ∧ s'.locals = s.locals)
  | [], s, Γ, L, hA, h => .pure ⟨s, .nil, hA, rfl⟩
  | f :: fs, s, Γ, L, hA, h => by
    rw [checkFunctions] at h ⊢
    obtain ⟨υ, h₁, he⟩ := andThen_ok h
    rw [he] at h ⊢
    change (checkFunctions fs _).outcome = .ok () at h
    simp only [Checker.map, findSome?_cons, List.mapM_cons]
    refine (elaborateFunction hR hA h₁).bind fun F L₁ hfirst => ?_
    obtain ⟨s₁, hF, hA₁, hl₁⟩ := hfirst
    refine (elaborateFunctions hR fs hA₁ h).last fun Fs L₂ hothers => ?_
    obtain ⟨s₂, hFs, hA₂, hl₂⟩ := hothers
    exact ⟨_, _, rfl, s₂, .cons hF hFs, hA₂, hl₂.trans hl₁⟩

end Elaboration

/-! ## Modules -/

/-- A checked module lowers by the rules, or has a misplaced loop control. -/
theorem elaborateModule {m : Syntax.Module} {τ : Ty} (h : (checkModule m).outcome = .ok τ) :
    Elaborated (checkModule m).tree.misplaced? (lowerModule (checkModule m).tree {})
      (fun M _ => LowersModule (checkModule m).tree τ M) := by
  unfold checkModule at h ⊢
  cases hΓ : m.functions.foldlM (fun s f => Typing.declareFunction f s) ScopeChain.withBuiltins with
  | error fault => simp only [hΓ] at h; cases h
  | ok Γ =>
    simp only [hΓ] at h ⊢
    obtain ⟨_, h₁, he⟩ := andThen_ok h
    rw [he] at h ⊢
    change (checkExpr none m.body _).outcome = .ok τ at h
    obtain ⟨types, hs, ht, hnodup, hfresh⟩ := declareFunctions_ok hΓ (ScopeChain.stack_root _)
    have hh := checkFunctions_header m.functions Γ
    have hnames : (checkFunctions m.functions Γ).tree.map (·.name.text) =
        m.functions.map (·.name.text) := by
      have := congrArg (List.map Prod.fst) hh
      rwa [List.map_map, List.map_map] at this
    rw [← hnames] at hnodup
    have hreserved : ∀ f ∈ (checkFunctions m.functions Γ).tree,
        f.name.text ≠ entryPoint ∧ Builtin.ofName? f.name.text = none := by
      intro f hf
      have hf : f.name.text ∈ m.functions.map (·.name.text) := hnames ▸ List.mem_map_of_mem hf
      obtain ⟨g, hg, he⟩ := List.mem_map.1 hf
      have hfree := (hfresh g hg).2
      rw [lookup_builtins, Option.map_eq_none_iff] at hfree
      exact he ▸ ⟨(hfresh g hg).1, hfree⟩
    obtain ⟨scopes, vars, hrun, hvs, hv⟩ :=
      run_declareFunctions (L := {})
        (ScopeChain.stack_root _) hnodup fun f hf => by
          rw [lookup_builtins, (hreserved f hf).2]; rfl
    have hR : Roots (signatureOf? (checkFunctions m.functions Γ).tree) types vars :=
      roots (fun x => (ht x).trans (rootOf_header (fun p => Binding.value p.2.ty) hh.symm _ x)) hv
    have hA : Agrees types vars .initial Γ { ({} : State) with scopes } :=
      ⟨List.cons_ne_nil _ _, hs, hvs, by simp [Stage.initial], rfl, rfl, rfl⟩
    refine .step hrun ?_
    refine (elaborateFunctions hR m.functions hA h₁).bind fun Fs L₁ ⟨s₁, hFs, hA₁, hl₁⟩ => ?_
    refine (elaborateEntry hR hA₁ h).last fun F L₂ ⟨hd, s₂, hF⟩ => ?_
    exact ⟨_, _, rfl, hnodup, hreserved, hd,
      Fs, F, s₁, s₂, rfl, hFs, hF⟩

/-- What lowering gives for a module that was checked obeys the rules. -/
theorem lower_checked {m : Syntax.Module} {τ : Ty} {M : IR.Module}
    (h : (checkModule m).outcome = .ok τ) (hM : lower (checkModule m).tree = .ok M) :
    LowersModule (checkModule m).tree τ M := by
  have he := elaborateModule h
  unfold lower StateT.run' at hM
  cases hp : (checkModule m).tree.misplaced? with
  | some p =>
    rw [hp] at he
    have he : lowerModule (checkModule m).tree {} = _ := he
    rw [he] at hM
    cases hM
  | none =>
    rw [hp] at he
    obtain ⟨M', L, hrun, hl⟩ := he
    rw [hrun] at hM
    cases hM
    exact hl

/-- A module that was checked and in which no loop control is misplaced can be lowered. -/
theorem lower_of_placed {m : Syntax.Module} {τ : Ty} (h : (checkModule m).outcome = .ok τ)
    (hp : (checkModule m).tree.misplaced? = none) :
    ∃ M, lower (checkModule m).tree = .ok M ∧ LowersModule (checkModule m).tree τ M := by
  have he := elaborateModule h
  rw [hp] at he
  obtain ⟨M, L, hrun, hM⟩ := he
  exact ⟨M, by unfold lower StateT.run'; rw [hrun]; rfl, hM⟩

/-! ## The functions of a lowered module -/

/-- A stage between two functions, where only functions are in scope. -/
structure Stage.Outside (s : Stage) : Prop where
  wf : s.WF
  locals : s.locals = [[]]

theorem Stage.Outside.initial : Stage.initial.Outside := ⟨.initial, rfl⟩

section Functions

variable {sig : String → Option Signature}

/-- Lowering a function only goes on. -/
theorem LowersFunction.extends {s s' : Stage} {f : FunctionDefinition} {F : Function}
    (h : LowersFunction sig s f F s') : s.Extends s' := by
  cases h with
  | intro hg => exact ((Stage.Extends.declareAll s.enter f.parameters).trans hg.extends).leave.2

theorem LowersFunctions.extends :
    ∀ {s s' : Stage} {fs : List FunctionDefinition} {Fs : List Function},
      LowersFunctions sig s fs Fs s' → s.Extends s'
  | s, _, _, _, .nil => .refl s
  | _, _, _, _, .cons hF hFs => hF.extends.trans hFs.extends

theorem LowersFunction.outside {s s' : Stage} {f : FunctionDefinition} {F : Function}
    (h : LowersFunction sig s f F s') (hs : s.Outside) : s'.Outside := by
  cases h with
  | intro hg =>
    have hext := (Stage.Extends.declareAll s.enter f.parameters).trans hg.extends
    exact ⟨hs.wf.leave (hg.wf (hs.wf.enter.declareAll _)) hext, hext.leave.1.trans hs.locals⟩

theorem LowersFunction.name {s s' : Stage} {f : FunctionDefinition} {F : Function}
    (h : LowersFunction sig s f F s') : F.name = f.name.text := by
  cases h; rfl

/-- The code of a function is that of its body, and behind it the value of the body is returned. -/
theorem LowersFunction.body {s s' : Stage} {f : FunctionDefinition} {F : Function}
    (h : LowersFunction sig s f F s') :
    ∃ g s₁ post, Lowers sig (some f.result.ty) none (s.enter.declareAll f.parameters) f.body
        f.result.ty g s₁ ∧
      F.parameters = (List.range' s.nextTemp f.parameters.length).map .temp ∧
      F.code = g.code ++ post ∧ F.result = g.value ∧
      ((post = [] ∧ f.body.endsInReturn = true) ∨ post = [⟨f.body.location, .leave g.value⟩]) ∧
      s' = s₁.leave := by
  cases h with
  | @intro s₁ _ g hg =>
    by_cases hr : f.body.endsInReturn = true
    · exact ⟨g, s₁, [], hg, rfl, by simp [hr], rfl, .inl ⟨rfl, hr⟩, rfl⟩
    · exact ⟨g, s₁, _, hg, rfl, if_neg hr, rfl, .inr rfl, rfl⟩

theorem LowersFunctions.outside :
    ∀ {s s' : Stage} {fs : List FunctionDefinition} {Fs : List Function},
      LowersFunctions sig s fs Fs s' → s.Outside → s'.Outside
  | _, _, _, _, .nil, hs => hs
  | _, _, _, _, .cons hF hFs, hs => hFs.outside (hF.outside hs)

/-- A name finds a definition and the function that it was lowered to, or neither. -/
theorem LowersFunctions.find? (x : String) :
    ∀ {s s' : Stage} {fs : List FunctionDefinition} {Fs : List Function},
      LowersFunctions sig s fs Fs s' → s.Outside →
      (fs.find? (·.name.text == x) = none ∧ Fs.find? (·.name == x) = none) ∨
      ∃ f F s₁ s₂, fs.find? (·.name.text == x) = some f ∧ Fs.find? (·.name == x) = some F ∧
        LowersFunction sig s₁ f F s₂ ∧ s₁.Outside
  | _, _, _, _, .nil, _ => .inl ⟨rfl, rfl⟩
  | s, _, _, _, .cons (f := f) (F := F) hF hFs, hs => by
    simp only [List.find?_cons, hF.name]
    cases hx : f.name.text == x with
    | true => exact .inr ⟨f, F, s, _, rfl, rfl, hF, hs⟩
    | false => exact hFs.find? x (hF.outside hs)

/-- Every function comes from a definition. -/
theorem LowersFunctions.exists_of_mem :
    ∀ {s s' : Stage} {fs : List FunctionDefinition} {Fs : List Function},
      LowersFunctions sig s fs Fs s' → s.Outside →
      ∀ F ∈ Fs, ∃ f ∈ fs, ∃ s₁ s₂, LowersFunction sig s₁ f F s₂ ∧ s₁.Outside
  | _, _, _, _, .nil, _, F, hF => by cases hF
  | s, _, _, _, .cons hF hFs, hs, G, hG => by
    rcases List.mem_cons.1 hG with rfl | hG
    · exact ⟨_, List.mem_cons_self, s, _, hF, hs⟩
    · obtain ⟨f, hf, h⟩ := hFs.exists_of_mem (hF.outside hs) G hG
      exact ⟨f, List.mem_cons_of_mem _ hf, h⟩

theorem LowersEntry.wf {s s' : Stage} {e : Expr} {τ : Ty} {F : Function}
    (h : LowersEntry sig s e τ F s') (hs : s.Outside) : s'.WF := by
  cases h with
  | silent hg _ => exact hg.wf hs.wf
  | printing hg _ => exact (hg.wf hs.wf).withTemp _

theorem LowersEntry.extends {s s' : Stage} {e : Expr} {τ : Ty} {F : Function}
    (h : LowersEntry sig s e τ F s') : s.Extends s' := by
  cases h with
  | silent hg _ => exact hg.extends
  | printing hg _ => exact hg.extends.trans (.withTemp _ _)

theorem LowersEntry.name {s s' : Stage} {e : Expr} {τ : Ty} {F : Function}
    (h : LowersEntry sig s e τ F s') : F.name = entryPoint := by
  cases h <;> rfl

end Functions

namespace LowersModule

variable {m : Syntax.Module} {τ : Ty} {M : IR.Module}

/-- A run starts in the function of the top-level statements. -/
theorem entry (h : LowersModule m τ M) :
    ∃ F s s', M.entry? = some F ∧ LowersEntry (signatureOf? m.functions) s m.body τ F s' ∧
      s.Outside := by
  obtain ⟨Fs, F, s, s', hM, hFs, hF⟩ := h.lowers
  refine ⟨F, s, s', ?_, hF, hFs.outside .initial⟩
  have hnone : Fs.find? (·.isEntryPoint) = none := by
    rw [List.find?_eq_none]
    intro G hG hentry
    obtain ⟨f, hf, _, _, hGf, -⟩ := hFs.exists_of_mem .initial G hG
    refine (h.reserved f hf).1 ?_
    rw [← hGf.name]
    simpa [Function.isEntryPoint] using hentry
  rw [IR.Module.entry?, hM, List.find?_append, hnone, Option.none_or]
  simp [Function.isEntryPoint, hF.name]

/-- A declared function is found by its name. -/
theorem function? (h : LowersModule m τ M) {x : String} {f : FunctionDefinition}
    (hf : m.functions.find? (·.name.text == x) = some f) :
    ∃ F s s', M.function? x = some F ∧ LowersFunction (signatureOf? m.functions) s f F s' ∧
      s.Outside := by
  obtain ⟨Fs, F, s, s', hM, hFs, hF⟩ := h.lowers
  rcases hFs.find? x .initial with ⟨hn, -⟩ | ⟨g, G, s₁, s₂, hg, hG, hGg, hs₁⟩
  · rw [hn] at hf; cases hf
  · rw [hg] at hf
    cases hf
    exact ⟨G, s₁, s₂, by rw [IR.Module.function?, hM, List.find?_append, hG]; rfl, hGg, hs₁⟩

/-- No function of the module has the name of a built-in function. -/
theorem function?_builtin (h : LowersModule m τ M) (b : Builtin) : M.function? b.name = none := by
  obtain ⟨Fs, F, s, s', hM, hFs, hF⟩ := h.lowers
  have hb : (F.name == b.name) = false := by rw [hF.name]; cases b <;> decide
  rw [IR.Module.function?, hM, List.find?_append]
  rcases hFs.find? b.name .initial with ⟨-, hn⟩ | ⟨g, G, s₁, s₂, hg, -⟩
  · simp [hn, hb]
  · have hname : g.name.text = b.name := by simpa using List.find?_some hg
    have := (h.reserved g (List.mem_of_find?_eq_some hg)).2
    rw [hname, Builtin.ofName?_name] at this
    cases this

/-- What can be called is a declared function or a built-in function. -/
theorem callee (h : LowersModule m τ M) {x : String} {σ : Signature}
    (hx : signatureOf? m.functions x = some σ) :
    (∃ f F s s', m.functions.find? (·.name.text == x) = some f ∧ f.signature = σ ∧
      M.function? x = some F ∧ LowersFunction (signatureOf? m.functions) s f F s' ∧ s.Outside) ∨
    ∃ b : Builtin, b.name = x ∧ b.signature? = some σ := by
  unfold signatureOf? at hx
  cases hf : m.functions.find? (·.name.text == x) with
  | some f =>
    rw [hf] at hx
    obtain ⟨F, s, s', hF, hl, hs⟩ := h.function? hf
    exact .inl ⟨f, F, s, s', rfl, Option.some.inj hx, hF, hl, hs⟩
  | none =>
    rw [hf] at hx
    obtain ⟨b, hb, hσ⟩ := Option.bind_eq_some_iff.1 hx
    exact .inr ⟨b, by simpa using List.find?_some hb, hσ⟩

/-- Every function comes from a definition or from the top-level statements. -/
theorem exists_of_mem (h : LowersModule m τ M) {F : Function} (hF : F ∈ M.functions) :
    (∃ f ∈ m.functions, ∃ s s', LowersFunction (signatureOf? m.functions) s f F s' ∧ s.Outside) ∨
    ∃ s s', LowersEntry (signatureOf? m.functions) s m.body τ F s' ∧ s.Outside := by
  obtain ⟨Fs, G, s, s', hM, hFs, hG⟩ := h.lowers
  rw [hM] at hF
  rcases List.mem_append.1 hF with hF | hF
  · exact .inl (hFs.exists_of_mem .initial F hF)
  · obtain rfl := List.mem_singleton.1 hF
    exact .inr ⟨s, s', hG, hFs.outside .initial⟩

end LowersModule

end Lowering

end Exprc

/-
The checker decides the rules, for modules. Functions are declared if their names are new and free; then
the outermost scope holds what can be called in every body, and the bodies are checked one by one.
-/
import Exprc.Proofs.Syntax.Written
import Exprc.Proofs.Typing.Expressions
import Exprc.Proofs.Typing.Functions

namespace Exprc.Typing

open Syntax
open Checker (andThen_ok declaring_ok ensure_ok inScope_ok)
open Checker (andThen_run declaring_run ensure_run inScope_run)

/-! ## What can be called -/

/-- The bindings of the built-in functions. -/
def builtinRoot : List (String × Binding Ty) := Builtin.all.map fun b => (b.name, .builtin b)

/-- Names that are free are those that no built-in function has. -/
theorem lookup_builtinRoot_eq_none {x : String} :
    builtinRoot.lookup x = none ↔ ∀ b : Builtin, x ≠ b.name := by
  rw [builtinRoot, lookup_builtins, Option.map_eq_none_iff]
  unfold Builtin.ofName?
  rw [List.find?_eq_none]
  constructor
  · rintro h b rfl
    simpa using h b (Builtin.mem_all b)
  · intro h b _
    simpa using (h b).symm

/-- What others see of functions decides what can be called. -/
theorem Callable.congr {byName : Builtin → Prop} {fs gs : List FunctionDefinition}
    (h : fs.map header = gs.map header) : Callable byName fs = Callable byName gs := by
  have hiff : ∀ (fs : List FunctionDefinition) (x : String) (σ : Signature),
      (∃ f ∈ fs, f.name.text = x ∧ f.signature = σ) ↔ (x, σ) ∈ fs.map header := by
    intro fs x σ
    simp [header]
  funext x σ
  simp only [Callable, hiff, h]

/-- Once the functions are declared the outermost scope holds what can be called. -/
theorem root_of_declared {fs : List FunctionDefinition} {root : List (String × Binding Ty)}
    (hnodup : (fs.map (·.name.text)).Nodup)
    (hfree : ∀ f ∈ fs, ∀ b : Builtin, f.name.text ≠ b.name)
    (hroot : ∀ x, root.lookup x = rootOf (fun f => .value f.signature.ty) fs builtinRoot x) :
    Root (Callable (fun _ => True) fs) root where
  callee x σ := by
    rw [hroot, rootOf]
    cases hf : fs.find? (·.name.text == x) with
    | some f =>
      have hmem := List.mem_of_find?_eq_some hf
      obtain rfl : f.name.text = x := by simpa using List.find?_some hf
      rw [Option.map_some, Option.some_or]
      constructor
      · intro h
        cases h
        exact .inl ⟨f, hmem, rfl, rfl⟩
      · rintro (⟨g, hg, hx, rfl⟩ | ⟨b, -, hx, -⟩)
        · obtain rfl : g = f := List.inj_on_of_nodup_map hnodup hg hmem hx
          rfl
        · exact absurd hx.symm (hfree f hmem b)
    | none =>
      rw [Option.map_none, Option.none_or, builtinRoot, lookup_builtins]
      have hnone : ∀ f ∈ fs, f.name.text ≠ x := by simpa using hf
      constructor
      · intro h
        cases hb : Builtin.ofName? x with
        | none => rw [hb] at h; cases h
        | some b =>
          rw [hb] at h
          have hx : b.name = x := by simpa using List.find?_some hb
          refine .inr ⟨b, trivial, hx, ?_⟩
          simp only [Option.map_some, calleeSignature] at h
          cases hσ : b.signature? with
          | none => rw [hσ] at h; cases h
          | some σ' => rw [hσ] at h; cases h; rfl
      · rintro (⟨f, hf, hx, -⟩ | ⟨b, -, rfl, hσ⟩)
        · exact absurd hx (hnone f hf)
        · rw [Builtin.ofName?_name, Option.map_some, calleeSignature, hσ]
  not_variable x τ := by
    rw [hroot, rootOf, builtinRoot, lookup_builtins]
    cases fs.find? (·.name.text == x) with
    | some f => intro h; cases h
    | none => cases Builtin.ofName? x <;> intro h <;> cases h
  result_isData x σ := by
    rintro (⟨f, -, -, rfl⟩ | ⟨b, -, -, hσ⟩)
    · exact TypeName.isData _
    · cases b <;> simp [Builtin.signature?, Builtin.kind] at hσ <;> subst hσ <;> rfl

/-! ## Functions -/

section

variable {callable : String → Signature → Prop} {root : List (String × Binding Ty)}

/-- Parameters are declared if their names are new in their scope. -/
theorem declaringParameters_run {α γ : Type} {tree : α} {rest : Checker α γ} :
    ∀ (ps : List Parameter) {frame : List (String × Ty)} {Γ : Stack Ty} {s : Scopes},
      Holds root (frame :: Γ) s → (ps.map (·.name.text)).Nodup →
      (∀ p ∈ ps, frame.lookup p.name.text = none) →
      ∃ s', declaringParameters tree rest ps s = rest s' ∧
        Holds root ((parameterFrame ps ++ frame) :: Γ) s'
  | [], frame, Γ, s, hΓ, _, _ => ⟨s, rfl, hΓ⟩
  | p :: ps, frame, Γ, s, hΓ, hnodup, hfree => by
    rw [List.map_cons, List.nodup_cons] at hnodup
    obtain ⟨s₁, hd, hΓ₁⟩ := hΓ.declare (hfree p List.mem_cons_self) (TypeName.isData p.written.name)
    have hfree₁ : ∀ q ∈ ps, ((p.name.text, p.written.ty) :: frame).lookup q.name.text = none := by
      intro q hq
      have hne : q.name.text ≠ p.name.text := fun he => hnodup.1 (he ▸ List.mem_map_of_mem hq)
      rw [List.lookup_cons, beq_eq_false_iff_ne.2 hne]
      exact hfree q (List.mem_cons_of_mem _ hq)
    obtain ⟨s', hrest, hΓ'⟩ := declaringParameters_run ps hΓ₁ hnodup.2 hfree₁
    refine ⟨s', (declaring_run hd).trans hrest, ?_⟩
    simpa [parameterFrame, WrittenType.ty] using hΓ'

/-- Parameters that the checker has declared differ. -/
theorem declaringParameters_sound {α γ : Type} {tree : α} {rest : Checker α γ} {found : γ} :
    ∀ (ps : List Parameter) {frame : List (String × Ty)} {Γ : Stack Ty} {s : Scopes},
      Holds root (frame :: Γ) s → (declaringParameters tree rest ps s).outcome = .ok found →
      (ps.map (·.name.text)).Nodup ∧ ∀ p ∈ ps, frame.lookup p.name.text = none
  | [], frame, Γ, s, _, _ => ⟨List.nodup_nil, nofun⟩
  | p :: ps, frame, Γ, s, hΓ, h => by
    obtain ⟨s₁, hd, he⟩ := declaring_ok h
    rw [declaringParameters, he] at h
    obtain ⟨hp, hΓ₁⟩ := hΓ.declare_inv (TypeName.isData p.written.name) hd
    obtain ⟨hnodup, hfree⟩ := declaringParameters_sound ps hΓ₁ h
    have hne : ∀ q ∈ ps, q.name.text ≠ p.name.text ∧ frame.lookup q.name.text = none := by
      intro q hq
      have hq := hfree q hq
      rw [List.lookup_cons] at hq
      split at hq
      · cases hq
      · rename_i hx
        exact ⟨by simpa using hx, hq⟩
    rw [List.map_cons, List.nodup_cons]
    refine ⟨⟨fun hm => ?_, hnodup⟩, List.forall_mem_cons.2 ⟨hp, fun q hq => (hne q hq).2⟩⟩
    obtain ⟨q, hq, he⟩ := List.mem_map.1 hm
    exact (hne q hq).1 he

theorem checkFunction_sound (hR : Root callable root) {f : FunctionDefinition} {s : Scopes} {τ : Ty}
    (hΓ : Holds root [] s) (h : (checkFunction f s).outcome = .ok τ) :
    Holds root [] (checkFunction f s).scopes ∧ FunctionHasType Permits callable f ∧
      FunctionHasType Carries callable (checkFunction f s).tree := by
  unfold checkFunction at h ⊢
  obtain ⟨h₁, hd, htree, hscopes⟩ := ensure_ok h
  obtain ⟨h₂, hin⟩ := inScope_ok h₁
  obtain ⟨hnodup, hfree⟩ := declaringParameters_sound f.parameters hΓ.push h₂
  obtain ⟨s', hrest, hΓ'⟩ := declaringParameters_run f.parameters hΓ.push hnodup hfree
  rw [htree, hscopes, hin, hrest]
  rw [hrest] at h₂
  rw [hin, hrest] at hd
  obtain rfl : τ = f.result.ty := by
    unfold demandBody at hd
    split at hd
    · assumption
    · cases hd
  rw [List.append_nil] at hΓ'
  obtain ⟨frame, hΓ₁, -, ht, ht'⟩ := checkExpr_sound hR f.body hΓ' h₂
  exact ⟨hΓ₁.close, ⟨hnodup, frame, ht⟩, hnodup, frame, ht'⟩

theorem FunctionHasType.accepted (hR : Root callable root) {f : FunctionDefinition} {s : Scopes}
    (ht : FunctionHasType Permits callable f) (hΓ : Holds root [] s) :
    ∃ τ, (checkFunction f s).outcome = .ok τ ∧ Holds root [] (checkFunction f s).scopes := by
  obtain ⟨frame, hbody⟩ := ht.body
  obtain ⟨s', hrest, hΓ'⟩ : ∃ s', declaringParameters f
      ((checkExpr (some f.result.ty) f.body).map fun body => { f with body }) f.parameters s.push =
        ((checkExpr (some f.result.ty) f.body).map fun body => { f with body }) s' ∧
      Holds root [parameterFrame f.parameters ++ []] s' :=
    declaringParameters_run f.parameters hΓ.push ht.nodup fun p _ => rfl
  rw [List.append_nil] at hΓ'
  obtain ⟨h₁, hΓ₁, -⟩ := hbody.accepted hR hΓ'
  have hin := inScope_run (hrest ▸ h₁ : (declaringParameters f
    ((checkExpr (some f.result.ty) f.body).map fun body => { f with body }) f.parameters s.push).outcome =
      .ok f.result.ty)
  refine ⟨f.result.ty, ?_⟩
  unfold checkFunction
  rw [ensure_run (by rw [hin]) (by rw [hin, hrest]; exact if_pos rfl), hin, hrest]
  exact ⟨rfl, hΓ₁.close⟩

theorem checkFunctions_sound (hR : Root callable root) :
    ∀ (fs : List FunctionDefinition) {s : Scopes}, Holds root [] s →
      (checkFunctions fs s).outcome = .ok () →
      Holds root [] (checkFunctions fs s).scopes ∧ (∀ f ∈ fs, FunctionHasType Permits callable f) ∧
        ∀ f ∈ (checkFunctions fs s).tree, FunctionHasType Carries callable f
  | [], s, hΓ, _ => ⟨hΓ, nofun, nofun⟩
  | f :: fs, s, hΓ, h => by
    rw [checkFunctions] at h ⊢
    obtain ⟨τ, h₁, he⟩ := andThen_ok h
    rw [he] at h ⊢
    obtain ⟨hΓ₁, ht, ht'⟩ := checkFunction_sound hR hΓ h₁
    obtain ⟨hΓ₂, hts, hts'⟩ := checkFunctions_sound hR fs hΓ₁ h
    exact ⟨hΓ₂, List.forall_mem_cons.2 ⟨ht, hts⟩, List.forall_mem_cons.2 ⟨ht', hts'⟩⟩

theorem checkFunctions_accepted (hR : Root callable root) :
    ∀ (fs : List FunctionDefinition) {s : Scopes}, Holds root [] s →
      (∀ f ∈ fs, FunctionHasType Permits callable f) →
      (checkFunctions fs s).outcome = .ok () ∧ Holds root [] (checkFunctions fs s).scopes
  | [], s, hΓ, _ => ⟨rfl, hΓ⟩
  | f :: fs, s, hΓ, h => by
    obtain ⟨hf, hfs⟩ := List.forall_mem_cons.1 h
    obtain ⟨τ, h₁, hΓ₁⟩ := hf.accepted hR hΓ
    rw [checkFunctions, andThen_run h₁]
    exact checkFunctions_accepted hR fs hΓ₁ hfs

end

/-! ## Modules -/

/-- Functions whose names differ and are free can be declared. -/
theorem declareFunctions_run :
    ∀ {fs : List FunctionDefinition} {s : Scopes} {root : List (String × Binding Ty)},
      s.stack = [root] → (fs.map (·.name.text)).Nodup →
      (∀ f ∈ fs, f.name.text ≠ entryPoint ∧ root.lookup f.name.text = none) →
      ∃ s', fs.foldlM (fun s f => declareFunction f s) s = .ok s'
  | [], s, root, _, _, _ => ⟨s, rfl⟩
  | f :: fs, s, root, hs, hnodup, hfree => by
    rw [List.map_cons, List.nodup_cons] at hnodup
    obtain ⟨hentry, hf⟩ := hfree f List.mem_cons_self
    have hresolve : s.resolve? f.name.text = none := by
      rw [s.resolve?_eq, hs, Stack.find?_cons, hf]
      rfl
    cases hd : s.declare? f.name.text (.value f.signature.ty) with
    | none =>
      obtain ⟨top, below, hs₀, hbound⟩ := ScopeChain.declare?_eq_none hd
      obtain ⟨rfl, -⟩ := List.cons.inj (hs.symm.trans hs₀)
      rw [hf] at hbound
      cases hbound
    | some s₁ =>
      obtain ⟨top, below, hs₀, -, hs₁⟩ := ScopeChain.declare?_eq_some hd
      obtain ⟨rfl, rfl⟩ := List.cons.inj (hs.symm.trans hs₀)
      have hdecl : declareFunction f s = .ok s₁ := by
        simp only [declareFunction, if_neg hentry, hresolve, hd]
      obtain ⟨s', hs'⟩ := declareFunctions_run hs₁ hnodup.2 fun g hg => by
        have hne : g.name.text ≠ f.name.text := fun he => hnodup.1 (he ▸ List.mem_map_of_mem hg)
        obtain ⟨hg₁, hg₂⟩ := hfree g (List.mem_cons_of_mem _ hg)
        refine ⟨hg₁, ?_⟩
        rw [List.lookup_cons, beq_eq_false_iff_ne.2 hne]
        exact hg₂
      refine ⟨s', ?_⟩
      rw [List.foldlM_cons, hdecl]
      exact hs'

/-- A module that the checker accepts obeys the rules, and gets the types of the rules in its notes. -/
theorem checkModule_sound {m : Module} {τ : Ty} (hbody : ∃ n es, m.body = .block n es)
    (h : (checkModule m).outcome = .ok τ) :
    ModuleHasType Permits (Callable (fun _ => True) m.functions) m τ ∧
      ModuleHasType Carries (Callable (fun _ => True) m.functions) (checkModule m).tree τ := by
  have hh := checkModule_header m
  unfold checkModule at h hh ⊢
  cases hΓ : m.functions.foldlM (fun s f => declareFunction f s) ScopeChain.withBuiltins with
  | error fault => simp only [hΓ] at h; cases h
  | ok s =>
    simp only [hΓ] at h hh ⊢
    obtain ⟨_, h₁, he⟩ := andThen_ok h
    rw [he] at h hh ⊢
    change (checkExpr none m.body _).outcome = .ok τ at h
    obtain ⟨root, hs, hroot, hnodup, hfree⟩ := declareFunctions_ok hΓ (ScopeChain.stack_root _)
    have hfree : ∀ f ∈ m.functions, f.name.text ≠ entryPoint ∧ ∀ b : Builtin, f.name.text ≠ b.name :=
      fun f hf => ⟨(hfree f hf).1, lookup_builtinRoot_eq_none.1 (hfree f hf).2⟩
    have hR := root_of_declared hnodup (fun f hf => (hfree f hf).2) hroot
    obtain ⟨hΓ₁, hts, hts'⟩ := checkFunctions_sound hR m.functions ⟨hs, nofun⟩ h₁
    obtain ⟨n, es, hb⟩ := hbody
    rw [hb] at h
    obtain ⟨-, -, ht, ht'⟩ := checkBlock_sound h (checkStatements_sound hR es hΓ₁.push rfl)
    refine ⟨⟨hnodup, hfree, hts, hb ▸ ht⟩, ?_, ?_, hts', ?_⟩
    · have := congrArg (List.map Prod.fst) hh
      rw [List.map_map, List.map_map] at this
      exact this ▸ hnodup
    · intro f hf
      obtain ⟨g, hg, he⟩ := List.mem_map.1 (hh ▸ List.mem_map_of_mem hf : header f ∈ m.functions.map header)
      have hname : g.name.text = f.name.text := congrArg Prod.fst he
      exact hname ▸ hfree g hg
    · exact hb ▸ ht'

/-- A module that obeys the rules is accepted. -/
theorem ModuleHasType.accepted {m : Module} {τ : Ty}
    (ht : ModuleHasType Permits (Callable (fun _ => True) m.functions) m τ) :
    (checkModule m).outcome = .ok τ := by
  obtain ⟨s, hs⟩ : ∃ s,
      m.functions.foldlM (fun s f => declareFunction f s) ScopeChain.withBuiltins = .ok s :=
    declareFunctions_run (ScopeChain.stack_root builtinRoot) ht.nodup fun f hf =>
      ⟨(ht.free f hf).1, lookup_builtinRoot_eq_none.2 (ht.free f hf).2⟩
  obtain ⟨root, hstack, hroot, -, -⟩ := declareFunctions_ok hs (ScopeChain.stack_root _)
  have hR := root_of_declared ht.nodup (fun f hf => (ht.free f hf).2) hroot
  obtain ⟨h₁, hΓ₁⟩ := checkFunctions_accepted hR m.functions ⟨hstack, nofun⟩ ht.functions
  unfold checkModule
  simp only [hs]
  rw [andThen_run h₁]
  exact (ht.body.accepted hR hΓ₁).1

/-! ## Modules that were read from a text -/

/-- Only functions and what reads and prints are called by their names. -/
theorem weakens_callable {e : Expr} {noted noted' : Note → Ty → Prop} {fs : List FunctionDefinition}
    (hf : ∀ f ∈ e.callee?, NotOperator f) (hn : ∀ τ, noted e.note τ → noted' e.note τ) :
    Weakens noted noted' (Callable (fun _ => True) fs) (Callable (·.isIntrinsic = true) fs) e := by
  refine ⟨hn, fun f hcallee σ => ?_⟩
  rintro (h | ⟨b, -, hb, hσ⟩)
  · exact .inl h
  · exact .inr ⟨b, hf f hcallee b hb, hb, hσ⟩

/-- The types in notes make no difference to the names that are called. -/
theorem callees_untyped {m m' : Module} (h : m'.untyped = m.untyped)
    (hm : ∀ a ∈ m.subexpressions, ∀ f ∈ a.callee?, NotOperator f) :
    ∀ a ∈ m'.subexpressions, ∀ f ∈ a.callee?, NotOperator f := by
  intro a ha
  have ha' : a.untyped ∈ m.subexpressions.map (·.untyped) := by
    rw [← m.subexpressions_untyped, ← h, m'.subexpressions_untyped]
    exact List.mem_map_of_mem ha
  obtain ⟨b, hb, he⟩ := List.mem_map.1 ha'
  rw [← a.callee?_untyped, ← he, b.callee?_untyped]
  exact hm b hb

/-- The checker decides the typing rules. It accepts a module that was read from a text, with a type for
its top-level statements, if and only if the module obeys the rules with this type; and then the tree that
it leaves is the one that was read, with the types that the rules give to all expressions in it. -/
theorem checkModule_decides {source : Source} {m : Module}
    (hm : Parser.module.readSource source = .ok m) (τ : Ty) :
    ((checkModule m).outcome = .ok τ ↔ WellTyped m τ) ∧
      ((checkModule m).outcome = .ok τ →
        Annotated (checkModule m).tree τ ∧ (checkModule m).tree.untyped = m.untyped) := by
  obtain ⟨hfresh, hbody⟩ := Parser.readSource_module hm
  refine ⟨⟨fun h => ?_, fun h => ?_⟩, fun h => ⟨?_, checkModule_untyped m⟩⟩
  · exact (checkModule_sound hbody h).1.weaken fun a ha =>
      weakens_callable (hfresh a ha).2 fun _ _ => trivial
  · refine ModuleHasType.accepted (h.weaken fun a ha => ⟨fun τ _ υ hυ => ?_, fun f _ σ => ?_⟩)
    · have hty : a.note.ty? = none := (hfresh a ha).1
      rw [hty] at hυ
      cases hυ
    · rintro (hf | ⟨b, -, hb, hσ⟩)
      · exact .inl hf
      · exact .inr ⟨b, trivial, hb, hσ⟩
  · have hcallees := callees_untyped (checkModule_untyped m) fun a ha => (hfresh a ha).2
    unfold Annotated
    rw [Callable.congr (checkModule_header m)]
    exact (checkModule_sound hbody h).2.weaken fun a ha => weakens_callable (hcallees a ha) fun _ hn => hn

/-- A program with a function that calls itself. -/
theorem checkModule_decides_recursion :
    ∃ m, Parser.module.readSource
        ⟨"fun f(n: Int): Int { if n < 1 then 1 else f(n - 1) } f(2) > 0", .memory⟩ = .ok m ∧
      WellTyped m .bool ∧ Annotated (checkModule m).tree .bool ∧
      (checkModule m).tree.untyped = m.untyped := by
  obtain ⟨m, hm, h⟩ : ∃ m, Parser.module.readSource
        ⟨"fun f(n: Int): Int { if n < 1 then 1 else f(n - 1) } f(2) > 0", .memory⟩ = .ok m ∧ (checkModule m).outcome = .ok .bool := by
    refine ⟨?m, ?h, ?g⟩
    case h => cbv; rfl
    case g => cbv
  have hdecides := checkModule_decides hm .bool
  exact ⟨m, hm, hdecides.1.1 h, hdecides.2 h⟩

end Exprc.Typing

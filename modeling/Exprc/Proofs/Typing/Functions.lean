/-
The functions of a module, as the checker sees them. They are declared before any body is checked, and
what names mean then depends on the headers of functions only, which a check leaves as they are.
-/
import Exprc.Proofs.Scope.Stack
import Exprc.Proofs.Typing.Tree

namespace Exprc.Typing

open Syntax

/-! ## Names of functions -/

/-- What a name means once functions are declared, if `f` says what each one stands for. -/
def rootOf {β : Type} (f : FunctionDefinition → β) (fs : List FunctionDefinition)
    (root : List (String × β)) (x : String) : Option β :=
  ((fs.find? (·.name.text == x)).map f).or (root.lookup x)

/-- Declaring one more function in front. -/
theorem rootOf_cons {β : Type} (f : FunctionDefinition → β) {g : FunctionDefinition}
    {fs : List FunctionDefinition} {root : List (String × β)}
    (hg : ∀ h ∈ fs, h.name.text ≠ g.name.text) (x : String) :
    rootOf f fs ((g.name.text, f g) :: root) x = rootOf f (g :: fs) root x := by
  simp only [rootOf, List.find?_cons, List.lookup_cons]
  by_cases hx : g.name.text = x
  · subst hx
    have hnone : fs.find? (·.name.text == g.name.text) = none :=
      List.find?_eq_none.2 fun h hh => by simpa using hg h hh
    simp [hnone]
  · have h₁ : (g.name.text == x) = false := by simpa using hx
    have h₂ : (x == g.name.text) = false := by simpa using Ne.symm hx
    simp only [h₁, h₂]

theorem declareFunction_ok {f : FunctionDefinition} {Γ Γ' : Scopes}
    (h : declareFunction f Γ = .ok Γ') :
    f.name.text ≠ entryPoint ∧ Γ.declare? f.name.text (.value f.signature.ty) = some Γ' := by
  unfold declareFunction at h
  split at h
  · cases h
  · rename_i hn
    split at h
    · cases h
    · split at h
      · rename_i hd; cases h; exact ⟨hn, hd⟩
      · cases h

/-- What the checker has in its root once the functions are declared. -/
theorem declareFunctions_ok :
    ∀ {fs : List FunctionDefinition} {Γ Γ' : Scopes} {types : List (String × Binding Ty)},
      fs.foldlM (fun Γ f => declareFunction f Γ) Γ = .ok Γ' → Γ.stack = [types] →
      ∃ types', Γ'.stack = [types'] ∧
        (∀ x, types'.lookup x = rootOf (fun f => .value f.signature.ty) fs types x) ∧
        (fs.map (·.name.text)).Nodup ∧
        ∀ f ∈ fs, f.name.text ≠ entryPoint ∧ types.lookup f.name.text = none
  | [], Γ, Γ', types, h, hs => by
    cases h
    exact ⟨types, hs, fun x => by simp [rootOf], by simp, by simp⟩
  | f :: fs, Γ, Γ', types, h, hs => by
    rw [List.foldlM_cons] at h
    cases hd : declareFunction f Γ with
    | error fault => rw [hd] at h; cases h
    | ok Γ₁ =>
      rw [hd] at h
      obtain ⟨hentry, hd⟩ := declareFunction_ok hd
      obtain ⟨top, below, hs₀, hfree, hs₁⟩ := ScopeChain.declare?_eq_some hd
      obtain ⟨rfl, rfl⟩ := List.cons.inj (hs.symm.trans hs₀)
      obtain ⟨types', hs', hl, hnodup, hfresh⟩ := declareFunctions_ok h hs₁
      have hne : ∀ g ∈ fs, g.name.text ≠ f.name.text ∧ types.lookup g.name.text = none := by
        intro g hg
        have := (hfresh g hg).2
        rw [List.lookup_cons] at this
        split at this
        · cases this
        · rename_i hx; exact ⟨by simpa using hx, this⟩
      refine ⟨types', hs', fun x => ?_, ?_, ?_⟩
      · rw [hl, rootOf_cons _ fun g hg => (hne g hg).1]
      · rw [List.map_cons, List.nodup_cons]
        refine ⟨fun hm => ?_, hnodup⟩
        obtain ⟨g, hg, he⟩ := List.mem_map.1 hm
        exact (hne g hg).1 he
      · intro g hg
        rcases List.mem_cons.1 hg with rfl | hg
        · exact ⟨hentry, hfree⟩
        · exact ⟨(hfresh g hg).1, (hne g hg).2⟩

theorem lookup_builtins {β : Type} (f : Builtin → β) (x : String) :
    (Builtin.all.map fun b => (b.name, f b)).lookup x = (Builtin.ofName? x).map f := by
  have h := lookup_map_append Builtin.name f Builtin.all [] x
  rwa [List.append_nil, List.lookup_nil, Option.or_none] at h

/-! ## Headers -/

/-- What others see of a function. -/
def header (f : FunctionDefinition) : String × Signature := (f.name.text, f.signature)

/-- Checking functions leaves their headers as they are. -/
theorem checkFunctions_header (fs : List FunctionDefinition) (Γ : Scopes) :
    (checkFunctions fs Γ).tree.map header = fs.map header := by
  have h := congrArg (List.map header) (checkFunctions_untyped fs Γ)
  rwa [List.map_map, List.map_map] at h

/-- What names mean depends on the headers of functions only. -/
theorem find?_header {β : Type} (g : String × Signature → β) (fs : List FunctionDefinition)
    (x : String) :
    (fs.find? (·.name.text == x)).map (fun f => g (header f)) =
      ((fs.map header).find? (·.1 == x)).map g := by
  rw [List.find?_map, Option.map_map]; rfl

theorem rootOf_header {β : Type} (g : String × Signature → β) {fs gs : List FunctionDefinition}
    (h : fs.map header = gs.map header) (root : List (String × β)) (x : String) :
    rootOf (fun f => g (header f)) fs root x = rootOf (fun f => g (header f)) gs root x := by
  rw [rootOf, rootOf, find?_header, find?_header, h]

/-- Checking a module leaves the headers of its functions as they are. -/
theorem checkModule_header (m : Syntax.Module) :
    (checkModule m).tree.functions.map header = m.functions.map header := by
  have h := congrArg (fun m => m.functions.map header) (checkModule_untyped m)
  dsimp only [Module.untyped] at h
  rwa [List.map_map, List.map_map] at h

end Exprc.Typing

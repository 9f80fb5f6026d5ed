/-
Checking functions in another order. What the check of a function finds and notes does not depend on the functions
that were checked before it, so a module whose functions are in another order is accepted like the module, and the
tree that its check leaves has the checked functions in the other order.
-/
import Exprc.Proofs.Renaming.Checking
import Exprc.Proofs.Resolution.Checking
import Exprc.Proofs.Typing.Module

namespace Exprc

namespace Syntax

/-- A name finds the same in any order, if no two have it. -/
theorem find?_of_perm {α : Type} {name : α → String} {as bs : List α} (h : as.Perm bs)
    (hnodup : (as.map name).Nodup) (x : String) : as.find? (name · == x) = bs.find? (name · == x) := by
  refine List.find?_eq_find?_of_perm h ?_
  rintro a ⟨ha, hax⟩ b ⟨hb, hbx⟩
  exact List.inj_on_of_nodup_map hnodup ha hb ((eq_of_beq hax).trans (eq_of_beq hbx).symm)

theorem Covers.keep (es : List Expr) : Covers .keep es := fun _ _ _ _ => trivial

theorem FunctionDefinition.renamed_id (i : Nat) (D : Stack Declaration) (f : FunctionDefinition) :
    f.renamed id i D = f := by
  have hparameters : f.parameters.map (·.renamed id) = f.parameters := List.map_id _
  rw [FunctionDefinition.renamed, hparameters, Expr.renamed_id]

end Syntax

open Syntax

theorem KnowsFunctions.of_perm {β : Type} {g : FunctionDefinition → Binding β} {fs gs : List FunctionDefinition}
    {s : ScopeChain (Binding β)} (h : KnowsFunctions g fs s) (hperm : fs.Perm gs)
    (hnodup : (fs.map (·.name.text)).Nodup) : KnowsFunctions g gs s := by
  obtain ⟨root, hstack, hroot⟩ := h
  refine ⟨root, hstack, fun x => ?_⟩
  rw [hroot, Typing.rootOf, Typing.rootOf, find?_of_perm hperm hnodup]

namespace Typing

open Checker (andThen_ok andThen_run)

/-- Only the functions that are declared, and the built-in functions, are in scope. -/
abbrev KnowsTypes (fs : List FunctionDefinition) (s : Scopes) : Prop :=
  KnowsFunctions (fun f => .value f.signature.ty) fs s

theorem KnowsTypes.renames {fs : List FunctionDefinition} {s s' : Scopes} (h : KnowsTypes fs s)
    (h' : KnowsTypes fs s') : Renames .keep Eq [rootFrame fs] s s' :=
  KnowsFunctions.renames h h' (fun _ _ => trivial) (fun _ => rfl) fun _ => rfl

/-! ## One after the other -/

/-- A definition is accepted wherever only functions are in scope, and its check leaves a tree. -/
def FunctionAccepted (fs : List FunctionDefinition) (f t : FunctionDefinition) : Prop :=
  ∀ s, KnowsTypes fs s → (∃ τ, (checkFunction f s).outcome = .ok τ) ∧ (checkFunction f s).tree = t

theorem functionAccepted {fs : List FunctionDefinition} {f : FunctionDefinition} {s : Scopes} {τ : Ty}
    (hs : KnowsTypes fs s) (h : (checkFunction f s).outcome = .ok τ) :
    FunctionAccepted fs f (checkFunction f s).tree := by
  intro s' hs'
  have hrenamed := checkFunction_renamed .keep f 0 [rootFrame fs] (fun _ _ => trivial) (.keep _)
  rw [show f.renamed Renaming.keep.name 0 [rootFrame fs] = f from f.renamed_id 0 _] at hrenamed
  obtain ⟨houtcome, ⟨-, htree⟩, -⟩ := hrenamed s s' (hs.renames hs') τ h
  exact ⟨⟨τ, houtcome⟩, htree.trans (FunctionDefinition.renamed_id ..)⟩

/-- Definitions that are accepted one after the other are accepted, each by itself. -/
theorem checkFunctions_each {fs : List FunctionDefinition} : ∀ (gs : List FunctionDefinition) {s : Scopes},
    KnowsTypes fs s → (checkFunctions gs s).outcome = .ok () →
    List.Forall₂ (FunctionAccepted fs) gs (checkFunctions gs s).tree
  | [], s, _, _ => .nil
  | g :: gs, s, hs, h => by
    rw [checkFunctions] at h ⊢
    obtain ⟨τ, hg, he⟩ := andThen_ok h
    rw [he] at h ⊢
    exact .cons (functionAccepted hs hg) (checkFunctions_each gs (hs.restores (checkFunction_restores hg)) h)

/-- Definitions that are accepted each by itself are accepted one after the other. -/
theorem checkFunctions_all {fs gs ts : List FunctionDefinition} (h : List.Forall₂ (FunctionAccepted fs) gs ts)
    {s : Scopes} (hs : KnowsTypes fs s) :
    (checkFunctions gs s).outcome = .ok () ∧ (checkFunctions gs s).tree = ts := by
  induction h generalizing s with
  | nil => exact ⟨rfl, rfl⟩
  | @cons g t gs ts hg _ ih =>
    obtain ⟨⟨τ, houtcome⟩, htree⟩ := hg s hs
    rw [checkFunctions, andThen_run houtcome]
    obtain ⟨hok, htrees⟩ := ih (hs.restores (checkFunction_restores houtcome))
    exact ⟨hok, congrArg₂ List.cons htree htrees⟩

/-! ## Modules -/

/-- Once the functions are declared and accepted, the top-level statements decide. -/
theorem checkModule_run {m : Module} {s : Scopes}
    (hs : m.functions.foldlM (fun s f => declareFunction f s) ScopeChain.withBuiltins = .ok s)
    (hfunctions : (checkFunctions m.functions s).outcome = .ok ()) :
    checkModule m = (checkExpr none m.body).map
      (fun body => { m with functions := (checkFunctions m.functions s).tree, body })
      (checkFunctions m.functions s).scopes := by
  unfold checkModule
  simp only [hs]
  exact andThen_run hfunctions

theorem checkModule_ok {m : Module} {τ : Ty} (h : (checkModule m).outcome = .ok τ) :
    ∃ s, m.functions.foldlM (fun s f => declareFunction f s) ScopeChain.withBuiltins = .ok s ∧
      (checkFunctions m.functions s).outcome = .ok () := by
  unfold checkModule at h
  cases hs : m.functions.foldlM (fun s f => declareFunction f s) ScopeChain.withBuiltins with
  | error fault =>
    simp only [hs] at h
    cases h
  | ok s =>
    simp only [hs] at h
    obtain ⟨⟨⟩, hfunctions, -⟩ := andThen_ok h
    exact ⟨s, rfl, hfunctions⟩

/-- A module with its functions in another order is accepted like the module, and its tree is that of the module
with the functions in that order. -/
theorem checkModule_of_perm {m : Module} {gs : List FunctionDefinition} {τ : Ty} (hgs : gs.Perm m.functions)
    (h : (checkModule m).outcome = .ok τ) :
    (checkModule { m with functions := gs }).outcome = .ok τ ∧
      ∃ ts, ts.Perm (checkModule m).tree.functions ∧
        (checkModule { m with functions := gs }).tree = { (checkModule m).tree with functions := ts } := by
  obtain ⟨s, hs, hfunctions⟩ := checkModule_ok h
  obtain ⟨root, hstack, hroot, hnodup, hfree⟩ := declareFunctions_ok hs (ScopeChain.stack_root _)
  have hknows : KnowsTypes m.functions s := ⟨root, hstack, hroot⟩
  have hnodup' : (gs.map (·.name.text)).Nodup := (hgs.map _).nodup_iff.2 hnodup
  obtain ⟨s', hs'⟩ := declareFunctions_run (ScopeChain.stack_root _) hnodup' fun f hf => hfree f (hgs.mem_iff.1 hf)
  obtain ⟨root', hstack', hroot', -, -⟩ := declareFunctions_ok hs' (ScopeChain.stack_root _)
  have hknows' : KnowsTypes m.functions s' := KnowsFunctions.of_perm ⟨root', hstack', hroot'⟩ hgs hnodup'
  -- each function is accepted by itself, so they are accepted in the other order
  obtain ⟨ts, hts, hperm⟩ := List.perm_comp_forall₂ hgs (checkFunctions_each m.functions hknows hfunctions)
  obtain ⟨hfunctions', htrees⟩ := checkFunctions_all hts hknows'
  rw [checkModule_run hs hfunctions] at h ⊢
  rw [checkModule_run (m := { m with functions := gs }) hs' hfunctions']
  have hbody := checkExpr_renamed .keep none m.body .main [rootFrame m.functions] (.keep _)
  rw [show m.body.renamed Renaming.keep.name .main [rootFrame m.functions] = m.body from
    Expr.renamed_id ..] at hbody
  have hknows₁ : KnowsTypes m.functions _ := hknows.restores (checkFunctions_restores _ hfunctions)
  have hknows₁' : KnowsTypes m.functions _ := hknows'.restores (checkFunctions_restores _ hfunctions')
  obtain ⟨houtcome, ⟨-, htree⟩, -⟩ := hbody _ _ (hknows₁.renames hknows₁') τ h
  rw [show Renaming.keep.name = id from rfl, Expr.renamed_id] at htree
  refine ⟨houtcome, ts, hperm, ?_⟩
  simp only [Checker.map, htree, htrees]

end Typing

end Exprc

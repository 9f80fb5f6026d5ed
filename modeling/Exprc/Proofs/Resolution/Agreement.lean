/-
Name resolution in the checker and in the lowering. Each of them comes to an expression in a chain of scopes of
its own; but what is in scope at a site is told by the shape of the module alone, so both find a name at the
entry of one declaration.
-/
import Exprc.Proofs.Resolution.Checking
import Exprc.Proofs.Resolution.Faults

namespace Exprc.Syntax

namespace Traversal

variable {β : Type} {t : Traversal β} {m m' : Module}

/-- The shape of a module is the same whatever the types of its expressions. -/
theorem Lawful.of_untyped (h : t.Lawful m) (hm : m.untyped = m'.untyped) : t.Lawful m' where
  toOrderly := h.toOrderly
  root hroot := by
    have hfunctions := congrArg (fun m => m.functions.map (·.name.text)) hm
    simp only [Module.untyped, List.map_map, Function.comp_def, FunctionDefinition.untyped] at hfunctions
    rw [← hfunctions]
    exact h.root hroot
  function {i s e} hvisit := by
    obtain ⟨f, before, hf, he, hroot, hdeclares⟩ := h.function hvisit
    have hsame := Module.functions_of_untyped hm i
    rw [hf] at hsame
    obtain ⟨f', hf', hff'⟩ := Option.map_eq_some_iff.1 hsame.symm
    have hparameters : f'.parameters = f.parameters := congrArg (·.parameters) hff'
    exact ⟨f', before, hf', he.trans (congrArg (·.body) hff').symm, hroot, by rwa [hparameters]⟩
  main hvisit := by
    obtain ⟨he, hroot⟩ := h.main hvisit
    exact ⟨he.trans (congrArg (·.body) hm), hroot⟩

/-! ## What a name is found at -/

/-- A name is found at the entry of a declaration: the entries of the open frames are, one by one, those of the
declarations that are in scope at a site, and among these the name is found at this one, and means what is bound
to it. -/
structure Finds (t : Traversal β) (m : Module) (P : Site) (s : t.State) (x : String) (d : Declaration)
    (b : Binding β) : Prop where
  inScope : ∃ D, m.declarations? P = some D ∧ D.Follows (t.binding? m) (t.scopes s).stack ∧
    D.find? x = some d
  bound : t.binding? m d = some b
  resolves : (t.scopes s).resolve? x = some b

variable {P : Site} {s : t.State} {e : Expr} {x : String} {d : Declaration}

/-- A name that means something is found at the entry of some declaration. -/
theorem Lawful.finds (h : t.Lawful m) (hvisit : t.visit? P = some (s, e)) {b : Binding β}
    (hx : (t.scopes s).resolve? x = some b) : ∃ d, t.Finds m P s x d b := by
  obtain ⟨D, e₀, hD, -, -, hfollows⟩ := h.visits hvisit
  have hfind := hfollows.find? x
  rw [← ScopeChain.resolve?_eq, hx] at hfind
  obtain ⟨d, hd, hb⟩ := Option.map_eq_some_iff.1 hfind.symm
  exact ⟨d, ⟨D, hD, hfollows, hd⟩, hb, hx⟩

/-- Where one traversal finds a name at a declaration, every other finds it there. -/
theorem Finds.of_lawful {γ : Type} {t' : Traversal γ} {s' : t'.State} {e' : Expr} {b : Binding β}
    (hfinds : t.Finds m P s x d b) (h' : t'.Lawful m) (hvisit : t'.visit? P = some (s', e')) :
    ∃ b', t'.Finds m P s' x d b' := by
  obtain ⟨⟨D, hD, -, hd⟩, -, -⟩ := hfinds
  obtain ⟨D', e₀, hD', -, -, hfollows⟩ := h'.visits hvisit
  obtain rfl : D = D' := Option.some.inj (hD.symm.trans hD')
  have hfind := hfollows.find? x
  rw [← ScopeChain.resolve?_eq, hd] at hfind
  obtain ⟨b', hx, hb⟩ := Option.map_eq_some_iff.1 hfind
  exact ⟨b', ⟨D, hD, hfollows, hd⟩, hb.symm, hx⟩

/-! ## Frames -/

/-- Work on an expression leaves the chain in the frame in which it began; all that may change of the frames
that were there is that the innermost one gets more names. A block, and a function, closes the scope that it
opened, which is never the root, and this restores what was there before. -/
structure KeepsFrames (t : Traversal β) : Prop where
  grows : ∀ {P : Site} {s : t.State} {e : Expr} {scopes : ScopeChain (Binding β)},
    t.visit? P = some (s, e) → t.leave s e = some scopes → (t.scopes s).Grows scopes
  block : ∀ {P : Site} {s : t.State} {e : Expr} {scopes : ScopeChain (Binding β)},
    t.visit? P = some (s, e) → t.leave s e = some scopes → e.opensScope = true →
    ∃ inner, t.After s e e.parts.length inner ∧ inner.isAtRoot = false ∧ inner.pop? = some scopes ∧
      (t.scopes s).Restores scopes ∧ ∀ x, scopes.resolve? x = (t.scopes s).resolve? x
  function : ∀ {i : Nat} {s : t.State} {e : Expr} {scopes : ScopeChain (Binding β)},
    t.visit? (.function i) = some (s, e) → t.leave s e = some scopes →
    ∃ popped, scopes.isAtRoot = false ∧ scopes.pop? = some popped ∧ t.AtRoot popped ∧
      popped.isAtRoot = true
  main : ∀ {s : t.State} {e : Expr}, t.visit? .main = some (s, e) →
    t.AtRoot (t.scopes s) ∧ (t.scopes s).isAtRoot = true

theorem Lawful.keepsFrames (h : t.Lawful m) : t.KeepsFrames where
  grows {P s e scopes} _ hleave := h.grows e hleave
  block {P s e scopes} _ hleave hopens := by
    obtain ⟨inner, hinner, hpop, hrestores⟩ := h.block hopens hleave
    exact ⟨inner, hinner, ScopeChain.isAtRoot_of_pop hpop, hpop, hrestores, hrestores.resolve?⟩
  function {i s e scopes} hvisit hleave := by
    obtain ⟨popped, hpop, hroot⟩ := h.function_end hvisit hleave
    exact ⟨popped, ScopeChain.isAtRoot_of_pop hpop, hpop, hroot, hroot.isAtRoot h⟩
  main {s e} hvisit := by
    obtain ⟨-, hroot⟩ := h.main hvisit
    exact ⟨hroot, hroot.isAtRoot h⟩

end Traversal

end Exprc.Syntax

namespace Exprc.Lowering

open Syntax Typing

/-- In an accepted module the checker finds every name that is used, as a variable, as what is called, or as
what an assignment gives a value, at the entry of a declaration, which tells it the type of the use. Wherever
lowering comes to that use it finds the name at the entry of the same declaration, and the code of the use
refers to what is bound to it. Lowering comes to every use unless it fails, and where it comes to something
that cannot be lowered it fails with that. Both keep the frames of their chains. -/
theorem resolution_agrees {m : Syntax.Module} {T : Ty} (h : (checkModule m).outcome = .ok T) :
    (∀ (P : Site) (e : Expr) (x : String), m.expr? P = some e → e.use? = some x →
      ∃ d : Declaration,
        (∃ s e' υ b, (checking m).visit? P = some (s, e') ∧ e'.untyped = e.untyped ∧
          (checkExpr s.1 e' s.2).outcome = .ok υ ∧ (checking m).Finds m P s x d b ∧ TypedBy e' b υ) ∧
        ∀ s e', (lowering (checkModule m).tree).visit? P = some (s, e') → e'.untyped = e.untyped ∧
          ∃ b, (lowering (checkModule m).tree).Finds m P s x d b ∧
            ∀ f L, lowerExpr s.1 e' s.2 = .ok (f, L) → RefersTo e' b.inCode f) ∧
    (∀ M, lower (checkModule m).tree = .ok M → ∀ (P : Site) (e : Expr), m.expr? P = some e →
      ∃ s e' f L, (lowering (checkModule m).tree).visit? P = some (s, e') ∧
        lowerExpr s.1 e' s.2 = .ok (f, L)) ∧
    (∀ (P : Site) s e fault, (lowering (checkModule m).tree).visit? P = some (s, e) →
      lowerExpr s.1 e s.2 = .error fault → lower (checkModule m).tree = .error fault) ∧
    (checking m).KeepsFrames ∧ (lowering (checkModule m).tree).KeepsFrames := by
  have hchecking := checking_lawful m
  have hlowering := (lowering_lawful (checkModule m).tree).of_untyped (checkModule_untyped m)
  refine ⟨fun P e x hP hx => ?_, fun M hM P e hP => ?_, fun P s e fault => lowering_fault,
    hchecking.keepsFrames, hlowering.keepsFrames⟩
  · -- a tree with types uses the names that the tree without them uses
    have huse : ∀ {e' : Expr}, e'.untyped = e.untyped → e'.use? = some x := by
      intro e' hsame
      rw [← Expr.use?_untyped, hsame, Expr.use?_untyped, hx]
    obtain ⟨s, e', scopes, hvisit, hleave⟩ := checking_visits h hP
    obtain ⟨-, e₀, -, he₀, hsame, -⟩ := hchecking.visits hvisit
    obtain rfl : e = e₀ := Option.some.inj (hP.symm.trans he₀)
    obtain ⟨υ, hok, -⟩ := Checked.scopes?_eq_some.1 hleave
    obtain ⟨b, hb, htyped⟩ := checkExpr_use hok (huse hsame)
    obtain ⟨d, hfinds⟩ := hchecking.finds hvisit hb
    refine ⟨d, ⟨s, e', υ, b, hvisit, hsame, hok, hfinds, htyped⟩, fun s' a hvisit' => ?_⟩
    obtain ⟨-, e₁, -, he₁, hsame', -⟩ := hlowering.visits hvisit'
    obtain rfl : e = e₁ := Option.some.inj (hP.symm.trans he₁)
    obtain ⟨b', hfinds'⟩ := hfinds.of_lawful hlowering hvisit'
    exact ⟨hsame', b', hfinds', fun f L hlower => lowerExpr_use hlower (huse hsame') hfinds'.resolves⟩
  · have hsame := Module.expr?_of_untyped (checkModule_untyped m) P
    rw [hP] at hsame
    obtain ⟨e₁, he₁, -⟩ := Option.map_eq_some_iff.1 hsame
    obtain ⟨s, e', scopes, hvisit, hleave⟩ := lowering_visits hM he₁
    obtain ⟨f, L, hlower, -⟩ := lowering_leave_eq_some.1 hleave
    exact ⟨s, e', f, L, hvisit, hlower⟩

/-- A program with a function in whose body the name of its parameter and its own name are declared again:
`fun f(x: Int): Int { var x = x + 1; { var f = x; f } x } f(1)`. -/
def shadowing : Syntax.Module :=
  let n : Note := ⟨⟨1, 1⟩, none⟩
  let int : WrittenType := ⟨⟨1, 10⟩, .int⟩
  ⟨⟨1, 1⟩, [⟨⟨1, 1⟩, ⟨⟨1, 5⟩, "f"⟩, [⟨⟨⟨1, 7⟩, "x"⟩, int⟩], int, .block n
    [.declare n ⟨⟨1, 26⟩, "x"⟩ none (.binary n .add ⟨1, 32⟩ (.name n "x") (.int n 1)),
      .block n [.declare n ⟨⟨1, 43⟩, "f"⟩ none (.name n "x"), .name n "f"],
      .name n "x"]⟩],
    .block n [.call n "f" [.int n 1]]⟩

/-- Both the checker and the lowering come to a site, and find a name there at the entry of a declaration. -/
def BothFind (m : Syntax.Module) (P : Site) (x : String) (d : Declaration) : Prop :=
  (∃ s e b, (checking m).visit? P = some (s, e) ∧ (checking m).Finds m P s x d b) ∧
    ∃ s e b, (lowering (checkModule m).tree).visit? P = some (s, e) ∧
      (lowering (checkModule m).tree).Finds m P s x d b

/-- The function is called by its name, which in the inner block is that of a variable; the initial value of
`x` is that of the parameter, and behind it `x` is the variable. -/
theorem resolution_agrees_shadowing :
    BothFind shadowing (Site.main.part 0) "f" (.function 0) ∧
      BothFind shadowing (((Site.function 0).part 1).part 1) "f"
        (.variable (((Site.function 0).part 1).part 0)) ∧
      BothFind shadowing ((((Site.function 0).part 0).part 0).part 0) "x" (.parameter 0 0) ∧
      BothFind shadowing ((Site.function 0).part 2) "x" (.variable ((Site.function 0).part 0)) := by
  obtain ⟨hagree, hvisits, -⟩ := resolution_agrees (m := shadowing) (T := .int) (by cbv)
  obtain ⟨M, hM⟩ : ∃ M, lower (checkModule shadowing).tree = .ok M := by
    refine ⟨?M, ?lowered⟩
    case lowered => cbv; rfl
  have hfind : ∀ {P : Site} {e : Expr} {x : String} {D : Stack Declaration} {d : Declaration},
      shadowing.expr? P = some e → e.use? = some x → shadowing.declarations? P = some D →
      D.find? x = some d → BothFind shadowing P x d := by
    intro P e x D d he hx hD hd
    obtain ⟨d', ⟨s, e₁, -, b, hvisit, -, -, hfinds, -⟩, hlowered⟩ := hagree P e x he hx
    obtain ⟨s', e₂, -, -, hvisit', -⟩ := hvisits M hM P e he
    obtain ⟨-, b', hfinds', -⟩ := hlowered s' e₂ hvisit'
    obtain rfl : d' = d := by
      obtain ⟨D', hD', -, hd'⟩ := hfinds.inScope
      obtain rfl : D = D' := Option.some.inj (hD.symm.trans hD')
      exact Option.some.inj (hd'.symm.trans hd)
    exact ⟨⟨s, e₁, b, hvisit, hfinds⟩, s', e₂, b', hvisit', hfinds'⟩
  exact ⟨hfind rfl rfl rfl (by cbv), hfind rfl rfl rfl (by cbv), hfind rfl rfl rfl (by cbv),
    hfind rfl rfl rfl (by cbv)⟩

end Exprc.Lowering

/-
Lowering functions in another order. A function can be lowered wherever only functions are in scope, and each time
its code is the same but for numbers. So a module whose functions are in another order can be lowered like the
module, to a program that is the same but for numbers.
-/
import Exprc.Proofs.Order.Checking
import Exprc.Proofs.Renaming.Lowering

namespace Exprc.Lowering

open Syntax IR

/-! ## Names -/

theorem lowerFunction_name {f : FunctionDefinition} {F : Function} {L L' : State}
    (h : lowerFunction f L = .ok (F, L')) : F.name = f.name.text := by
  obtain ⟨L₁, hlower, -⟩ := scoped_ok h
  obtain ⟨vs, L₂, -, hrest⟩ := bind_ok hlower
  obtain ⟨g, L₃, -, hpure⟩ := bind_ok hrest
  obtain ⟨rfl, -⟩ := pure_ok hpure
  rfl

/-- Functions that are the same but for numbers are found alike. -/
theorem find?_alike {Fs Fs' : List Function} (h : List.Forall₂ (fun F F' => ∃ N, Function.Alike N F F') Fs Fs')
    (x : String) :
    Option.Rel (fun F F' => ∃ N, Function.Alike N F F') (Fs.find? (·.name == x)) (Fs'.find? (·.name == x)) := by
  induction h with
  | nil => exact .none
  | @cons F F' Fs Fs' hF _ ih =>
    obtain ⟨N, hF⟩ := hF
    rw [List.find?_cons, List.find?_cons, ← hF.name]
    cases F.name == x with
    | true => exact .some ⟨N, hF⟩
    | false => exact ih

/-! ## One after the other -/

theorem Between.of_perm {fs gs : List FunctionDefinition} {L : State} (h : Between fs L) (hperm : fs.Perm gs)
    (hnodup : (fs.map (·.name.text)).Nodup) : Between gs L :=
  ⟨h.knows.of_perm hperm hnodup, h.given⟩

/-- A definition can be lowered wherever only functions are in scope, to a function that is the same but for
numbers. -/
def LowersAlike (fs : List FunctionDefinition) (f : FunctionDefinition) (F : Function) : Prop :=
  ∀ L, Between fs L → ∃ F' L', lowerFunction f L = .ok (F', L') ∧ Between fs L' ∧ ∃ N, Function.Alike N F F'

section

variable {fs : List FunctionDefinition} {L L' : State}

/-- Numbers do not matter between two functions. -/
theorem Between.alike_keep (h : Between fs L) (h' : Between fs L') :
    StateAlike .keep (.shift L.nextTemp L'.nextTemp L.nextLabel L'.nextLabel) [rootFrame fs] L L' :=
  h.alike (fun _ _ => trivial) h'

theorem lowersAlike {f : FunctionDefinition} {F : Function} (hL : Between fs L)
    (h : lowerFunction f L = .ok (F, L')) : LowersAlike fs f F := by
  intro L₁ hL₁
  have hrenamed := lowerFunction_renamed .keep (.shift L.nextTemp L₁.nextTemp L.nextLabel L₁.nextLabel) f 0
    [rootFrame fs] (fun _ _ => trivial) (.keep _)
  rw [show f.renamed Renaming.keep.name 0 [rootFrame fs] = f from f.renamed_id 0 _] at hrenamed
  obtain ⟨F', L₁', hF', halike, hL'⟩ := hrenamed L L₁ (hL.alike_keep hL₁) F L' h
  exact ⟨F', L₁', hF', ⟨hL₁.knows.restores (lowerFunction_restores hF'), hL'.given'⟩, _, halike⟩

/-- After a function lowering stands between two functions again. -/
theorem Between.lowerFunction {f : FunctionDefinition} {F : Function} (hL : Between fs L)
    (h : lowerFunction f L = .ok (F, L')) : Between fs L' := by
  obtain ⟨F', L₁, hF', hL₁, -⟩ := lowersAlike hL h L hL
  rw [h] at hF'
  cases hF'
  exact hL₁

/-- Definitions that are lowered one after the other can be lowered, each by itself. -/
theorem lowerFunctions_each : ∀ (gs : List FunctionDefinition) {L L' : State} {Fs : List Function},
    Between fs L → gs.mapM lowerFunction L = .ok (Fs, L') →
    List.Forall₂ (LowersAlike fs) gs Fs ∧ Between fs L' ∧ Fs.map (·.name) = gs.map (·.name.text)
  | [], L, L', Fs, hL, h => by
    obtain ⟨rfl, rfl⟩ := pure_ok h
    exact ⟨.nil, hL, rfl⟩
  | g :: gs, L, L', Fs, hL, h => by
    rw [List.mapM_cons] at h
    obtain ⟨G, L₁, hg, hrest⟩ := bind_ok h
    obtain ⟨Gs, L₂, hgs, hpure⟩ := bind_ok hrest
    obtain ⟨rfl, rfl⟩ := pure_ok hpure
    obtain ⟨heach, hL₂, hnames⟩ := lowerFunctions_each gs (hL.lowerFunction hg) hgs
    exact ⟨.cons (lowersAlike hL hg) heach, hL₂, congrArg₂ List.cons (lowerFunction_name hg) hnames⟩

/-- Definitions that can be lowered each by itself can be lowered one after the other. -/
theorem lowerFunctions_all {gs : List FunctionDefinition} {Fs : List Function}
    (h : List.Forall₂ (LowersAlike fs) gs Fs) {L : State} (hL : Between fs L) :
    ∃ Fs' L', gs.mapM lowerFunction L = .ok (Fs', L') ∧ Between fs L' ∧
      List.Forall₂ (fun F F' => ∃ N, Function.Alike N F F') Fs Fs' := by
  induction h generalizing L with
  | nil => exact ⟨[], L, rfl, hL, .nil⟩
  | @cons g F gs Fs hg _ ih =>
    obtain ⟨F', L₁, hF', hL₁, hF⟩ := hg L hL
    obtain ⟨Fs', L₂, hFs', hL₂, hFs⟩ := ih hL₁
    refine ⟨F' :: Fs', L₂, ?_, hL₂, .cons hF hFs⟩
    rw [List.mapM_cons, run_bind_ok hF', run_bind_ok hFs']
    rfl

end

/-! ## Modules -/

/-- A module with its functions in another order can be lowered like the module, to a program that is the same but
for numbers. -/
theorem lower_of_perm {m : Syntax.Module} {gs : List FunctionDefinition} {M : IR.Module}
    (hgs : gs.Perm m.functions) (hnodup : (m.functions.map (·.name.text)).Nodup)
    (hfree : ∀ f ∈ m.functions, Builtin.ofName? f.name.text = none) (h : lower m = .ok M) :
    ∃ M', lower { m with functions := gs } = .ok M' ∧ M.Alike M' := by
  have hnodup' : (gs.map (·.name.text)).Nodup := (hgs.map _).nodup_iff.2 hnodup
  obtain ⟨L, hdeclared, hL⟩ := between_declared hnodup hfree
  obtain ⟨L', hdeclared', hL'⟩ := between_declared hnodup' fun f hf => hfree f (hgs.mem_iff.1 hf)
  have hL' : Between m.functions L' := hL'.of_perm hgs hnodup'
  obtain ⟨L₀, Fs, L₁, F, L₂, hL₀, hFs, hF, rfl⟩ := lower_eq_ok.1 h
  obtain rfl : L = L₀ := congrArg Prod.snd (Except.ok.inj (hdeclared.symm.trans hL₀))
  -- each function can be lowered by itself, so they can be lowered in the other order
  obtain ⟨heach, hL₁, hnames⟩ := lowerFunctions_each m.functions hL hFs
  obtain ⟨Gs, hGs, hperm⟩ := List.perm_comp_forall₂ hgs heach
  obtain ⟨Gs', L₁', hGs', hL₁', hGG⟩ := lowerFunctions_all hGs hL'
  have hmain := lowerEntryPoint_renamed .keep (.shift L₁.nextTemp L₁'.nextTemp L₁.nextLabel L₁'.nextLabel) m.body
    .main [rootFrame m.functions] (.keep _)
  rw [show m.body.renamed Renaming.keep.name .main [rootFrame m.functions] = m.body from
    Expr.renamed_id ..] at hmain
  obtain ⟨F', L₂', hF', hFF, -⟩ := hmain L₁ L₁' (hL₁.alike_keep hL₁') F L₂ hF
  refine ⟨_, lower_eq_ok.2 ⟨L', Gs', L₁', F', L₂', hdeclared', hGs', hF', rfl⟩, ?_⟩
  have hfind : ∀ x, Option.Rel (fun F F' => ∃ N, Function.Alike N F F')
      ((Fs ++ [F]).find? (·.name == x)) ((Gs' ++ [F']).find? (·.name == x)) := by
    intro x
    have hfound : Fs.find? (·.name == x) = Gs.find? (·.name == x) :=
      find?_of_perm hperm.symm (by rwa [hnames]) x
    rw [List.find?_append, hfound, ← List.find?_append]
    exact find?_alike (List.rel_append hGG (.cons ⟨_, hFF⟩ .nil)) x
  exact ⟨hfind, hfind entryPoint⟩

end Exprc.Lowering

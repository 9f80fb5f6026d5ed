/-
Names of local variables are irrelevant. A module that can be compiled stays the same to the compiler when its
parameters and variables get other names, as long as different names stay different and none of them gets the
name of a function. It makes no difference that a variable may hide another one, a function that is called
elsewhere, or the function that prints the result.
-/
import Exprc.Assembly.Codegen
import Exprc.Proofs.Renaming.Lowering

namespace Exprc

namespace Syntax

/-- Types do not change the names of local variables. -/
theorem Module.localNames_untyped (m : Module) : m.untyped.localNames = m.localNames := by
  have hbinders : m.untyped.subexpressions.filterMap (·.binder?) = m.subexpressions.filterMap (·.binder?) := by
    rw [m.subexpressions_untyped, List.filterMap_map]
    exact congrArg (fun g => List.filterMap g m.subexpressions) (funext Expr.binder?_untyped)
  rw [localNames, hbinders]
  simp [Module.untyped, FunctionDefinition.untyped, List.flatMap_map, localNames]

/-- Where there is an expression the shape of the module tells what is in scope. -/
theorem Module.isSome_declarations? (m : Module) {P : Site} {e : Expr} (h : m.expr? P = some e) :
    ∃ D, m.declarations? P = some D := by
  induction P generalizing e with
  | function i =>
    obtain ⟨f, hf, -⟩ := Option.map_eq_some_iff.1 h
    exact ⟨_, by rw [declarations?, hf, Option.map_some]⟩
  | main => exact ⟨_, rfl⟩
  | part whole i ih =>
    obtain ⟨a, ha, -⟩ := Option.bind_eq_some_iff.1 h
    obtain ⟨D, hD⟩ := ih ha
    exact ⟨_, by rw [declarations?, hD, ha, Option.bind_some, Option.map_some]⟩

/-- Every expression of a renamed module has the note that it had. -/
theorem Module.note_renamed (ρ : String → String) (m : Module) (P : Site) :
    ((m.renamed ρ).expr? P).map (·.note) = (m.expr? P).map (·.note) := by
  rw [m.expr?_renamed]
  cases he : m.expr? P with
  | none => rfl
  | some e =>
    obtain ⟨D, hD⟩ := m.isSome_declarations? he
    rw [hD, Option.bind_some, Option.map_some, Option.map_some, Option.map_some, Expr.note_renamed]

end Syntax

open Syntax Typing Lowering

/-- A renaming knows as much of a module whatever types its expressions have. -/
theorem Typing.Fits.of_untyped {ρ : Renaming} {m m' : Module} (hρ : Fits ρ m) (h : m'.untyped = m.untyped) :
    Fits ρ m' where
  locals x hx := by
    rw [← m'.localNames_untyped, h, m.localNames_untyped] at hx
    exact hρ.locals x hx
  globals x hx := by
    rw [rootFrame_of_untyped (congrArg Module.functions h)] at hx
    exact hρ.globals x hx

/-- A program in which a variable has the name of the function around it, and another one that of the function
that prints the result: `fun f(x: Int): Int { var f = x + 1; f } var print_int = f(2); print_int`. -/
def namesakes : Module :=
  let n : Note := ⟨⟨1, 1⟩, none⟩
  let int : WrittenType := ⟨⟨1, 10⟩, .int⟩
  ⟨⟨1, 1⟩, [⟨⟨1, 1⟩, ⟨⟨1, 5⟩, "f"⟩, [⟨⟨⟨1, 7⟩, "x"⟩, int⟩], int, .block n
    [.declare n ⟨⟨1, 26⟩, "f"⟩ none (.binary n .add ⟨1, 32⟩ (.name n "x") (.int n 1)), .name n "f"]⟩],
    .block n [.declare n ⟨⟨1, 45⟩, "print_int"⟩ none (.call n "f" [.int n 2]), .name n "print_int"]⟩

end Exprc

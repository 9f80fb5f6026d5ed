/-
Lowered modules are legible. In a source text the names of functions are words, so what a lowered module calls has
the name of a word or that of a built-in function, and all other variables are not named.
-/
import Exprc.Proofs.Assembly.Translation
import Exprc.Proofs.IR.Legible
import Exprc.Proofs.Syntax.Written

namespace Exprc.Lowering

open Syntax IR Text

theorem isField_of_isIdentifier {x : String} (h : IsIdentifier x) : IsField x :=
  fun c hc => isFieldChar_of_isWordPart (List.all_eq_true.1 h.1 c hc)

/-- The functions of a lowered module have names that can be written. -/
theorem lowered_names {source : Source} {M : IR.Module} {reports : List Compiler.Report}
    (h : (Compiler.lower source).run [] = (.ok M, reports)) : ∀ f ∈ M.functions, IsField f.name := by
  intro f hf
  obtain ⟨m, hm, hheaders⟩ := lowered_headers h
  have hnames := congrArg (List.map Prod.fst) hheaders
  simp only [List.map_map, List.map_append] at hnames
  have hmem : f.name ∈ m.functions.map (·.name.text) ++ [entryPoint] := by
    have hname : f.name ∈ M.functions.map (·.name) := List.mem_map_of_mem hf
    exact hnames ▸ hname
  rcases List.mem_append.1 hmem with hmem | hmem
  · obtain ⟨g, hg, hname⟩ := List.mem_map.1 hmem
    rw [← hname]
    exact isField_of_isIdentifier ((Parser.readSource_asWritten hm).functions g hg).name.isIdentifier
  · rw [List.mem_singleton.1 hmem]
    exact .of_all (by decide)

/-- A lowered module is legible. -/
theorem legible_of_lower {source : Source} {M : IR.Module} {reports : List Compiler.Report}
    (h : (Compiler.lower source).run [] = (.ok M, reports)) : M.Legible := by
  obtain ⟨m, τ, -, hτ, hM, -⟩ := Compiler.lower_ok h
  have hwf := (lower_checked hτ hM).wellFormed
  have hunnamed : ∀ {v : Var}, v.isTemp = true → v.isNamed = false := by
    intro v hv
    cases v with
    | temp n => rfl
    | named x => cases hv
    | unit => rfl
  intro f hf
  refine ⟨lowered_names h f hf, fun v hv => hunnamed (hwf.parameters f hf v hv), fun i hi => ⟨?_, ?_⟩⟩
  · intro v hv
    rcases List.mem_append.1 hv with hv | hv
    · exact (hwf.reads f hf i hi v hv).2
    · exact hunnamed (hwf.writes f hf i hi v hv)
  · intro callee arguments target hop
    obtain ⟨x, rfl, -, harity⟩ := hwf.calls f hf i hi callee arguments target hop
    refine ⟨x, rfl, ?_⟩
    unfold Module.arity? Module.function? Builtin.ofName? at harity
    split at harity
    · rename_i g hg
      have hname := List.find?_some hg
      obtain rfl : g.name = x := eq_of_beq hname
      exact lowered_names h g (List.mem_of_find?_eq_some hg)
    · obtain ⟨b, hb, -⟩ := Option.map_eq_some_iff.1 harity
      have hname := List.find?_some hb
      obtain rfl : b.name = x := eq_of_beq hname
      exact isField_builtin b

end Exprc.Lowering

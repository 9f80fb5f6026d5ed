/-
Accepted programs have assembly. Lowering gives closed modules in which no function has the name of a
built-in function, with one function for each definition and one for the top-level statements. So whether
there is assembly depends on the number of parameters in each definition alone, whether it is called or not.
-/
import Exprc.Proofs.Assembly.Assembled
import Exprc.Proofs.Compiler
import Exprc.Proofs.Lowering.Closed

namespace Exprc

namespace Lowering

open Syntax IR Typing

/-! ## Headers of functions -/

theorem LowersFunction.parameters_length {sig : String → Option Signature} {s s' : Stage}
    {f : FunctionDefinition} {F : Function} (h : LowersFunction sig s f F s') :
    F.parameters.length = f.parameters.length := by
  obtain ⟨_, _, _, _, hparameters, -⟩ := h.body
  rw [hparameters, List.length_map, List.length_range']

theorem LowersFunctions.headers {sig : String → Option Signature} :
    ∀ {s s' : Stage} {fs : List FunctionDefinition} {Fs : List Function},
      LowersFunctions sig s fs Fs s' →
      Fs.map (fun F => (F.name, F.parameters.length)) =
        fs.map fun f => (f.name.text, f.parameters.length)
  | _, _, _, _, .nil => rfl
  | _, _, _, _, .cons hF hFs => by
    rw [List.map_cons, List.map_cons, hF.name, hF.parameters_length, hFs.headers]

theorem LowersEntry.parameters {sig : String → Option Signature} {s s' : Stage} {e : Expr} {τ : Ty}
    {F : Function} (h : LowersEntry sig s e τ F s') : F.parameters = [] := by
  cases h <;> rfl

/-- A lowered module has a function for each definition, and then one for the top-level statements. -/
theorem LowersModule.headers {m : Syntax.Module} {τ : Ty} {M : IR.Module} (h : LowersModule m τ M) :
    M.functions.map (fun F => (F.name, F.parameters.length)) =
      m.functions.map (fun f => (f.name.text, f.parameters.length)) ++ [(entryPoint, 0)] := by
  obtain ⟨Fs, F, s, s', hM, hFs, hF⟩ := h.lowers
  rw [hM, List.map_append, hFs.headers]
  simp [hF.name, hF.parameters]

/-- What a source text that lowers was lowered to. -/
theorem lowered_headers {source : Source} {M : IR.Module} {reports : List Compiler.Report}
    (h : (Compiler.lower source).run [] = (.ok M, reports)) :
    ∃ m, Parser.module.readSource source = .ok m ∧
      M.functions.map (fun F => (F.name, F.parameters.length)) =
        m.functions.map (fun f => (f.name.text, f.parameters.length)) ++ [(entryPoint, 0)] := by
  obtain ⟨m, τ, hm, hτ, hM, -⟩ := Compiler.lower_ok h
  refine ⟨m, hm, ?_⟩
  rw [(lower_checked hτ hM).headers]
  have hheaders := congrArg (List.map fun h => (h.1, h.2.parameters.length)) (checkModule_header m)
  rw [List.map_map, List.map_map] at hheaders
  simpa [Function.comp_def, header, FunctionDefinition.signature] using hheaders

end Lowering

namespace Compiler

/-! ## The last stage -/

/-- What comes of code generation for a source text that lowers. -/
theorem generate_run {source : Source} {M : IR.Module} {reports : List Report}
    (h : (lower source).run [] = (.ok M, reports)) (o : Assembly.Options) :
    (generate o source).run [] =
      match Assembly.generate o M with
      | .ok lines => (.ok (Assembly.render lines),
          reports ++ [.generated (linesOf (Assembly.render lines).toList).length])
      | .error fault => (.error fault.diagnostic, reports) := by
  unfold generate
  rw [run_bind h]
  cases Assembly.generate o M <;> rfl

/-- A source text that has assembly. -/
theorem generate_ok {source : Source} {o : Assembly.Options} {text : String} {reports : List Report}
    (h : (generate o source).run [] = (.ok text, reports)) :
    ∃ M reports' lines, (lower source).run [] = (.ok M, reports') ∧ Assembly.generate o M = .ok lines ∧
      text = Assembly.render lines := by
  obtain ⟨M, reports', hM, -⟩ := bind_ok h
  rw [generate_run hM] at h
  split at h
  · rename_i lines hlines
    cases h
    exact ⟨M, reports', lines, hM, hlines, rfl⟩
  · cases h

end Compiler

namespace Assembly

open Syntax

/-! ## Sources -/

/-- A source text that lowers is lowered to an unambiguous module. -/
theorem Unambiguous.of_lower {source : Source} {M : IR.Module} {reports : List Compiler.Report}
    (h : (Compiler.lower source).run [] = (.ok M, reports)) : Unambiguous M := by
  obtain ⟨m, τ, -, hτ, hM, -⟩ := Compiler.lower_ok h
  have hlowers := Lowering.lower_checked hτ hM
  exact ⟨hlowers.wellFormed, hlowers.function?_builtin⟩

/-- A declared function has more parameters than there are registers for. -/
theorem Crowded.definition {M : IR.Module} {m : Syntax.Module}
    (hheaders : M.functions.map (fun F => (F.name, F.parameters.length)) =
      m.functions.map (fun f => (f.name.text, f.parameters.length)) ++ [(entryPoint, 0)])
    {fault : Fault CodegenError} (h : Crowded M fault) :
    ∃ f ∈ m.functions, 6 < f.parameters.length ∧
      (fault = .unlocated (.tooManyParameters f.name.text f.parameters.length) ∨
        ∃ l, fault = .at l (.tooManyArguments f.name.text f.parameters.length)) := by
  -- the function of the top-level statements has no parameters
  have hfrom : ∀ F ∈ M.functions, 6 < F.parameters.length →
      ∃ f ∈ m.functions, f.name.text = F.name ∧ f.parameters.length = F.parameters.length := by
    intro F hF hn
    have hmem : (F.name, F.parameters.length) ∈
        m.functions.map (fun f => (f.name.text, f.parameters.length)) ++ [(entryPoint, 0)] :=
      hheaders ▸ List.mem_map.2 ⟨F, hF, rfl⟩
    rcases List.mem_append.1 hmem with hmem | hmem
    · obtain ⟨f, hf, he⟩ := List.mem_map.1 hmem
      exact ⟨f, hf, congrArg Prod.fst he, congrArg Prod.snd he⟩
    · have hzero : F.parameters.length = 0 := congrArg Prod.snd (List.mem_singleton.1 hmem)
      omega
  cases h with
  | parameters hF hn =>
    obtain ⟨f, hf, hname, hlength⟩ := hfrom _ hF hn
    exact ⟨f, hf, hlength ▸ hn, .inl (by rw [hname, hlength])⟩
  | arguments hF hn =>
    obtain ⟨f, hf, hname, hlength⟩ := hfrom _ hF hn
    exact ⟨f, hf, hlength ▸ hn, .inr ⟨_, by rw [hname, hlength]⟩⟩

/-- Every accepted program can be translated if its functions have few enough parameters. For every source
text that the compiler lowers there is assembly if and only if no definition has more than six parameters;
else code generation fails because of such a definition, at it or at a call of it, and never for want of a
slot, a function name or a pattern. -/
theorem generate_succeeds_iff {source : Source} {M : IR.Module} {reports : List Compiler.Report}
    (h : (Compiler.lower source).run [] = (.ok M, reports)) (o : Options) :
    ∃ m, Parser.module.readSource source = .ok m ∧
      ((∃ text reports', (Compiler.generate o source).run [] = (.ok text, reports')) ↔
        ∀ f ∈ m.functions, f.parameters.length ≤ 6) ∧
      ∀ diagnostic reports', (Compiler.generate o source).run [] = (.error diagnostic, reports') →
        diagnostic.kind = .codegen ∧ reports' = reports ∧
          ∃ fault, generate o M = .error fault ∧ diagnostic = fault.diagnostic ∧
            ∃ f ∈ m.functions, 6 < f.parameters.length ∧
              (fault = .unlocated (.tooManyParameters f.name.text f.parameters.length) ∨
                ∃ l, fault = .at l (.tooManyArguments f.name.text f.parameters.length)) := by
  obtain ⟨m, hm, hheaders⟩ := Lowering.lowered_headers h
  refine ⟨m, hm, ?_⟩
  rw [Compiler.generate_run h]
  rcases generate_emits o (.of_lower h) with ⟨lines, hg, -⟩ | ⟨fault, hg, hcrowded⟩
  · rw [hg]
    refine ⟨⟨fun _ f hf => ?_, fun _ => ⟨_, _, rfl⟩⟩, nofun⟩
    have hmem : (f.name.text, f.parameters.length) ∈
        M.functions.map fun F => (F.name, F.parameters.length) := by
      rw [hheaders]
      exact List.mem_append_left _ (List.mem_map.2 ⟨f, hf, rfl⟩)
    obtain ⟨F, hF, he⟩ := List.mem_map.1 hmem
    exact le_of_eq_of_le (congrArg Prod.snd he).symm (parameters_of_generate hg F hF)
  · rw [hg]
    obtain ⟨f, hf, hn, hfault⟩ := hcrowded.definition hheaders
    refine ⟨⟨nofun, fun hle => absurd (hle f hf) (Nat.not_le.2 hn)⟩, ?_⟩
    rintro _ _ ⟨⟩
    exact ⟨rfl, rfl, fault, rfl, rfl, f, hf, hn, hfault⟩

/-- The module for `fun f(a: Int, b: Int, c: Int, d: Int, e: Int, g: Int, h: Int): Int { a } 1`. -/
def uncalled : IR.Module :=
  ⟨[⟨"f", [.temp 1, .temp 2, .temp 3, .temp 4, .temp 5, .temp 6, .temp 7], [⟨⟨1, 68⟩, .leave (.temp 1)⟩],
      .temp 1⟩,
    ⟨"main", [], [⟨⟨1, 74⟩, .loadInt 1 (.temp 8)⟩, ⟨⟨1, 1⟩, .call (.named "print_int") [.temp 8] (.temp 9)⟩],
      .temp 8⟩]⟩

/-- A function of seven parameters has no assembly, although nothing calls it. -/
theorem generate_succeeds_iff_uncalled :
    (Compiler.lower ⟨"fun f(a: Int, b: Int, c: Int, d: Int, e: Int, g: Int, h: Int): Int { a } 1",
        .memory⟩).run [] = (.ok uncalled, [.parsed 1, .checked .int, .lowered 3]) ∧
      ∃ d reports, (Compiler.generate {}
        ⟨"fun f(a: Int, b: Int, c: Int, d: Int, e: Int, g: Int, h: Int): Int { a } 1", .memory⟩).run [] =
          (.error d, reports) ∧ d.kind = .codegen := by
  have h : (Compiler.lower
      ⟨"fun f(a: Int, b: Int, c: Int, d: Int, e: Int, g: Int, h: Int): Int { a } 1", .memory⟩).run [] =
        (.ok uncalled, [.parsed 1, .checked .int, .lowered 3]) := by
    cbv
  obtain ⟨m, -, -, hfails⟩ := generate_succeeds_iff h {}
  have hrun := Compiler.generate_run h {}
  have hg : generate {} uncalled = .error (.unlocated (.tooManyParameters "f" 7)) := rfl
  rw [hg] at hrun
  exact ⟨h, _, _, hrun, (hfails _ _ hrun).1⟩

end Assembly

end Exprc

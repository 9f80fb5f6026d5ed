/-
The symbols of an assembly text that other texts can see. The text of a program defines the place where it
starts and one symbol for each function, and lets others see all of them. Functions have different names, and
none has that of a routine; but a function may have the name of the place where programs start, and then the
text defines that name twice.
-/
import Exprc.Proofs.Assembly.Translation

namespace Exprc

namespace Assembly

open IR

/-! ## Symbols of a text -/

/-- The name of a symbol that does not belong to another symbol. -/
def Symbol.global? : Symbol → Option String
  | plain name | function name => some name
  | inner _ => none

/-- The name that a line defines for the whole text. -/
def Line.definition? : Line → Option String
  | label s | textData s _ | lengthOf s _ => s.global?
  | _ => none

/-- The name that a line makes known to other texts. -/
def Line.export? : Line → Option String
  | exported s => s.global?
  | _ => none

/-- The names that a text defines, one for each definition. -/
def definitionsOf (lines : List Line) : List String := lines.filterMap Line.definition?

/-- The names that a text makes known to other texts. -/
def exportsOf (lines : List Line) : List String := lines.filterMap Line.export?

section

variable {m : IR.Module} {o : Options} {text : List Line}

theorem Line.Inside.definition? {f : IR.Function} {x : Line} (h : x.Inside m f) : x.definition? = none := by
  cases x with
  | label s =>
    obtain ⟨name, rfl⟩ := h
    rfl
  | textData | lengthOf => exact h.elim
  | _ => rfl

theorem Line.Inside.export? {f : IR.Function} {x : Line} (h : x.Inside m f) : x.export? = none := by
  cases x with
  | exported => exact h.elim
  | _ => rfl

/-- The assembly of a module defines where programs start, and its functions. -/
theorem definitionsOf_generate (h : Unambiguous m) (hg : generate o m = .ok text) :
    definitionsOf text = "_start" :: m.functions.map (·.name) := by
  obtain ⟨blocks, hblocks, rfl⟩ := blocks_of_generate h hg
  rw [definitionsOf, List.filterMap_append, blocks_filterMap (fun f x => Line.Inside.definition?) hblocks,
    List.map_eq_flatMap]
  rfl

/-- What it defines is known to other texts. -/
theorem exportsOf_generate (h : Unambiguous m) (hg : generate o m = .ok text) :
    exportsOf text = "_start" :: m.functions.map (·.name) := by
  obtain ⟨blocks, hblocks, rfl⟩ := blocks_of_generate h hg
  rw [exportsOf, List.filterMap_append, blocks_filterMap (fun f x => Line.Inside.export?) hblocks,
    List.map_eq_flatMap]
  rfl

/-- Nothing that it defines comes from another text. -/
theorem definitionsOf_disjoint (h : Unambiguous m) (hg : generate o m = .ok text) :
    ∀ x ∈ definitionsOf text, x ∉ importsOf text := by
  rw [definitionsOf_generate h hg, importsOf_generate h hg, List.forall_mem_cons]
  refine ⟨by decide, fun x hx hroutine => ?_⟩
  obtain ⟨b, rfl⟩ := routine_name hroutine
  obtain ⟨f, hf, hname⟩ := List.mem_map.1 hx
  exact List.find?_eq_none.1 (h.builtins b) f hf (beq_iff_eq.2 hname)

end

/-! ## Sources -/

/-- The symbols of compiled programs. For every source text that has assembly the text defines the place where
programs start, each declared function and that of the top-level statements, makes all of them known to other
texts and takes none of them from another text; and it defines none of them twice if and only if no function
has the name of the place where programs start. -/
theorem generate_definitions {source : Source} {o : Options} {text : String}
    {reports : List Compiler.Report} (h : (Compiler.generate o source).run [] = (.ok text, reports)) :
    ∃ m lines, Syntax.Parser.module.readSource source = .ok m ∧ text = render lines ∧
      definitionsOf lines = "_start" :: (m.functions.map (·.name.text) ++ ["main"]) ∧
      exportsOf lines = definitionsOf lines ∧
      (∀ x ∈ definitionsOf lines, x ∉ importsOf lines) ∧
      ((definitionsOf lines).Nodup ↔ ∀ f ∈ m.functions, f.name.text ≠ "_start") := by
  obtain ⟨M, reports', lines, hlower, hg, rfl⟩ := Compiler.generate_ok h
  obtain ⟨m, hm, hheaders⟩ := Lowering.lowered_headers hlower
  have hunambiguous := Unambiguous.of_lower hlower
  have hnames : M.functions.map (·.name) = m.functions.map (·.name.text) ++ ["main"] := by
    have hfirst := congrArg (List.map Prod.fst) hheaders
    simpa [Function.comp_def, entryPoint] using hfirst
  have hdefinitions := definitionsOf_generate hunambiguous hg
  refine ⟨m, lines, hm, rfl, hnames ▸ hdefinitions, ?_, definitionsOf_disjoint hunambiguous hg, ?_⟩
  · rw [hdefinitions, exportsOf_generate hunambiguous hg]
  · have hdistinct : (M.functions.map (·.name)).Nodup := hunambiguous.wellFormed.nodup
    rw [hdefinitions, List.nodup_cons, and_iff_left hdistinct, hnames]
    simp

/-- The module for a function `name` and a call of it, as in `fun name(): Int { 1 } name()`. -/
def constant (name : String) : IR.Module :=
  ⟨[⟨name, [], [⟨⟨1, name.length + 15⟩, .loadInt 1 (.temp 1)⟩, ⟨⟨1, name.length + 13⟩, .leave (.temp 1)⟩],
      .temp 1⟩,
    ⟨"main", [], [⟨⟨1, name.length + 19⟩, .call (.named name) [] (.temp 2)⟩,
      ⟨⟨1, 1⟩, .call (.named "print_int") [.temp 2] (.temp 3)⟩], .temp 2⟩]⟩

/-- The program of a function `f` defines three names, each once. -/
theorem generate_definitions_constant :
    ∃ lines reports, (Compiler.generate {} ⟨"fun f(): Int { 1 } f()", .memory⟩).run [] =
        (.ok (render lines), reports) ∧
      definitionsOf lines = ["_start", "f", "main"] ∧ (definitionsOf lines).Nodup := by
  have h : (Compiler.lower ⟨"fun f(): Int { 1 } f()", .memory⟩).run [] =
      (.ok (constant "f"), [.parsed 1, .checked .int, .lowered 4]) := by
    cbv
  obtain ⟨text, hg, -⟩ := (generate_emits {} (.of_lower h)).ok (by decide)
  have hrun := Compiler.generate_run h {}
  rw [hg] at hrun
  obtain ⟨m, lines, hm, htext, hdefinitions, -, -, hnodup⟩ := generate_definitions hrun
  dsimp only at hrun
  rw [htext] at hrun
  have hnames : (Syntax.Parser.module.readSource ⟨"fun f(): Int { 1 } f()", .memory⟩).map
      (·.functions.map (·.name.text)) = .ok ["f"] := by
    cbv
  rw [hm] at hnames
  have hf : m.functions.map (·.name.text) = ["f"] := Except.ok.inj hnames
  rw [hf] at hdefinitions
  refine ⟨lines, _, hrun, hdefinitions, hnodup.2 fun f hmem hname => ?_⟩
  have hstart : "_start" ∈ m.functions.map (·.name.text) := hname ▸ List.mem_map_of_mem hmem
  rw [hf] at hstart
  exact absurd hstart (by decide)

/-- A function may have the name of the place where programs start. The program then defines it twice. -/
theorem start_defined_twice :
    ∃ lines reports, (Compiler.generate {} ⟨"fun _start(): Int { 1 } _start()", .memory⟩).run [] =
        (.ok (render lines), reports) ∧
      definitionsOf lines = ["_start", "_start", "main"] := by
  have h : (Compiler.lower ⟨"fun _start(): Int { 1 } _start()", .memory⟩).run [] =
      (.ok (constant "_start"), [.parsed 1, .checked .int, .lowered 4]) := by
    cbv
  obtain ⟨lines, hg, -⟩ := (generate_emits {} (.of_lower h)).ok (by decide)
  have hrun := Compiler.generate_run h {}
  rw [hg] at hrun
  exact ⟨lines, _, hrun, definitionsOf_generate (.of_lower h) hg⟩

end Assembly

end Exprc

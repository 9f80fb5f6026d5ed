/-
Compiled functions keep to themselves. A text is read as its symbols that other texts can see, each with the
lines up to the next one. The lines of a function jump only to labels among them, touch memory only in slots
of the frame that the first lines make, and return in one place, behind the lines that drop the frame.
-/
import Exprc.Proofs.Assembly.Restoring
import Exprc.Proofs.Assembly.Slots
import Exprc.Proofs.Assembly.Translation

namespace Exprc

namespace Assembly

open IR

/-! ## Sections -/

/-- The symbol that a line defines, if it is one to which the lines below it belong. -/
def Line.heading? : Line → Option Symbol
  | label (.inner _) => none
  | label s => some s
  | _ => none

/-- The sections of a text: each symbol that does not belong to another one, with the lines up to the next
such symbol. -/
def sectionsOf : List Line → List (Symbol × List Line)
  | [] => []
  | x :: lines =>
    match x.heading? with
    | some s => (s, lines.takeWhile (·.heading?.isNone)) :: sectionsOf lines
    | none => sectionsOf lines

/-- Whether some lines can stand between functions. -/
def Separating (lines : List Line) : Prop := ∀ x ∈ lines, x = .blank ∨ ∃ s, x = .exported s

section

variable {lines rest : List Line}

theorem sectionsOf_append (h : ∀ x ∈ lines, x.heading? = none) : sectionsOf (lines ++ rest) = sectionsOf rest := by
  induction lines with
  | nil => rfl
  | cons x lines ih =>
    rw [List.forall_mem_cons] at h
    rw [List.cons_append, sectionsOf, h.1]
    exact ih h.2

/-- A section ends before the next symbol. -/
theorem sectionsOf_function (name : String) (h : ∀ x ∈ lines, x.heading? = none) :
    sectionsOf (.label (.function name) :: (lines ++ rest)) =
      (.function name, lines ++ rest.takeWhile (·.heading?.isNone)) :: sectionsOf rest := by
  have hnone : ∀ x ∈ lines, x.heading?.isNone = true := fun x hx => Option.isNone_iff_eq_none.2 (h x hx)
  have hsections : sectionsOf (.label (.function name) :: (lines ++ rest)) =
      (.function name, (lines ++ rest).takeWhile (·.heading?.isNone)) :: sectionsOf (lines ++ rest) := rfl
  rw [hsections, List.takeWhile_append_of_pos hnone, sectionsOf_append h]

theorem Line.Inside.heading? {m : IR.Module} {f : IR.Function} {x : Line} (h : x.Inside m f) :
    x.heading? = none := by
  cases x with
  | label s =>
    obtain ⟨name, rfl⟩ := h
    rfl
  | _ => rfl

end

/-! ## Confined functions -/

/-- The lines that drop a frame and return, behind the label for them. -/
def leave : List Line := .label (.inner "exit") :: (dropFrame ++ [Instr.plain .ret]).map .ofInstr

/-- Whether a function with some code gives back to its caller what the caller relies on. On whatever way there is
through the code without a call, from where the frame is made to where it is dropped, `rbp` and `rsp` are in the
end what they were, and so is the memory from where `rsp` points on. -/
def Restoring (size : Nat) (code : List Line) : Prop :=
  ∀ names (c c' : Cpu) is, (∀ j ∈ is, ∃ x ∈ code, x.instr? = some j) → size + 8 ≤ (c.reg .rsp).toNat →
    c.execAll names (makeFrame size ++ is ++ dropFrame) = some c' →
    c'.reg .rbp = c.reg .rbp ∧ c'.reg .rsp = c.reg .rsp ∧
      ∀ a, (c.reg .rsp).toNat ≤ a → c'.memory a = c.memory a

/-- Whether the lines of a section are those of a function that keeps to itself. They make a frame, drop it in
one place behind the label for it, and return there and nowhere else, and the caller finds what it relies on as
it was. The frame keeps the stack pointer aligned. What is jumped to is a label among the lines that there is
once; what is touched in memory is the slot of a variable of the function, inside the frame; and different
variables have different slots. -/
structure Confined (l : StackLayout) (f : IR.Function) (lines : List Line) : Prop where
  shape : ∃ code after, lines = (makeFrame l.frameSize).map .ofInstr ++ code ++ leave ++ after ∧
    (∀ x ∈ code, x.instr? ≠ some (.plain .ret)) ∧ Restoring l.frameSize code ∧ Separating after
  exit : lines.count (.label (.inner "exit")) = 1
  aligned : 16 ∣ l.frameSize
  jumps : ∀ x ∈ lines, ∀ j ∈ x.instr?, ∀ s ∈ j.jump?,
    ∃ name, s = .inner name ∧ lines.count (.label s) = 1
  memory : ∀ x ∈ lines, ∀ j ∈ x.instr?, ∀ o ∈ j.operands, o.isMemory = true →
    ∃ v ∈ f.vars, ∃ below, l.offset? v = some below ∧ o = .mem (some .qword) .rbp below ∧
      8 ∣ below ∧ 8 ≤ below ∧ below ≤ l.frameSize
  slots : ∀ v ∈ f.vars, ∀ w ∈ f.vars, ∀ below, l.offset? v = some below → l.offset? w = some below → v = w

section

variable {m : IR.Module} {f : IR.Function} {o : Options} {lines after : List Line}

/-- No two symbols inside of a function have one name. -/
theorem symbolsOf_nodup (h : m.WellFormed) (hf : f ∈ m.functions) : (symbolsOf f).Nodup :=
  (List.nodup_cons.1 (placesIn_nodup h hf)).2.of_map _

/-- A label that stands in a function stands there once. -/
theorem Inner.count_label {symbols : List Symbol} (h : Inner m f lines symbols) (hnodup : symbols.Nodup) {s : Symbol}
    (hs : s ∈ symbols) : lines.count (.label s) = 1 := by
  rw [← List.count_eq_one_of_mem hnodup hs, ← h.labels, List.count_filterMap, List.count]
  refine List.countP_congr fun x _ => ?_
  cases x <;> simp [Line.label?]

/-- What is jumped to is a label of the function, or the one at its end. -/
theorem Refers.mem_symbolsOf {name : String} (h : Refers m f (.inner name)) : .inner name ∈ symbolsOf f := by
  generalize hs : Symbol.inner name = s at h
  cases h with
  | @label l hl =>
    obtain ⟨i, hi, hop⟩ := hl
    exact List.mem_append_left _ (List.mem_map_of_mem (List.mem_filterMap.2 ⟨i, hi, Op.label?_eq_some.2 hop⟩))
  | exit => exact List.mem_append_right _ (List.mem_singleton.2 rfl)
  | function | routine => cases hs

namespace Separating

/-- There is no instruction between functions. -/
theorem instr? (h : Separating after) : ∀ x ∈ after, x.instr? = none := by
  intro x hx
  rcases h x hx with rfl | ⟨s, rfl⟩ <;> rfl

theorem count_label (h : Separating after) (s : Symbol) : after.count (.label s) = 0 := by
  refine List.count_eq_zero.2 fun hs => ?_
  rcases h _ hs with he | ⟨s', he⟩ <;> cases he

end Separating

/-- The instructions in the lines of a function touch slots of its variables, and jump to labels. -/
theorem Framed.contained {l : StackLayout} {used : Var → Prop} (h : Framed l used f lines) :
    ∀ x ∈ lines, ∀ j ∈ x.instr?, j.Contained l used := by
  obtain ⟨code, hcode, rfl⟩ := h
  -- making a frame and dropping it touch memory only through `rsp`, which no operand says
  have hprologue : ∀ j ∈ prologue l, j.Contained l used := by
    have hregisters : ∀ j ∈ prologue l, (∀ o ∈ j.operands, o.isMemory = false) ∧ j.jump? = none := by
      unfold prologue
      refine List.forall_mem_append.2 ⟨by decide, ?_⟩
      split
      · exact List.forall_mem_nil _
      · exact List.forall_mem_singleton.2 ⟨List.forall_mem_cons.2 ⟨rfl, List.forall_mem_singleton.2 rfl⟩, rfl⟩
    exact fun j hj => .of_registers (hregisters j hj).1 (hregisters j hj).2
  have hepilogue : ∀ x ∈ epilogue, ∀ j ∈ x.instr?, j.Contained l used := by
    have hregisters : ∀ x ∈ epilogue, ∀ j ∈ x.instr?, (∀ o ∈ j.operands, o.isMemory = false) ∧ j.jump? = none := by
      decide
    exact fun x hx j hj => .of_registers (hregisters x hx j hj).1 (hregisters x hx j hj).2
  intro x hx
  simp only [List.mem_cons, List.mem_append, List.mem_map] at hx
  rcases hx with rfl | rfl | (⟨j, hj, rfl⟩ | hx) | hx
  · rintro _ ⟨⟩
  · rintro _ ⟨⟩
  · rintro _ ⟨⟩
    exact hprologue j hj
  · exact fun j hj => (hcode x hx j hj).toContained
  · exact hepilogue x hx

/-- Some lines begin with the name of a function, and the others keep to themselves, whatever separates them
from the next function. -/
def Enclosed (m : IR.Module) (f : IR.Function) (lines : List Line) : Prop :=
  ∃ body, lines = .exported (.function f.name) :: .label (.function f.name) :: body ∧
    (∀ x ∈ body, x.heading? = none) ∧ ∀ after, Separating after → Confined (.ofModule m) f (body ++ after)

theorem functionLines_enclosed (h : Unambiguous m) (hf : f ∈ m.functions)
    (hlines : functionLines o (.ofModule m) f = .ok lines) : Enclosed m f lines := by
  obtain ⟨body, rfl, hinner⟩ : Block m f lines := (functionLines_emits o h hf).gives hlines
  have hframed := (functionLines_meets fun _ hv => hv).gives _ hlines
  refine ⟨body, rfl, fun x hx => (hinner.inside x hx).heading?, fun after hafter => ?_⟩
  have hcontained : ∀ x ∈ body ++ after, ∀ j ∈ x.instr?, j.Contained (.ofModule m) (· ∈ f.vars) := by
    refine List.forall_mem_append.2 ⟨fun x hx => ?_, fun x hx j hj => ?_⟩
    · exact hframed.contained x (List.mem_cons_of_mem _ (List.mem_cons_of_mem _ hx))
    · rw [hafter.instr? x hx] at hj
      cases hj
  have hlabel : ∀ s ∈ symbolsOf f, (body ++ after).count (.label s) = 1 := by
    intro s hs
    rw [List.count_append, hafter.count_label, hinner.count_label (symbolsOf_nodup h.wellFormed hf) hs]
  obtain ⟨below, hresult⟩ := h.result_slot hf
  refine
    { shape := ?_
      exit := hlabel _ (List.mem_append_right _ List.mem_cons_self)
      aligned := (StackLayout.ofModule m).frameSize_eq.1
      jumps := ?_
      memory := ?_
      slots := fun v _ w _ below => StackLayout.offset?_injective }
  · obtain ⟨code, hcode, he⟩ := hframed
    obtain rfl := List.tail_eq_of_cons_eq (List.tail_eq_of_cons_eq he)
    -- the result has a slot, so there is a frame to make
    have hroom : (StackLayout.ofModule m).frameSize ≠ 0 := by
      have hbounds := StackLayout.offset?_bounds hresult
      unfold StackLayout.slotSize at hbounds
      omega
    refine ⟨code, after, ?_, fun x hx hret => ?_, fun names c c' is his hstack hexec => ?_, hafter⟩
    · rw [prologue_eq hroom]
      rfl
    · cases (hcode x hx _ hret).frame
    · have hlocal : AllLocal (.ofModule m) (· ∈ f.vars) is := fun j hj => by
        obtain ⟨x, hx, hj⟩ := his j hj
        exact hcode x hx j hj
      exact hlocal.restores hstack hroom hexec
  · intro x hx j hj s hs
    obtain ⟨name, rfl⟩ := (hcontained x hx j hj).jumps s hs
    refine ⟨name, rfl, hlabel _ (Refers.mem_symbolsOf (m := m) ?_)⟩
    rcases List.mem_append.1 hx with hx | hx
    · have hinside := hinner.inside x hx
      cases x <;> cases hj
      refine hinside _ ?_
      cases j <;> cases hs <;> rfl
    · rw [hafter.instr? x hx] at hj
      cases hj
  · intro x hx j hj operand ho hm
    obtain ⟨v, k, hv, hk, rfl⟩ := (hcontained x hx j hj).memory operand ho hm
    have hslot := (StackLayout.exists_offset?_iff (StackLayout.nodup_ofModule m)).1 ⟨v, hk⟩
    exact ⟨v, hv, k, hk, rfl, hslot.1, hslot.2.1, (StackLayout.offset?_bounds hk).2⟩

/-- Behind the lines of a function there is nothing, or another function begins. -/
theorem Enclosed.intercalate {fs : List IR.Function} {blocks : List (List Line)}
    (h : List.Forall₂ (Enclosed m) fs blocks) (lines : List Line) :
    ∃ rest, [Line.blank].intercalate (lines :: blocks) = lines ++ rest ∧
      sectionsOf rest = sectionsOf ([Line.blank].intercalate blocks) ∧
      Separating (rest.takeWhile (·.heading?.isNone)) := by
  cases h with
  | nil => exact ⟨[], by simp [List.intercalate], rfl, List.forall_mem_nil _⟩
  | @cons g block fs blocks hblock =>
    obtain ⟨body, rfl, -⟩ := hblock
    refine ⟨.blank :: [Line.blank].intercalate (_ :: blocks), by simp [List.intercalate], rfl, ?_⟩
    obtain ⟨separator, -, he⟩ :=
      intercalate_cons (.exported (.function g.name) :: .label (.function g.name) :: body) blocks
    rw [he]
    -- of the next function the line before its label still belongs to this section
    exact List.forall_mem_cons.2 ⟨.inl rfl, List.forall_mem_singleton.2 (.inr ⟨_, rfl⟩)⟩

/-- The sections of enclosed functions keep to themselves. -/
theorem Enclosed.sections {fs : List IR.Function} {blocks : List (List Line)}
    (h : List.Forall₂ (Enclosed m) fs blocks) :
    List.Forall₂ (fun f s => s.1 = .function f.name ∧ Confined (.ofModule m) f s.2) fs
      (sectionsOf ([Line.blank].intercalate blocks)) := by
  induction h with
  | nil => exact .nil
  | @cons f block fs blocks hblock hblocks ih =>
    obtain ⟨body, rfl, hbody, hconfined⟩ := hblock
    obtain ⟨rest, he, hrest, hafter⟩ := Enclosed.intercalate hblocks
      (.exported (.function f.name) :: .label (.function f.name) :: body)
    rw [← hrest] at ih
    have hsections : sectionsOf ([Line.blank].intercalate
        ((.exported (.function f.name) :: .label (.function f.name) :: body) :: blocks)) =
          (.function f.name, body ++ rest.takeWhile (·.heading?.isNone)) :: sectionsOf rest := by
      rw [he]
      exact sectionsOf_function f.name hbody
    rw [hsections]
    exact .cons ⟨rfl, hconfined _ hafter⟩ ih

end

/-! ## Sources -/

/-- Compiled functions jump and address memory only inside themselves. For every source text that has assembly
the sections of the text are the one where programs start and one for each function of the lowered module,
and that of a function keeps to itself. -/
theorem generate_confined {source : Source} {o : Options} {text : String} {reports : List Compiler.Report}
    (h : (Compiler.generate o source).run [] = (.ok text, reports)) :
    ∃ M reports' lines, (Compiler.lower source).run [] = (.ok M, reports') ∧ generate o M = .ok lines ∧
      text = render lines ∧ ∃ start sections, sectionsOf lines = (.plain "_start", start) :: sections ∧
        List.Forall₂ (fun f s => s.1 = .function f.name ∧ Confined (.ofModule M) f s.2) M.functions sections := by
  obtain ⟨M, reports', lines, hlower, hg, rfl⟩ := Compiler.generate_ok h
  have hunambiguous := Unambiguous.of_lower hlower
  obtain ⟨blocks, hblocks, rfl⟩ := generate_eq_ok hg
  have henclosed : List.Forall₂ (Enclosed M) M.functions blocks := by
    refine List.forall₂_iff_get.2 ⟨hblocks.length_eq, fun k hk hk' => ?_⟩
    exact functionLines_enclosed hunambiguous (List.get_mem _ _) (hblocks.get hk hk')
  exact ⟨M, reports', _, hlower, hg, rfl, _, _, rfl, Enclosed.sections henclosed⟩

/-- The module for `fun f(b: Bool): Int { if b then 1 else 2 } f(true)`. -/
def choosing : IR.Module :=
  ⟨[⟨"f", [.temp 1], [⟨⟨1, 23⟩, .branch (.temp 1) ⟨1⟩ ⟨2⟩⟩, ⟨⟨1, 23⟩, .label ⟨1⟩⟩, ⟨⟨1, 33⟩, .loadInt 1 (.temp 2)⟩,
      ⟨⟨1, 23⟩, .jump ⟨3⟩⟩, ⟨⟨1, 23⟩, .label ⟨2⟩⟩, ⟨⟨1, 40⟩, .loadInt 2 (.temp 3)⟩,
      ⟨⟨1, 23⟩, .copy (.temp 3) (.temp 2)⟩, ⟨⟨1, 23⟩, .label ⟨3⟩⟩, ⟨⟨1, 21⟩, .leave (.temp 2)⟩], .temp 2⟩,
    ⟨"main", [], [⟨⟨1, 46⟩, .loadBool true (.temp 4)⟩, ⟨⟨1, 44⟩, .call (.named "f") [.temp 4] (.temp 5)⟩,
      ⟨⟨1, 1⟩, .call (.named "print_int") [.temp 5] (.temp 6)⟩], .temp 5⟩]⟩

/-- A function that jumps keeps to itself, and so does its caller. Both have room for six slots. -/
theorem generate_confined_choosing :
    ∃ lines reports start body main,
      (Compiler.generate {} ⟨"fun f(b: Bool): Int { if b then 1 else 2 } f(true)", .memory⟩).run [] =
        (.ok (render lines), reports) ∧
      sectionsOf lines = [(.plain "_start", start), (.function "f", body), (.function "main", main)] ∧
      (∀ f ∈ choosing.functions.head?, Confined (.ofModule choosing) f body) ∧
      (∀ f ∈ choosing.functions.getLast?, Confined (.ofModule choosing) f main) ∧
      (StackLayout.ofModule choosing).frameSize = 48 := by
  have h : (Compiler.lower ⟨"fun f(b: Bool): Int { if b then 1 else 2 } f(true)", .memory⟩).run [] =
      (.ok choosing, [.parsed 1, .checked .int, .lowered 12]) := by
    cbv
  obtain ⟨text, hg, -⟩ := (generate_emits {} (.of_lower h)).ok (by decide)
  have hrun := Compiler.generate_run h {}
  rw [hg] at hrun
  obtain ⟨M, _, lines, hlower, -, htext, start, sections, hsections, hconfined⟩ := generate_confined hrun
  obtain rfl : choosing = M := Except.ok.inj (congrArg Prod.fst (h.symm.trans hlower))
  cases hconfined with | @cons _ s _ _ hf hrest =>
  cases hrest with | @cons _ s' _ _ hmain hrest =>
  cases hrest with | nil =>
  obtain ⟨name, body⟩ := s
  obtain ⟨name', main⟩ := s'
  obtain ⟨rfl, hbody⟩ := hf
  obtain ⟨rfl, hmain⟩ := hmain
  dsimp only at hrun
  rw [htext] at hrun
  refine ⟨lines, _, start, body, main, hrun, hsections, ?_, ?_, by decide⟩
  · rintro _ ⟨⟩
    exact hbody
  · rintro _ ⟨⟩
    exact hmain

end Assembly

end Exprc

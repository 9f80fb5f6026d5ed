/-
Where errors point. Every error with a place that comes of a source text has a place of the text
(`Compiler.generate_blames`). A message shows the line of such a place with a caret below it, under the character
that stands there or behind the last one; only if the error is at the end of a text and the text is empty or ends in
a line feed, there is no such line (`Compiler.located_error_shown`).
-/
import Exprc.Proofs.Assembly.Pieces
import Exprc.Proofs.Assembly.Translation
import Exprc.Proofs.Lowering.Legible
import Exprc.Proofs.Places.Blame
import Exprc.Proofs.Places.Emitted
import Exprc.Proofs.Text.Lines

namespace Exprc

open Text

/-! ## Lines of places -/

section

variable {source : Source} {l : Location}

theorem Source.line?_behind (source : Source) (pre : List Char) :
    source.line? (Location.behind pre).line = ((linesOf source.chars)[pre.count '\n']?).map String.ofList := rfl

/-- A place of a source text is a place in the line with its number, or it is the end of a text without such a
line. -/
theorem Location.Within.line (h : l.Within source.chars) :
    (∃ line, source.line? l.line = some line ∧ 1 ≤ l.column ∧ l.column ≤ line.length + 1) ∨
      l = .behind source.chars ∧ (source.chars = [] ∨ source.chars.getLast? = some '\n') ∧
        source.line? l.line = none := by
  obtain ⟨pre, post, hchars, rfl, hpost⟩ := h
  rw [Source.line?_behind, hchars]
  rcases linesOf_place hpost with ⟨line, hline, hcolumn⟩ | ⟨rfl, hpre, hnone⟩
  · refine .inl ⟨String.ofList line, by rw [hline]; rfl, ?_, ?_⟩
    · exact Nat.le_add_left 1 _
    · rwa [String.length_ofList]
  · right
    rw [hnone, List.append_nil]
    exact ⟨rfl, hpre, rfl⟩

/-- What a message shows of a place whose line the source has. -/
theorem Diagnostic.render_highlight {d : Diagnostic} {line : String} (hl : d.location? = some l)
    (hd : d.raisedAt? = none) (hline : source.line? l.line = some line) :
    (d.render source).plain =
      "error[" ++ d.kind.name ++ "]: " ++ d.message ++ " (at " ++ source.locate l ++ ")\n" ++
        toString l.line ++ " | " ++ line ++ "\n" ++
        "".pushn ' ' (toString l.line).length ++ " | " ++ "".pushn ' ' (l.column - 1) ++ "^" := by
  apply String.toList_injective
  simp [render, context, hl, hd, highlight?, hline, Styled.plain, raw, inked]

end

/-! ## Stages -/

namespace Compiler

open Syntax Typing

variable {source : Source} {d : Diagnostic} {r r' : List Report}

/-- What parsing and checking blame. -/
theorem check_blames (h : (check source).run r = (.error d, r')) : ∀ l ∈ d.location?, l.Within source.chars := by
  -- reading or checking fails, for a report never does
  unfold check at h
  rcases bind_error h with h | ⟨m, r₁, hm, h⟩
  · exact Parser.readSource_blames (Prod.mk.inj h).1
  · have hwithin := Parser.readSource_within (Prod.mk.inj hm).1
    rcases bind_error h with h | ⟨_, r₂, -, h⟩
    · cases h
    · rcases bind_error h with h | ⟨τ, r₃, -, h⟩
      · obtain ⟨fault, hfault, rfl⟩ := stage_error h
        exact checkModule_blames hwithin hfault
      · rcases bind_error h with h | ⟨_, r₄, -, h⟩ <;> cases h

/-- The places in the tree of a source text that is accepted are places of it. -/
theorem check_within {tree : Module} (h : (check source).run r = (.ok tree, r')) :
    tree.Within (Location.Within source.chars) := by
  obtain ⟨m, τ, hm, -, rfl, -⟩ := check_ok h
  have huntyped := Module.within_untyped.2 (Parser.readSource_within hm)
  rw [← checkModule_untyped] at huntyped
  exact Module.within_untyped.1 huntyped

/-- What parsing, checking and lowering blame. -/
theorem lower_blames (h : (lower source).run r = (.error d, r')) : ∀ l ∈ d.location?, l.Within source.chars := by
  unfold lower at h
  rcases bind_error h with h | ⟨tree, r₁, htree, h⟩
  · exact check_blames h
  · rcases bind_error h with h | ⟨M, r₂, -, h⟩
    · obtain ⟨fault, hfault, rfl⟩ := stage_error h
      exact (Lowering.lower_delivers (check_within htree)).2 fault hfault
    · rcases bind_error h with h | ⟨_, r₃, -, h⟩ <;> cases h

/-- The instructions of a lowered module stand at places of its source text. -/
theorem lower_within {M : IR.Module} (h : (lower source).run r = (.ok M, r')) :
    ∀ f ∈ M.functions, ∀ i ∈ f.code, i.location.Within source.chars := by
  unfold lower at h
  obtain ⟨tree, r₁, htree, h⟩ := bind_ok h
  obtain ⟨M', r₂, hM', h⟩ := bind_ok h
  obtain ⟨_, r₃, -, h⟩ := bind_ok h
  obtain ⟨hM, -⟩ := stage_ok hM'
  cases h
  exact (Lowering.lower_delivers (check_within htree)).1 M hM

end Compiler

namespace Assembly

/-- What code generation blames, unless a slot is missing: an instruction. -/
theorem generate_delivers {m : IR.Module} {o : Options} {fault : Fault CodegenError} (hm : m.Legible)
    (h : generate o m = .error fault) (hslot : ∀ v, fault.cause ≠ .noSlot v) :
    fault.Blames fun place => ∃ f ∈ m.functions, ∃ i ∈ f.code, place = i.location := by
  rw [generate_pieces o hm] at h
  cases hp : moduleParts m with
  | ok parts =>
    rw [hp] at h
    cases h
  | error fault' =>
    rw [hp] at h
    cases h
    exact (moduleParts_delivers hm).blames fault hp hslot

end Assembly

namespace Compiler

variable {source : Source} {o : Assembly.Options} {d : Diagnostic} {reports : List Report} {l : Location}

/-- Every error that comes of a source text, and has a place, has a place of the text. -/
theorem generate_blames (h : (generate o source).run [] = (.error d, reports)) :
    ∀ l ∈ d.location?, l.Within source.chars := by
  cases hlower : (lower source).run [] with
  | mk result reports' =>
    cases result with
    | error d' =>
      unfold generate at h
      rcases bind_error h with h | ⟨M, r₁, hM, -⟩
      · exact lower_blames h
      · rw [hlower] at hM
        cases hM
    | ok M =>
      rw [generate_run hlower] at h
      split at h
      · cases h
      · rename_i fault hfault
        cases h
        -- a slot is never missing
        have hslot : ∀ v, fault.cause ≠ .noSlot v := by
          rcases Assembly.generate_emits o (.of_lower hlower) with ⟨lines, hlines, -⟩ | ⟨fault', hfault', hcrowded⟩
          · rw [hlines] at hfault
            cases hfault
          · rw [hfault'] at hfault
            cases hfault
            cases hcrowded <;> exact nofun
        intro l hl
        obtain ⟨f, hf, i, hi, rfl⟩ :=
          Assembly.generate_delivers (Lowering.legible_of_lower hlower) hfault hslot l hl
        exact lower_within hlower f hf i hi

/-- Where an error points. Every error with a place that comes of a source text has a place in a line of the source:
its column is that of a character of the line, or the one behind the last of them, and the message ends with the line
behind its number and a caret below it that stands as many places behind the gutter as there are characters before
the place. Only an error at the end of a text shows no line, if the text is empty or its last line has a line feed. -/
theorem located_error_shown (h : (generate o source).run [] = (.error d, reports)) (hl : d.location? = some l) :
    (∃ line, source.line? l.line = some line ∧ 1 ≤ l.column ∧ l.column ≤ line.length + 1 ∧
        (Diagnostic.render { d with raisedAt? := none } source).plain =
          "error[" ++ d.kind.name ++ "]: " ++ d.message ++ " (at " ++ source.locate l ++ ")\n" ++
            toString l.line ++ " | " ++ line ++ "\n" ++
            "".pushn ' ' (toString l.line).length ++ " | " ++ "".pushn ' ' (l.column - 1) ++ "^") ∨
      l = .behind source.chars ∧ (source.chars = [] ∨ source.chars.getLast? = some '\n') ∧
        source.line? l.line = none := by
  rcases (generate_blames h l hl).line with ⟨line, hline, hpos, hle⟩ | hend
  · exact .inl ⟨line, hline, hpos, hle, Diagnostic.render_highlight hl rfl hline⟩
  · exact .inr hend

/-- A text that is not read has no assembly. -/
theorem generate_unread (h : Syntax.Parser.module.readSource source = .error d) (o : Assembly.Options)
    (r : List Report) : (generate o source).run r = (.error d, r) := by
  unfold generate Compiler.lower check
  rw [h]
  rfl

/-- The error of a text in which an operand is missing at the end. -/
def missingOperand (l : Location) : Diagnostic :=
  (Fault.at l (Syntax.ParseError.unexpected .expression none)).diagnostic

theorem readSource_missingOperand {source : Source} {one plus : Syntax.Token} {l : Location}
    (htokens : Syntax.tokenize source = .ok [one, plus, .stop l])
    (hrun : (Syntax.Parser.module.run (.start [one, plus, .stop l])).1 =
      .error (.at l (.unexpected .expression none))) :
    Syntax.Parser.module.readSource source = .error (missingOperand l) := by
  rw [Syntax.Parser.readSource, htokens]
  dsimp only
  rw [hrun]
  rfl

/-- An operand is missing at the end of the first line. -/
theorem located_error_shown_operand :
    (generate {} ⟨"1 +", .memory⟩).run [] = (.error (missingOperand ⟨1, 4⟩), []) ∧
      ((missingOperand ⟨1, 4⟩).render ⟨"1 +", .memory⟩).plain =
        "error[parse]: expected an expression but found end of input (at <memory>:1:4)\n1 | 1 +\n  |    ^" := by
  have htokens : Syntax.tokenize ⟨"1 +", .memory⟩ =
      .ok [⟨.int, "1", ⟨1, 1⟩⟩, ⟨.operator, "+", ⟨1, 3⟩⟩, .stop ⟨1, 4⟩] := by
    cbv
  have h := generate_unread (readSource_missingOperand htokens (by cbv)) {} []
  have hline : Source.line? ⟨"1 +", .memory⟩ 1 = some "1 +" := by
    cbv
  refine ⟨h, ?_⟩
  rcases located_error_shown h rfl with ⟨line, hshown, -, -, hrender⟩ | ⟨-, -, hnone⟩
  · obtain rfl : line = "1 +" := Option.some.inj (hshown.symm.trans hline)
    exact hrender.trans rfl
  · rw [hline] at hnone
    cases hnone

/-- If the text goes on with a line feed, the error is in a line that the source does not have. -/
theorem error_behind_last_line :
    (generate {} ⟨"1 +\n", .memory⟩).run [] = (.error (missingOperand ⟨2, 1⟩), []) ∧
      Source.line? ⟨"1 +\n", .memory⟩ 2 = none ∧
      ((missingOperand ⟨2, 1⟩).render ⟨"1 +\n", .memory⟩).plain =
        "error[parse]: expected an expression but found end of input (at <memory>:2:1)" := by
  have htokens : Syntax.tokenize ⟨"1 +\n", .memory⟩ =
      .ok [⟨.int, "1", ⟨1, 1⟩⟩, ⟨.operator, "+", ⟨1, 3⟩⟩, .stop ⟨2, 1⟩] := by
    cbv
  exact ⟨generate_unread (readSource_missingOperand htokens (by cbv)) {} [], by cbv, rfl⟩

end Compiler

end Exprc

/-
Debug information changes only comments. With it or without there is assembly for the same modules, and else the same
fault. In its text every line that code generation writes is a line of its own, and a comment if and only if it was
written as one; so without comments the two texts are the same (`generate_debugInfo`).
-/
import Exprc.Proofs.Assembly.Pieces
import Exprc.Proofs.Lowering.Legible
import Exprc.Proofs.Text.Lines

namespace Exprc.Assembly

open IR Text

/-! ## Texts without comments -/

/-- The lines of a text that are not comments. -/
def withoutComments (text : String) : List (List Char) := (linesOf text.toList).filter (!isCommentLine ·)

section

variable {lines plain debug : List Line}

/-- The lines of a text of clear lines are what these were written as. -/
theorem linesOf_render (h : AllClear lines) : linesOf (render lines).toList = lines.map (·.text.toList) := by
  induction lines with
  | nil => rfl
  | cons x lines ih =>
    obtain ⟨hx, hlines⟩ := List.forall_mem_cons.1 h
    have hbreak : '\n' ∉ x.text.toList := fun hmem => Bool.false_ne_true (hx.printed _ hmem)
    have hreturn : '\r' ∉ x.text.toList := fun hmem => Bool.false_ne_true (hx.printed _ hmem)
    have htext : (render (x :: lines)).toList = x.text.toList ++ '\n' :: (render lines).toList := by
      simp [render]
    rw [htext, linesOf_line hbreak, chomp_of_notMem hreturn, ih hlines, List.map_cons]

theorem withoutComments_render (h : AllClear lines) :
    withoutComments (render lines) = (lines.filter (!·.isComment)).map (·.text.toList) := by
  rw [withoutComments, linesOf_render h, List.filter_map]
  congr 1
  refine List.filter_congr fun x hx => ?_
  rw [Function.comp_apply, (h x hx).comment]

end

/-! ## Lines with notes -/

/-- Some lines are others with a number of comments among them. -/
structure Annotates (count : Nat) (debug plain : List Line) : Prop where
  code : debug.filter (!·.isComment) = plain.filter (!·.isComment)
  length : debug.length = plain.length + count

namespace Annotates

variable {count count' : Nat} {debug debug' plain plain' : List Line}

theorem refl (lines : List Line) : Annotates 0 lines lines := ⟨rfl, rfl⟩

theorem append (h : Annotates count debug plain) (h' : Annotates count' debug' plain') :
    Annotates (count + count') (debug ++ debug') (plain ++ plain') where
  code := by rw [List.filter_append, List.filter_append, h.code, h'.code]
  length := by
    rw [List.length_append, List.length_append, h.length, h'.length]
    omega

theorem pieces (ps : List Piece) :
    Annotates ps.length (ps.flatMap (Piece.lines true)) (ps.flatMap (Piece.lines false)) := by
  induction ps with
  | nil => exact refl []
  | cons p ps ih =>
    have hp : Annotates 1 (p.lines true) (p.lines false) := ⟨rfl, rfl⟩
    rw [List.length_cons, Nat.add_comm]
    exact hp.append ih

theorem parts (p : Parts) : Annotates p.pieces.length (p.lines true) (p.lines false) := by
  have h := ((refl p.front).append (pieces p.pieces)).append (refl p.back)
  rwa [Nat.zero_add, Nat.add_zero] at h

theorem assembled (ps : List Parts) :
    Annotates (ps.map (·.pieces.length)).sum (assembled true ps) (assembled false ps) := by
  suffices hbodies : Annotates (ps.map (·.pieces.length)).sum ([Line.blank].intercalate (ps.map (Parts.lines true)))
      ([Line.blank].intercalate (ps.map (Parts.lines false))) by
    have h := (refl header).append hbodies
    rwa [Nat.zero_add] at h
  induction ps with
  | nil => exact refl []
  | cons p ps ih =>
    cases ps with
    | nil => simpa [List.intercalate] using parts p
    | cons q ps =>
      have h := (parts p).append ((refl [.blank]).append ih)
      rw [Nat.zero_add] at h
      simpa [List.intercalate] using h

end Annotates

/-! ## Clear texts -/

section

variable {f : IR.Function} {p : Parts} {fs : List IR.Function} {ps : List Parts}

theorem AllClear.flatMap {α : Type} {as : List α} {g : α → List Line} (h : ∀ a ∈ as, AllClear (g a)) :
    AllClear (as.flatMap g) := by
  intro x hx
  obtain ⟨a, ha, hx⟩ := List.mem_flatMap.1 hx
  exact h a ha x hx

theorem AllClear.intercalate {blocks : List (List Line)} (h : ∀ lines ∈ blocks, AllClear lines) :
    AllClear ([Line.blank].intercalate blocks) := by
  induction blocks with
  | nil => exact .nil
  | cons lines blocks ih =>
    obtain ⟨hlines, hblocks⟩ := List.forall_mem_cons.1 h
    cases blocks with
    | nil => simpa [List.intercalate] using hlines
    | cons lines' blocks =>
      have hrest := hlines.append (.cons .blank (ih hblocks))
      simpa [List.intercalate] using hrest

theorem header_clear : AllClear header := by
  have hall : ∀ x ∈ header, x.text.toList.all isPrinted = true ∧ isCommentLine x.text.toList = x.isComment := by
    decide
  exact fun x hx => ⟨printed_literal (hall x hx).1, (hall x hx).2⟩

theorem Parts.Of.clear (h : p.Of f) (debugInfo : Bool) : AllClear (p.lines debugInfo) :=
  (h.front.append (.flatMap fun piece hpiece => h.pieces.clear piece hpiece debugInfo)).append h.back

theorem assembled_clear (h : List.Forall₂ Parts.Of fs ps) (debugInfo : Bool) : AllClear (assembled debugInfo ps) := by
  have hbodies : ∀ lines ∈ ps.map (Parts.lines debugInfo), AllClear lines := by
    induction h with
    | nil => exact List.forall_mem_nil _
    | cons hp _ ih => exact List.forall_mem_cons.2 ⟨hp.clear debugInfo, ih⟩
  exact header_clear.append (.intercalate hbodies)

theorem purposes_length (h : List.Forall₂ Parts.Of fs ps) :
    (ps.map (·.pieces.length)).sum = (fs.map (·.purposes.length)).sum := by
  induction h with
  | nil => rfl
  | cons hp _ ih =>
    rw [List.map_cons, List.map_cons, List.sum_cons, List.sum_cons, ih, ← hp.pieces.purposes, List.length_map]

end

/-! ## Lowered modules -/

/-- The module for `fun id(a: Int): Int { a } id(1)`. -/
def callOfId : IR.Module :=
  ⟨[⟨"id", [.temp 1], [⟨⟨1, 21⟩, .leave (.temp 1)⟩], .temp 1⟩,
    ⟨"main", [], [⟨⟨1, 30⟩, .loadInt 1 (.temp 2)⟩, ⟨⟨1, 27⟩, .call (.named "id") [.temp 2] (.temp 3)⟩,
      ⟨⟨1, 1⟩, .call (.named "print_int") [.temp 3] (.temp 4)⟩], .temp 3⟩]⟩

end Exprc.Assembly

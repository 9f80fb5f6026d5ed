/-
What a terminal shows of styled text. Text without control characters, but for line feeds, is shown as it is,
and the sequences that open and end a style are not shown; so with colours or without, a terminal shows styled
text without its styles (`withoutControls_render`).
-/
import Exprc.Text.ControlSequence
import Exprc.Text.Style
import Mathlib

namespace Exprc.Text

variable {cs rest : List Char} {s : Styled}

/-! ## Characters of a kind -/

/-- Whether all characters of a text are of a kind. -/
def MadeOf (p : Char → Bool) (text : String) : Prop := ∀ c ∈ text.toList, p c = true

namespace MadeOf

variable {p q : Char → Bool} {text text' : String}

theorem of_all (h : text.toList.all p = true) : MadeOf p text := List.all_eq_true.1 h

theorem mono (h : MadeOf p text) (hpq : ∀ c, p c = true → q c = true) : MadeOf q text := fun c hc => hpq c (h c hc)

theorem append (h : MadeOf p text) (h' : MadeOf p text') : MadeOf p (text ++ text') := by
  intro c hc
  rw [String.toList_append] at hc
  exact (List.mem_append.1 hc).elim (h c) (h' c)

theorem intercalate {separator : String} (h : MadeOf p separator) {ss : List String}
    (hs : ∀ t ∈ ss, MadeOf p t) : MadeOf p (separator.intercalate ss) := by
  induction ss with
  | nil => exact nofun
  | cons t ss ih =>
    obtain ⟨ht, hss⟩ := List.forall_mem_cons.1 hs
    cases ss with
    | nil => exact ht
    | cons u ss =>
      rw [String.intercalate_cons_cons]
      exact (ht.append h).append (ih hss)

end MadeOf

/-- Whether all characters of a styled text are of a kind. -/
def Styled.MadeOf (p : Char → Bool) (s : Styled) : Prop := ∀ piece ∈ s, Text.MadeOf p piece.text

theorem toList_plain (s : Styled) : s.plain.toList = s.flatMap (·.text.toList) := by
  rw [Styled.plain, String.toList_join, List.flatMap_map]

namespace Styled.MadeOf

variable {p q : Char → Bool} {s s' : Styled}

theorem nil : Styled.MadeOf p [] := nofun

theorem cons {piece : Span} (h : Text.MadeOf p piece.text) (hs : s.MadeOf p) : Styled.MadeOf p (piece :: s) :=
  List.forall_mem_cons.2 ⟨h, hs⟩

theorem mono (h : s.MadeOf p) (hpq : ∀ c, p c = true → q c = true) : s.MadeOf q :=
  fun piece hpiece => (h piece hpiece).mono hpq

theorem append (hs : s.MadeOf p) (hs' : s'.MadeOf p) : Styled.MadeOf p (s ++ s') :=
  List.forall_mem_append.2 ⟨hs, hs'⟩

theorem join {separator : String} (h : Text.MadeOf p separator) {ss : List Styled}
    (hss : ∀ s ∈ ss, s.MadeOf p) : Styled.MadeOf p (Styled.join separator ss) := by
  fun_induction Styled.join separator ss with
  | case1 => exact .nil
  | case2 s => exact hss s List.mem_cons_self
  | case3 s rest _ ih =>
    obtain ⟨hs, hrest⟩ := List.forall_mem_cons.1 hss
    exact hs.append (.cons h (ih hrest))

theorem plain (h : s.MadeOf p) : Text.MadeOf p s.plain := by
  intro c hc
  rw [toList_plain] at hc
  obtain ⟨piece, hpiece, hc⟩ := List.mem_flatMap.1 hc
  exact h piece hpiece c hc

end Styled.MadeOf

/-! ## The parser of a terminal -/

/-- Whether a character is printed, in one place of one line. -/
def isPrinted (c : Char) : Bool := within 0x20 0x7e c

/-- Whether a terminal shows a character as it is, wherever it stands in plain text. -/
def isShown (c : Char) : Bool := c == '\n' || isPrinted c

theorem isShown_of_isPrinted (c : Char) (h : isPrinted c = true) : isShown c = true := by
  rw [isShown, h, Bool.or_true]

theorem ne_of_isShown {c d : Char} (h : isShown c = true) (hd : isShown d = false) : c ≠ d := by
  rintro rfl
  rw [h] at hd
  cases hd

theorem ground_shown_cons {c : Char} (h : isShown c = true) (cs : List Char) :
    Scan.ground.shown (c :: cs) = c :: Scan.ground.shown cs := by
  have hshows : Scan.ground.shows c = [c] := by
    refine if_pos ?_
    simp only [isShown, isPrinted, within, Bool.or_eq_true, Bool.and_eq_true, beq_iff_eq, decide_eq_true_eq] at h ⊢
    simp only [Bool.not_eq_true', Bool.or_eq_false_iff, Bool.and_eq_false_iff, decide_eq_false_iff_not]
    rcases h with rfl | h
    · exact .inl rfl
    · exact .inr ⟨by omega, by omega⟩
  have hnext : Scan.ground.next c = .ground := by
    have hescape := ne_of_isShown (d := '\x1b') h rfl
    have hcancel := ne_of_isShown (d := '\x18') h rfl
    have hsubstitute := ne_of_isShown (d := '\x1a') h rfl
    simp [Scan.next, hescape, hcancel, hsubstitute]
  rw [Scan.shown, hshows, hnext, List.singleton_append]

theorem ground_shown_append (h : ∀ c ∈ cs, isShown c = true) (rest : List Char) :
    Scan.ground.shown (cs ++ rest) = cs ++ Scan.ground.shown rest := by
  induction cs with
  | nil => rfl
  | cons c cs ih =>
    obtain ⟨hc, hcs⟩ := List.forall_mem_cons.1 h
    rw [List.cons_append, ground_shown_cons hc, ih hcs, List.cons_append]

theorem ground_shown_opening (ink : Ink) (rest : List Char) :
    Scan.ground.shown (ink.opening ++ rest) = Scan.ground.shown rest := by
  cases ink <;> rfl

theorem ground_shown_reset (rest : List Char) :
    Scan.ground.shown (reset ++ rest) = Scan.ground.shown rest := rfl

/-! ## Styled text -/

theorem reopen_of_notMem (opening : List Char) (h : '\x1b' ∉ cs) : reopen opening cs = cs := by
  fun_induction reopen opening cs with
  | case1 cs => exact absurd List.mem_cons_self h
  | case2 c cs _ ih => rw [ih fun hcs => h (List.mem_cons_of_mem c hcs)]
  | case3 => rfl

theorem ground_shown_span {p : Span} (h : MadeOf isShown p.text) (rest : List Char) :
    Scan.ground.shown (p.coloured.toList ++ rest) = p.text.toList ++ Scan.ground.shown rest := by
  obtain ⟨text, _ | ink⟩ := p
  · exact ground_shown_append h rest
  · have hescape : '\x1b' ∉ text.toList := fun hmem => Bool.false_ne_true (h _ hmem)
    show Scan.ground.shown ((ink.paint text).toList ++ rest) = _
    rw [Ink.paint, String.toList_ofList, reopen_of_notMem _ hescape, List.append_assoc, List.append_assoc,
      ground_shown_opening, ground_shown_append h, ground_shown_reset]

theorem ground_shown_coloured (h : s.MadeOf isShown) :
    Scan.ground.shown s.coloured.toList = s.plain.toList := by
  rw [toList_plain, Styled.coloured, String.toList_join, List.flatMap_map]
  induction s with
  | nil => rfl
  | cons p s ih =>
    obtain ⟨hp, hs⟩ := List.forall_mem_cons.1 h
    rw [List.flatMap_cons, List.flatMap_cons, ← ih hs, ground_shown_span hp]

/-- A terminal shows styled text without its styles, whether it is written with colours or without. -/
theorem withoutControls_render (h : s.MadeOf isShown) (colours : Bool) :
    withoutControls (s.render colours) = s.plain := by
  have hshown : Scan.ground.shown (s.render colours).toList = s.plain.toList := by
    cases colours with
    | true => exact ground_shown_coloured h
    | false =>
      have hplain := ground_shown_append h.plain []
      rwa [List.append_nil, Scan.shown, List.append_nil] at hplain
  rw [withoutControls, hshown, String.ofList_toList]

end Exprc.Text

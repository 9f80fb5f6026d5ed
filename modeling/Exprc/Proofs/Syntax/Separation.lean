/-
Writing tokens down. A text that is made of tokens, with blanks and comments between them, is read as these tokens
if none of them is continued by what stands behind it; so what is read of a text is the only way in which it is made
of tokens. Tokens that are written with separators can therefore be read back: a separator begins with a blank, so
it ends every token, and it is only needed between tokens that would run together.
-/
import Exprc.Proofs.Syntax.Decomposition

namespace Exprc.Syntax

open Text

/-! ## Runs of characters -/

section

variable {p : Char → Bool} {cs rest : List Char}

theorem takeWhile_run (h : ∀ c ∈ cs, p c = true) (hrest : ∀ c ∈ rest.head?, p c = false) :
    (cs ++ rest).takeWhile p = cs := by
  rw [List.takeWhile_append_of_pos h]
  cases rest with
  | nil => exact List.append_nil cs
  | cons c rest => rw [List.takeWhile_cons, hrest c rfl]; exact List.append_nil cs

theorem dropWhile_run (h : ∀ c ∈ cs, p c = true) (hrest : ∀ c ∈ rest.head?, p c = false) :
    (cs ++ rest).dropWhile p = rest := by
  rw [List.dropWhile_append_of_pos h]
  cases rest with
  | nil => rfl
  | cons c rest => rw [List.dropWhile_cons, hrest c rfl]; rfl

end

/-! ## Skipping -/

section

variable {l opened : Location} {piece gap body rest : List Char}

/-- A comment that `/*` opened is skipped up to the first `*/`. -/
theorem skip_closed (h : ¬Closes (body ++ ['*'])) :
    skip (.blockComment opened) l (body ++ '*' :: '/' :: rest) =
      skip .blanks (l.afterAll (body ++ ['*', '/'])) rest := by
  induction body generalizing l with
  | nil => rfl
  | cons c body ih =>
    have hmore : ¬Closes (body ++ ['*']) := fun hc => h (List.infix_cons hc)
    rw [List.cons_append, skip, ih hmore]
    · rfl
    · -- the `*/` is not here yet
      rintro cs rfl hcs
      refine h (List.IsPrefix.isInfix ?_)
      cases body with
      | nil => cases hcs
      | cons d body =>
        obtain ⟨rfl, -⟩ := List.cons.inj hcs
        exact ⟨body ++ ['*'], rfl⟩

theorem skip_trivium (h : Trivium piece rest) :
    skip .blanks l (piece ++ rest) = skip .blanks (l.afterAll piece) rest := by
  cases h with
  | @blank c _ hblank =>
    have hne : c ≠ '/' ∧ c ≠ '#' := by
      constructor <;> rintro rfl <;> exact absurd hblank (by decide)
    rw [List.singleton_append, skip, if_pos hblank]
    · rfl
    · exact fun cs hc => absurd hc hne.1
    · exact fun cs hc => absurd hc hne.1
    · exact hne.2
  | @line opening body _ hopening hbody hrest =>
    have hline : ∀ c ∈ body, decide (c ≠ '\n') = true := fun c hc => decide_eq_true fun he => hbody (he ▸ hc)
    have hend : ∀ c ∈ rest.head?, decide (c ≠ '\n') = false := fun c hc => by simp [hrest c hc]
    have hskip : ∀ l, skip .lineComment l (body ++ rest) = skip .blanks (l.afterAll body) rest := by
      intro l
      rw [skip_lineComment, takeWhile_run hline hend, dropWhile_run hline hend]
    simp only [List.mem_cons, List.not_mem_nil, or_false] at hopening
    obtain rfl | rfl := hopening
    · exact hskip _
    · exact hskip _
  | @block body _ hbody =>
    simp only [List.cons_append, List.append_assoc, List.nil_append]
    exact skip_closed hbody

theorem skip_dense (h : Dense rest) : skip .blanks l rest = (⟨rest, l⟩, none) := by
  cases rest with
  | nil => rfl
  | cons c cs =>
    rw [skip, if_neg (by simp [(h.blank c rfl).1])]
    · rintro cs' rfl rfl
      exact h.line ⟨cs', rfl⟩
    · rintro cs' rfl rfl
      exact h.block ⟨cs', rfl⟩
    · exact (h.blank c rfl).2

/-- Blanks and comments are skipped up to where none begins. -/
theorem skip_trivia (h : Trivia gap rest) (hrest : Dense rest) :
    skip .blanks l (gap ++ rest) = (⟨rest, l.afterAll gap⟩, none) := by
  induction h generalizing l with
  | nil => exact skip_dense hrest
  | cons hpiece _ ih =>
    rw [List.append_assoc, skip_trivium hpiece, ih hrest, Location.afterAll_append]

end

/-! ## Reading tokens back -/

section

variable {t : Token} {rest : List Char}

/-- Whether a character is in no token. -/
def endsTokens (c : Char) : Bool :=
  !c.isDigit && !isWordPart c && !opensComparison c && (symbolKind? c).isNone

theorem endsTokens_of_blank {c : Char} (h : isBlank c = true ∨ c = '#') : endsTokens c = true := by
  have hall : ('#' :: blanks).all endsTokens = true := by decide
  refine List.all_eq_true.1 hall c ?_
  rcases h with h | rfl
  · exact List.mem_cons_of_mem _ (List.contains_iff_mem.1 h)
  · exact List.mem_cons_self

theorem lexeme?_of_endsTokens {c : Char} (h : endsTokens c = true) (cs : List Char) :
    lexeme? (c :: cs) = none := by
  simp only [endsTokens, Bool.and_eq_true, Bool.not_eq_true', Option.isNone_iff_eq_none] at h
  obtain ⟨⟨⟨hdigit, hpart⟩, hopens⟩, hsymbol⟩ := h
  have hstart : isWordStart c = false :=
    Bool.eq_false_iff.2 fun hstart => by rw [isWordPart_of_isWordStart hstart] at hpart; cases hpart
  rw [lexeme?_cons, hdigit, hstart, hopens, hsymbol]
  rfl

/-- A token that nothing continues is read where it stands. -/
theorem Token.Lexed.lexeme?_append (h : t.Lexed) (hmaximal : t.Maximal rest) :
    lexeme? (t.text.toList ++ rest) = some (t.kind, t.text.toList) := by
  obtain ⟨c, cs, htext, hlexeme⟩ := h.exists_lexeme
  rw [htext, List.cons_append, lexeme?_cons]
  cases hlexeme with
  | number hkind hdigit hrun => rw [if_pos hdigit, takeWhile_run hrun (hmaximal.number hkind), hkind]
  | word hkind hdigit hstart hrun =>
    have hword : t.text.toList.head?.any isWordStart = true := by rw [htext]; exact hstart
    rw [if_neg (Bool.eq_false_iff.1 hdigit), if_pos hstart, takeWhile_run hrun (hmaximal.word hword), hkind]
  | comparison hkind hdigit hstart hopens hcs =>
    obtain rfl := hcs
    have hsame : (opensComparison c && (['='] ++ rest).head? == some '=') = true := by rw [hopens]; rfl
    rw [if_neg (Bool.eq_false_iff.1 hdigit), if_neg (Bool.eq_false_iff.1 hstart), if_pos hsame, hkind]
  | symbol hkind hdigit hstart hcs =>
    obtain rfl := hcs
    rw [if_neg (Bool.eq_false_iff.1 hdigit), if_neg (Bool.eq_false_iff.1 hstart), if_neg, hkind]
    · rfl
    · -- of the characters that open a comparison, `!` is no token of its own
      intro hcomparison
      obtain ⟨hc, he⟩ := Bool.and_eq_true_iff.1 hcomparison
      refine hmaximal.comparison ?_ (eq_of_beq he)
      have htext : t.text = String.ofList [c] := by rw [← htext, String.ofList_toList]
      have hmem : c ∈ ['=', '!', '<', '>'] := List.contains_iff_mem.1 hc
      simp only [List.mem_cons, List.not_mem_nil, or_false] at hmem
      rcases hmem with rfl | rfl | rfl | rfl
      · rw [htext]; decide
      · cases hkind
      · rw [htext]; decide
      · rw [htext]; decide

/-- No blank and no comment begins with a token that nothing continues. -/
theorem Token.Lexed.dense_append (h : t.Lexed) (hmaximal : t.Maximal rest) : Dense (t.text.toList ++ rest) := by
  obtain ⟨c, cs, htext, -⟩ := h.exists_lexeme
  have hlexed : lexeme? t.text.toList = some (t.kind, t.text.toList) := h
  have hslash : c = '/' → ∀ d ∈ (cs ++ rest).head?, d ≠ '/' ∧ d ≠ '*' := by
    rintro rfl
    rw [htext] at hlexed
    obtain rfl : [] = cs := (List.cons.inj (Prod.mk.inj (Option.some.inj hlexed)).2).2
    refine hmaximal.slash ?_
    rw [← String.ofList_toList (s := t.text), htext]
  rw [htext] at hlexed ⊢
  refine ⟨?_, ?_, ?_⟩
  · rintro _ ⟨⟩
    refine ⟨Bool.eq_false_iff.2 fun hblank => ?_, fun hhash => ?_⟩
    · rw [lexeme?_of_endsTokens (endsTokens_of_blank (.inl hblank))] at hlexed
      cases hlexed
    · rw [lexeme?_of_endsTokens (endsTokens_of_blank (.inr hhash))] at hlexed
      cases hlexed
  · rintro ⟨more, hmore⟩
    obtain ⟨rfl, hcs⟩ := List.cons.inj hmore
    have hcs : '/' :: more = cs ++ rest := hcs
    exact (hslash rfl '/' (by rw [← hcs]; rfl)).1 rfl
  · rintro ⟨more, hmore⟩
    obtain ⟨rfl, hcs⟩ := List.cons.inj hmore
    have hcs : '*' :: more = cs ++ rest := hcs
    exact (hslash rfl '*' (by rw [← hcs]; rfl)).2 rfl

end

theorem Reader.next_of_skip {r : Reader} {c : Char} {cs text : List Char} {l : Location} {kind : TokenKind}
    (hskip : skip .blanks r.location r.ahead = (⟨c :: cs, l⟩, none)) (hread : lexeme? (c :: cs) = some (kind, text)) :
    r.next = (.ok (some ⟨kind, String.ofList text, l⟩), ⟨(c :: cs).drop text.length, l.afterAll text⟩) := by
  simp only [Reader.next, hskip, hread]

/-- A token that nothing continues is read behind blanks and comments. -/
theorem Token.Lexed.next {t : Token} {before gap rest : List Char} (h : t.Lexed) (hmaximal : t.Maximal rest)
    (hgap : Trivia gap (t.text.toList ++ rest)) (hlocation : t.location = .behind (before ++ gap)) :
    Reader.next ⟨gap ++ t.text.toList ++ rest, .behind before⟩ =
      (.ok (some t), ⟨rest, .behind (before ++ gap ++ t.text.toList)⟩) := by
  have hskip := skip_trivia (l := .behind before) hgap (h.dense_append hmaximal)
  have hread := h.lexeme?_append hmaximal
  rw [Location.afterAll_behind, ← List.append_assoc] at hskip
  have hbehind : t.location.afterAll t.text.toList = .behind (before ++ gap ++ t.text.toList) := by
    rw [hlocation, Location.afterAll_behind]
  obtain ⟨c, cs, htext, -⟩ := h.exists_lexeme
  rw [htext, List.cons_append] at hskip hread
  rw [htext, Reader.next_of_skip hskip hread, ← hlocation, ← htext, String.ofList_toList, ← List.cons_append, ← htext,
    List.drop_left, hbehind]

/-- A text that is made of tokens is read as these tokens. -/
theorem Decomposed.tokens_eq {before cs : List Char} {ts : List Token} (h : Decomposed [] before ts cs) :
    Reader.tokens ⟨cs, .behind before⟩ = .ok (ts ++ [.stop (.behind (before ++ cs))]) := by
  induction h with
  | @gap before gap hgap =>
    have hskip := skip_trivia (l := .behind before) hgap ⟨nofun, by simp, by simp⟩
    rw [List.append_nil, Location.afterAll_behind] at hskip
    rw [Reader.tokens_eq, Reader.next]
    simp only [hskip]
    rfl
  | token hgap hlocation hlexed hmaximal _ ih =>
    rw [List.append_nil] at hgap hmaximal
    rw [Reader.tokens_eq, hlexed.next hmaximal hgap hlocation]
    simp only [ih, ← List.append_assoc]
    rfl

/-- What is read of a source text is the only way in which it is made of tokens. -/
theorem tokenize_eq_ok_iff {source : Source} {ts : List Token} :
    tokenize source = .ok (ts ++ [.stop (.behind source.chars)]) ↔ Decomposed [] [] ts source.chars := by
  constructor
  · intro h
    have hd := tokenize_decomposes source
    rw [h] at hd
    obtain ⟨ts', hts, hd⟩ := hd
    rwa [List.append_cancel_right hts]
  · exact fun h => h.tokens_eq

/-! ## Valid tokens -/

namespace Word

/-- Whether a token is spelled in digits. -/
def IsNumber (w : Word) : Prop := w.text.toList ≠ [] ∧ ∀ c ∈ w.text.toList, c.isDigit = true

instance (w : Word) : Decidable w.IsNumber :=
  decidable_of_iff (w.text.toList ≠ [] ∧ w.text.toList.all Char.isDigit = true) (by rw [List.all_eq_true]; rfl)

/-- Whether a token is spelled as a word. -/
def IsLettered (w : Word) : Prop :=
  w.text.toList.head?.any isWordStart = true ∧ ∀ c ∈ w.text.toList, isWordPart c = true

instance (w : Word) : Decidable w.IsLettered :=
  decidable_of_iff (w.text.toList.head?.any isWordStart = true ∧ w.text.toList.all isWordPart = true)
    (by rw [List.all_eq_true]; rfl)

/-- The tokens of the language: numbers, words and symbols, each with the kind that its text has. -/
inductive Valid (w : Word) : Prop
  | number : w.kind = .int → w.IsNumber → Valid w
  | lettered : w.kind = wordKind w.text → w.IsLettered → Valid w
  | operator : w.kind = .operator →
      w.text ∈ ["+", "-", "*", "/", "%", "=", "==", "!=", "<", "<=", ">", ">="] → Valid w
  | punctuation : w.kind = .punctuation → w.text ∈ [",", ":", ";"] → Valid w
  | parenthesis : w.kind = .parenthesis → w.text ∈ ["(", ")", "\x7b", "\x7d"] → Valid w

/-- Whether two tokens run together if nothing stands between them. A word goes on with a word or a number, and a
number with a number; `=`, `<` and `>` form a comparison with `=`; and `/` begins a comment with `/` or `*`. -/
def Clash (a b : Word) : Prop :=
  (a.IsLettered ∧ (b.IsLettered ∨ b.IsNumber)) ∨ (a.IsNumber ∧ b.IsNumber) ∨
    (a.text ∈ ["=", "<", ">"] ∧ b.text.toList.head? = some '=') ∨
    (a.text = "/" ∧ b.text.toList.head? ∈ [some '/', some '*'])

instance (a b : Word) : Decidable (a.Clash b) := inferInstanceAs (Decidable (_ ∨ _))

variable {w : Word}

theorem IsLettered.text_cons (h : w.IsLettered) :
    ∃ c cs, w.text.toList = c :: cs ∧ isWordStart c = true ∧ ∀ d ∈ cs, isWordPart d = true := by
  obtain ⟨hstart, hparts⟩ := h
  obtain ⟨c, hc, hstart⟩ := (Option.any_eq_true _ _).1 hstart
  obtain ⟨cs, htext⟩ := List.head?_eq_some_iff.1 hc
  rw [htext, List.forall_mem_cons] at hparts
  exact ⟨c, cs, htext, hstart, hparts.2⟩

theorem IsLettered.of_text {c : Char} {cs : List Char} (htext : w.text.toList = c :: cs)
    (hstart : isWordStart c = true) (hparts : ∀ d ∈ cs, isWordPart d = true) : w.IsLettered := by
  rw [IsLettered, htext]
  exact ⟨hstart, List.forall_mem_cons.2 ⟨isWordPart_of_isWordStart hstart, hparts⟩⟩

theorem Valid.lexeme? (h : w.Valid) : lexeme? w.text.toList = some (w.kind, w.text.toList) := by
  have hsymbol : ∀ (kind : TokenKind) (symbols : List String),
      (∀ x ∈ symbols, Syntax.lexeme? x.toList = some (kind, x.toList)) → w.kind = kind → w.text ∈ symbols →
      Syntax.lexeme? w.text.toList = some (w.kind, w.text.toList) := by
    rintro kind symbols hall hkind hmem
    rw [hkind]
    exact hall w.text hmem
  cases h with
  | number hkind hnumber =>
    obtain ⟨c, cs, htext⟩ := List.exists_cons_of_ne_nil hnumber.1
    have hdigits := hnumber.2
    rw [htext, List.forall_mem_cons] at hdigits
    rw [htext, lexeme?_cons, if_pos hdigits.1, List.takeWhile_eq_self_iff.2 hdigits.2, hkind]
  | lettered hkind hlettered =>
    obtain ⟨c, cs, htext, hstart, hparts⟩ := hlettered.text_cons
    have hdigit : ¬c.isDigit = true := fun hdigit => by
      rw [isWordStart_of_isDigit hdigit] at hstart
      cases hstart
    rw [htext, lexeme?_cons, if_neg hdigit, if_pos hstart, List.takeWhile_eq_self_iff.2 hparts, ← htext,
      String.ofList_toList, hkind]
  | operator hkind htext => exact hsymbol _ _ (by decide) hkind htext
  | punctuation hkind htext => exact hsymbol _ _ (by decide) hkind htext
  | parenthesis hkind htext => exact hsymbol _ _ (by decide) hkind htext

/-- A token is valid if it is what its characters are read as. -/
theorem valid_iff : w.Valid ↔ Syntax.lexeme? w.text.toList = some (w.kind, w.text.toList) := by
  refine ⟨Valid.lexeme?, fun h => ?_⟩
  obtain ⟨c, cs, htext⟩ := List.exists_cons_of_length_pos (lexeme?_length_pos h)
  have hofList : w.text = String.ofList (c :: cs) := by rw [← htext, String.ofList_toList]
  rw [htext] at h
  cases Lexeme.of_lexeme? h with
  | number hkind hdigit hrun =>
    refine .number hkind ⟨by rw [htext]; exact List.cons_ne_nil c cs, ?_⟩
    rw [htext]
    exact List.forall_mem_cons.2 ⟨hdigit, hrun⟩
  | word hkind _ hstart hrun => exact .lettered (by rw [hkind, hofList]) (.of_text htext hstart hrun)
  | comparison hkind _ _ hopens hcs =>
    refine .operator hkind ?_
    have hc : c ∈ ['=', '!', '<', '>'] := List.contains_iff_mem.1 hopens
    simp only [List.mem_cons, List.not_mem_nil, or_false] at hc
    rw [hofList, hcs]
    rcases hc with rfl | rfl | rfl | rfl <;> decide
  | symbol hkind _ _ hcs =>
    obtain rfl := hcs
    have hmem : ∀ symbols : List Char, symbols.contains c = true → w.text ∈ symbols.map Char.toString := by
      intro symbols hc
      rw [hofList]
      exact List.mem_map.2 ⟨c, List.contains_iff_mem.1 hc, by rw [Char.toString_eq_singleton]; rfl⟩
    have hoperators : ['+', '-', '*', '/', '%', '=', '<', '>'].map Char.toString ⊆
        ["+", "-", "*", "/", "%", "=", "==", "!=", "<", "<=", ">", ">="] := by
      decide
    unfold symbolKind? at hkind
    split at hkind
    · rename_i hc
      exact .parenthesis (Option.some.inj hkind).symm (hmem _ hc)
    · split at hkind
      · rename_i hc
        exact .punctuation (Option.some.inj hkind).symm (hmem _ hc)
      · split at hkind
        · rename_i hc
          exact .operator (Option.some.inj hkind).symm (hoperators (hmem _ hc))
        · cases hkind

/-- What a token begins with tells whether it is a number or a word. -/
theorem Valid.head (h : w.Valid) {c : Char} (hc : c ∈ w.text.toList.head?) :
    (c.isDigit = true → w.IsNumber) ∧ (isWordStart c = true → w.IsLettered) ∧
      (isWordPart c = true → w.IsLettered ∨ w.IsNumber) := by
  -- no symbol begins like a number or a word
  have hsymbol : ∀ symbols : List String,
      (symbols.all fun x => x.toList.head?.all fun d => !d.isDigit && !isWordPart d) = true →
      w.text ∈ symbols → c.isDigit = false ∧ isWordPart c = false := by
    intro symbols hall hmem
    have hd := List.all_eq_true.1 hall w.text hmem
    rw [Option.mem_def.1 hc] at hd
    simpa using hd
  have hnone : c.isDigit = false ∧ isWordPart c = false →
      (c.isDigit = true → w.IsNumber) ∧ (isWordStart c = true → w.IsLettered) ∧
        (isWordPart c = true → w.IsLettered ∨ w.IsNumber) := by
    rintro ⟨hdigit, hpart⟩
    refine ⟨fun h => ?_, fun h => ?_, fun h => ?_⟩
    · rw [hdigit] at h; cases h
    · rw [isWordPart_of_isWordStart h] at hpart; cases hpart
    · rw [hpart] at h; cases h
  cases h with
  | number _ hnumber =>
    refine ⟨fun _ => hnumber, fun hstart => ?_, fun _ => .inr hnumber⟩
    rw [isWordStart_of_isDigit (hnumber.2 c (List.mem_of_mem_head? hc))] at hstart
    cases hstart
  | lettered _ hlettered =>
    refine ⟨fun hdigit => ?_, fun _ => hlettered, fun _ => .inl hlettered⟩
    obtain ⟨d, ds, htext, hstart, -⟩ := hlettered.text_cons
    rw [htext] at hc
    cases hc
    rw [isWordStart_of_isDigit hdigit] at hstart
    cases hstart
  | operator _ htext => exact hnone (hsymbol _ (by decide) htext)
  | punctuation _ htext => exact hnone (hsymbol _ (by decide) htext)
  | parenthesis _ htext => exact hnone (hsymbol _ (by decide) htext)

theorem Valid.isNumber (h : w.Valid) (hkind : w.kind = .int) : w.IsNumber := by
  cases h with
  | number _ hnumber => exact hnumber
  | lettered hk => exact absurd (hk.symm.trans hkind) (wordKind_ne_int _)
  | operator hk | punctuation hk | parenthesis hk => cases hk.symm.trans hkind

end Word

/-! ## Separators -/

instance (cs : List Char) : Decidable (Closes cs) := inferInstanceAs (Decidable (_ <:+: _))

/-- Blanks and comments that are closed: those up to the end of a line by a line feed. -/
inductive Filler : List Char → Prop
  | nil : Filler []
  | blank {c : Char} {gap : List Char} : isBlank c = true → Filler gap → Filler (c :: gap)
  | line {opening body gap : List Char} : opening ∈ [['/', '/'], ['#']] → '\n' ∉ body → Filler gap →
      Filler (opening ++ body ++ '\n' :: gap)
  | block {body gap : List Char} : ¬Closes (body ++ ['*']) → Filler gap →
      Filler ('/' :: '*' :: body ++ ['*', '/'] ++ gap)

theorem Filler.trivia {gap : List Char} (h : Filler gap) (rest : List Char) : Trivia gap rest := by
  induction h with
  | nil => exact .nil
  | @blank c gap hblank _ ih =>
    have hpiece : Trivium [c] (gap ++ rest) := .blank hblank
    exact .cons hpiece ih
  | @line opening body gap hopening hbody _ ih =>
    have hfeed : Trivium ['\n'] (gap ++ rest) := .blank (by decide)
    refine .cons (.line hopening hbody ?_) (.cons hfeed ih)
    rintro _ ⟨⟩
    rfl
  | block hbody _ ih => exact .cons (.block hbody) ih

/-- What can stand between two tokens: closed blanks and comments that begin with a blank, or nothing if the tokens
do not run together. -/
def Separates (a : Word) (gap : List Char) (b : Word) : Prop :=
  Filler gap ∧ ((∃ c ∈ gap.head?, isBlank c = true) ∨ gap = [] ∧ ¬a.Clash b)

/-- Tokens with separators between them. -/
inductive Separated : List Word → List (List Char) → Prop
  | nil : Separated [] []
  | single {w : Word} : Separated [w] []
  | cons {a b : Word} {ws : List Word} {gap : List Char} {gaps : List (List Char)} :
      Separates a gap b → Separated (b :: ws) gaps → Separated (a :: b :: ws) (gap :: gaps)

/-- The text of tokens that are written with separators between them. -/
def join : List Word → List (List Char) → List Char
  | [], _ => []
  | w :: _, [] => w.text.toList
  | w :: ws, gap :: gaps => w.text.toList ++ gap ++ join ws gaps

section

variable {a b : Word} {ws : List Word} {gap cs : List Char} {gaps : List (List Char)} {l : Location}

/-- A separator ends the token before it. -/
theorem Separates.maximal (h : Separates a gap b) (ha : a.Valid) (hb : b.Valid) :
    Token.Maximal ⟨a.kind, a.text, l⟩ (gap ++ (b.text.toList ++ cs)) := by
  obtain ⟨-, ⟨c, hc, hblank⟩ | ⟨rfl, hclash⟩⟩ := h
  · obtain ⟨gap, rfl⟩ := List.head?_eq_some_iff.1 hc
    have hends := endsTokens_of_blank (.inl hblank)
    simp only [endsTokens, Bool.and_eq_true, Bool.not_eq_true', Option.isNone_iff_eq_none] at hends
    obtain ⟨⟨⟨hdigit, hpart⟩, hopens⟩, hsymbol⟩ := hends
    refine ⟨fun _ => ?_, fun _ => ?_, fun _ => ?_, fun _ => ?_⟩
    · rintro _ ⟨⟩
      exact hdigit
    · rintro _ ⟨⟩
      exact hpart
    · rintro ⟨⟩
      cases hopens
    · rintro _ ⟨⟩
      constructor <;> rintro rfl <;> cases hsymbol
  · obtain ⟨d, ds, htext⟩ := List.exists_cons_of_length_pos (lexeme?_length_pos hb.lexeme?)
    have hd : b.text.toList.head? = some d := by rw [htext]; rfl
    have hhead := hb.head (Option.mem_def.2 hd)
    have hrest : (b.text.toList ++ cs).head? = some d := by rw [htext]; rfl
    rw [List.nil_append]
    refine ⟨fun hkind => ?_, fun hword => ?_, fun hsymbol he => ?_, fun hslash => ?_⟩
    · rintro c hc
      cases hrest.symm.trans hc
      refine Bool.eq_false_iff.2 fun hdigit => hclash ?_
      exact .inr (.inl ⟨ha.isNumber hkind, hhead.1 hdigit⟩)
    · rintro c hc
      cases hrest.symm.trans hc
      refine Bool.eq_false_iff.2 fun hpart => hclash ?_
      obtain ⟨e, he, hstart⟩ := (Option.any_eq_true _ _).1 hword
      exact .inl ⟨(ha.head he).2.1 hstart, hhead.2.2 hpart⟩
    · exact hclash (.inr (.inr (.inl ⟨hsymbol, hd.trans (hrest.symm.trans he)⟩)))
    · rintro c hc
      cases hrest.symm.trans hc
      refine ⟨?_, ?_⟩
      · rintro rfl
        exact hclash (.inr (.inr (.inr ⟨hslash, by rw [hd]; decide⟩)))
      · rintro rfl
        exact hclash (.inr (.inr (.inr ⟨hslash, by rw [hd]; decide⟩)))

/-- A valid token that nothing continues, behind blanks and comments and before other tokens. -/
theorem Word.Valid.decomposed {w : Word} (hw : w.Valid) {before : List Char} {ts : List Token}
    (hgap : Filler gap) (hmaximal : Token.Maximal ⟨w.kind, w.text, .behind (before ++ gap)⟩ cs)
    (h : Decomposed [] (before ++ gap ++ w.text.toList) ts cs) :
    ∃ t, Decomposed [] before (t :: ts) (gap ++ (w.text.toList ++ cs)) ∧ t.word = w := by
  have hmaximal' : Token.Maximal ⟨w.kind, w.text, .behind (before ++ gap)⟩ (cs ++ []) := by
    rwa [List.append_nil]
  refine ⟨⟨w.kind, w.text, .behind (before ++ gap)⟩, ?_, rfl⟩
  rw [← List.append_assoc]
  exact .token (hgap.trivia _) rfl hw.lexeme? hmaximal' h

/-- Tokens that are written with separators, behind closed blanks and comments, make up what is written. -/
theorem Separated.decomposed (h : Separated ws gaps) (hws : ∀ w ∈ ws, w.Valid) (before : List Char)
    (hgap : Filler gap) : ∃ ts, Decomposed [] before ts (gap ++ join ws gaps) ∧ ts.map Token.word = ws := by
  induction h generalizing before gap with
  | nil =>
    rw [join, List.append_nil]
    exact ⟨[], .gap (hgap.trivia []), rfl⟩
  | @single w =>
    have hend : Token.Maximal ⟨w.kind, w.text, .behind (before ++ gap)⟩ [] :=
      ⟨fun _ => nofun, fun _ => nofun, fun _ => nofun, fun _ => nofun⟩
    obtain ⟨t, ht, hw⟩ := (hws w List.mem_cons_self).decomposed hgap hend (.gap .nil)
    rw [List.append_nil] at ht
    exact ⟨[t], ht, congrArg ([·]) hw⟩
  | @cons a b ws between gaps hseparates _ ih =>
    obtain ⟨ha, hbws⟩ := List.forall_mem_cons.1 hws
    obtain ⟨ts, hts, hwords⟩ := ih hbws (before ++ gap ++ a.text.toList) hseparates.1
    have hjoin : ∃ cs, join (b :: ws) gaps = b.text.toList ++ cs := by
      cases gaps with
      | nil => exact ⟨[], (List.append_nil _).symm⟩
      | cons more gaps => exact ⟨more ++ join ws gaps, List.append_assoc ..⟩
    obtain ⟨cs, hcs⟩ := hjoin
    have hmaximal : Token.Maximal ⟨a.kind, a.text, .behind (before ++ gap)⟩ (between ++ (b.text.toList ++ cs)) :=
      hseparates.maximal ha (hbws b List.mem_cons_self)
    rw [← hcs] at hmaximal
    obtain ⟨t, ht, hw⟩ := ha.decomposed hgap hmaximal hts
    rw [join, List.append_assoc]
    exact ⟨t :: ts, ht, by rw [List.map_cons, hw, hwords]⟩

end

/-- Tokens can be read back from what is written. Whatever closed blanks and comments stand between them, each time
with a blank in front, and with nothing between tokens that do not run together, the text is read as exactly these
tokens, and then there is the end of the text. -/
theorem tokenize_join {ws : List Word} {gaps : List (List Char)} (hws : ∀ w ∈ ws, w.Valid)
    (h : Separated ws gaps) {source : Source} (hsource : source.chars = join ws gaps) :
    ∃ ts, tokenize source = .ok ts ∧ ts.map Token.word = ws ++ [.stop] := by
  obtain ⟨ts, hd, hts⟩ := h.decomposed hws [] .nil
  rw [List.nil_append, ← hsource] at hd
  exact ⟨_, tokenize_eq_ok_iff.2 hd, by rw [List.map_append, hts]; rfl⟩

/-- A comparison that is written with as little between its tokens as possible, and with comments. -/
theorem tokenize_join_comparison :
    ∃ ts, tokenize ⟨"not x<=10 # ten\n/\n/* two */2", .memory⟩ = .ok ts ∧
      ts.map Token.word = [⟨.operator, "not"⟩, ⟨.identifier, "x"⟩, ⟨.operator, "<="⟩, ⟨.int, "10"⟩, ⟨.operator, "/"⟩,
        ⟨.int, "2"⟩] ++ [.stop] := by
  have hline : Filler (['#'] ++ " ten".toList ++ ['\n']) := .line (by decide) (by decide) .nil
  have hten : Filler " # ten\n".toList := .blank (by decide) hline
  have hblock : Filler (['/', '*'] ++ " two ".toList ++ ['*', '/'] ++ []) := .block (by decide) .nil
  have htwo : Filler "\n/* two */".toList := .blank (by decide) hblock
  have hseparated : Separated [⟨.operator, "not"⟩, ⟨.identifier, "x"⟩, ⟨.operator, "<="⟩, ⟨.int, "10"⟩,
      ⟨.operator, "/"⟩, ⟨.int, "2"⟩] [[' '], [], [], " # ten\n".toList, "\n/* two */".toList] := by
    refine .cons ⟨.blank (by decide) .nil, .inl ⟨' ', rfl, by decide⟩⟩ ?_
    refine .cons ⟨.nil, .inr ⟨rfl, by decide⟩⟩ ?_
    refine .cons ⟨.nil, .inr ⟨rfl, by decide⟩⟩ ?_
    refine .cons ⟨hten, .inl ⟨' ', rfl, by decide⟩⟩ ?_
    exact .cons ⟨htwo, .inl ⟨'\n', rfl, by decide⟩⟩ .single
  refine tokenize_join ?_ hseparated (by decide)
  simp only [List.forall_mem_cons, List.not_mem_nil, false_implies, implies_true, and_true]
  refine ⟨.lettered ?_ ?_, .lettered ?_ ?_, .operator rfl ?_, .number rfl ?_, .operator rfl ?_, .number rfl ?_⟩ <;>
    decide

end Exprc.Syntax

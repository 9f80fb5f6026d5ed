/-
A text is its tokens and what stands between them. Reading a text loses nothing: between two tokens there are
blanks and comments, every token stands where its place says, and none could have been longer. Where reading
fails this is so for the text before the fault, and at the fault there is a comment that is never closed, or
a character with which neither a token nor a comment begins.
-/
import Exprc.Proofs.Syntax.Tokens

namespace Exprc

/-! ## Places -/

namespace Location

/-- The place behind a text. Its line is one more than the number of line feeds, its column one more than the
number of characters behind the last of them. -/
def behind (cs : List Char) : Location :=
  ⟨cs.count '\n' + 1, (cs.rtakeWhile (· ≠ '\n')).length + 1⟩

theorem after_behind (cs : List Char) (c : Char) : (behind cs).after c = behind (cs ++ [c]) := by
  unfold after behind
  by_cases hc : c = '\n'
  · subst hc
    simp
  · simp [hc]

theorem afterAll_behind (cs ds : List Char) : (behind cs).afterAll ds = behind (cs ++ ds) := by
  induction ds generalizing cs with
  | nil => rw [List.append_nil]; rfl
  | cons d ds ih =>
    show ((behind cs).after d).afterAll ds = _
    rw [after_behind, ih, List.append_assoc]
    rfl

end Location

namespace Syntax

open Text

/-! ## Between tokens -/

/-- A text closes a comment if there is a `*/` in it. -/
def Closes (cs : List Char) : Prop := ['*', '/'] <:+: cs

/-- A blank or a comment with the text behind it. A comment that `//` or `#` opens goes on to the end of the
line, and one that `/*` opens to the next `*/`. -/
inductive Trivium : List Char → List Char → Prop
  | blank {c : Char} {rest : List Char} : isBlank c = true → Trivium [c] rest
  | line {opening body rest : List Char} : opening ∈ [['/', '/'], ['#']] → '\n' ∉ body →
      (∀ c ∈ rest.head?, c = '\n') → Trivium (opening ++ body) rest
  | block {body rest : List Char} : ¬Closes (body ++ ['*']) →
      Trivium ('/' :: '*' :: body ++ ['*', '/']) rest

/-- Blanks and comments one after the other, with the text behind them. -/
inductive Trivia : List Char → List Char → Prop
  | nil {rest : List Char} : Trivia [] rest
  | cons {piece gap rest : List Char} : Trivium piece (gap ++ rest) → Trivia gap rest →
      Trivia (piece ++ gap) rest

/-- No blank and no comment begins where a text begins. -/
structure Dense (cs : List Char) : Prop where
  blank : ∀ c ∈ cs.head?, isBlank c = false ∧ c ≠ '#'
  line : ¬['/', '/'] <+: cs
  block : ¬['/', '*'] <+: cs

/-- A comment to the end of the line is skipped with the rest of its line. -/
theorem skip_lineComment (l : Location) (cs : List Char) :
    skip .lineComment l cs =
      skip .blanks (l.afterAll (cs.takeWhile (· ≠ '\n'))) (cs.dropWhile (· ≠ '\n')) := by
  induction cs generalizing l with
  | nil => rfl
  | cons c cs ih =>
    rw [skip]
    by_cases hc : c = '\n'
    · subst hc
      rfl
    · rw [if_neg hc, ih, List.takeWhile_cons_of_pos (by simp [hc]), List.dropWhile_cons_of_pos (by simp [hc])]
      rfl

/-- A comment that `/*` opened goes on to the next `*/`, or for ever. -/
theorem skip_blockComment (opened l : Location) (cs : List Char) :
    (¬Closes cs ∧ skip (.blockComment opened) l cs = (⟨[], l.afterAll cs⟩, some opened)) ∨
      ∃ body rest, cs = body ++ '*' :: '/' :: rest ∧ ¬Closes (body ++ ['*']) ∧
        skip (.blockComment opened) l cs = skip .blanks (l.afterAll (body ++ ['*', '/'])) rest := by
  induction cs generalizing l with
  | nil => exact .inl ⟨by simp [Closes], rfl⟩
  | cons c cs ih =>
    by_cases hclose : ['*', '/'] <+: c :: cs
    · obtain ⟨rest, hrest⟩ := hclose
      rw [← hrest]
      exact .inr ⟨[], rest, rfl, fun h => absurd h.length_le (by decide), rfl⟩
    · have hskip : skip (.blockComment opened) l (c :: cs) = skip (.blockComment opened) (l.after c) cs := by
        rw [skip]
        rintro cs' rfl rfl
        exact hclose ⟨cs', rfl⟩
      rw [hskip]
      obtain ⟨hopen, h⟩ | ⟨body, rest, rfl, hbody, h⟩ := ih (l.after c)
      · refine .inl ⟨fun hc => ?_, h⟩
        obtain hc | hc := List.infix_cons_iff.1 hc
        · exact hclose hc
        · exact hopen hc
      · refine .inr ⟨c :: body, rest, rfl, fun hc => ?_, h⟩
        obtain hc | hc := List.infix_cons_iff.1 hc
        · refine hclose (hc.trans ?_)
          simp
        · exact hbody hc

/-- What is skipped of a line is a comment. -/
theorem Trivium.of_line {opening : List Char} (h : opening ∈ [['/', '/'], ['#']]) (cs : List Char) :
    Trivium (opening ++ cs.takeWhile (· ≠ '\n')) (cs.dropWhile (· ≠ '\n')) := by
  refine .line h (fun hmem => ?_) fun c hc => ?_
  · simpa using List.mem_takeWhile_imp hmem
  · have hhead := List.head?_dropWhile_not (· ≠ '\n') cs
    rw [Option.mem_def.1 hc] at hhead
    simpa using hhead

/-- What is skipped before a token is blanks and comments, up to where none begins or to a comment that is
never closed. -/
theorem skip_blanks (l : Location) (cs : List Char) :
    ∃ gap rest, cs = gap ++ rest ∧ Trivia gap rest ∧
      ((Dense rest ∧ skip .blanks l cs = (⟨rest, l.afterAll gap⟩, none)) ∨
        ∃ body r, rest = '/' :: '*' :: body ∧ ¬Closes body ∧
          skip .blanks l cs = (r, some (l.afterAll gap))) := by
  -- by induction on the length, since a comment is skipped as a whole
  induction hn : cs.length using Nat.strong_induction_on generalizing l cs with
  | _ n ih =>
    subst hn
    -- what is skipped behind a first blank or comment is known
    have hmore : ∀ piece more, cs = piece ++ more → 0 < piece.length → Trivium piece more →
        skip .blanks l cs = skip .blanks (l.afterAll piece) more →
        ∃ gap rest, cs = gap ++ rest ∧ Trivia gap rest ∧
          ((Dense rest ∧ skip .blanks l cs = (⟨rest, l.afterAll gap⟩, none)) ∨
            ∃ body r, rest = '/' :: '*' :: body ∧ ¬Closes body ∧
              skip .blanks l cs = (r, some (l.afterAll gap))) := by
      rintro piece more rfl hpos hpiece hskip
      obtain ⟨gap, rest, rfl, hgap, h⟩ :=
        ih more.length (by rw [List.length_append]; omega) (l.afterAll piece) more rfl
      refine ⟨piece ++ gap, rest, (List.append_assoc ..).symm, .cons hpiece hgap, ?_⟩
      rw [hskip, Location.afterAll_append]
      exact h
    by_cases hline : ['/', '/'] <+: cs
    · obtain ⟨cs, rfl⟩ := hline
      refine hmore (['/', '/'] ++ cs.takeWhile (· ≠ '\n')) _ ?_ (by simp) (.of_line (by simp) cs) ?_
      · rw [List.append_assoc, List.takeWhile_append_dropWhile]
      · rw [Location.afterAll_append]
        exact skip_lineComment _ cs
    by_cases hblock : ['/', '*'] <+: cs
    · obtain ⟨cs, rfl⟩ := hblock
      obtain ⟨hopen, h⟩ | ⟨body, rest, rfl, hbody, h⟩ :=
        skip_blockComment l ((l.after '/').after '*') cs
      · exact ⟨[], _, rfl, .nil, .inr ⟨cs, _, rfl, hopen, h⟩⟩
      · exact hmore ('/' :: '*' :: body ++ ['*', '/']) rest (by simp) (by simp) (.block hbody) h
    cases cs with
    | nil => exact ⟨[], [], rfl, .nil, .inl ⟨⟨nofun, hline, hblock⟩, rfl⟩⟩
    | cons c cs =>
      by_cases hhash : c = '#'
      · subst hhash
        refine hmore (['#'] ++ cs.takeWhile (· ≠ '\n')) _ ?_ (by simp) (.of_line (by simp) cs) ?_
        · rw [List.append_assoc, List.takeWhile_append_dropWhile]
          rfl
        · rw [Location.afterAll_append]
          exact skip_lineComment _ cs
      have hskip : skip .blanks l (c :: cs) =
          if isBlank c then skip .blanks (l.after c) cs else (⟨c :: cs, l⟩, none) := by
        rw [skip]
        · rintro cs' rfl rfl
          exact hline ⟨cs', rfl⟩
        · rintro cs' rfl rfl
          exact hblock ⟨cs', rfl⟩
        · exact hhash
      by_cases hblank : isBlank c = true
      · rw [if_pos hblank] at hskip
        exact hmore [c] cs rfl (by simp) (.blank hblank) hskip
      · rw [if_neg hblank] at hskip
        refine ⟨[], c :: cs, rfl, .nil, .inl ⟨⟨?_, hline, hblock⟩, hskip⟩⟩
        rintro _ ⟨⟩
        exact ⟨Bool.not_eq_true _ ▸ hblank, hhash⟩

/-! ## Tokens -/

/-- What stands behind a token does not continue it. -/
structure Token.Maximal (t : Token) (rest : List Char) : Prop where
  number : t.kind = .int → ∀ c ∈ rest.head?, c.isDigit = false
  word : t.text.toList.head?.any isWordStart = true → ∀ c ∈ rest.head?, isWordPart c = false
  comparison : t.text ∈ ["=", "<", ">"] → rest.head? ≠ some '='
  slash : t.text = "/" → ∀ c ∈ rest.head?, c ≠ '/' ∧ c ≠ '*'

theorem wordKind_ne_int (x : String) : wordKind x ≠ .int := by
  obtain ⟨w, hw, -⟩ | ⟨hw, -⟩ | ⟨hw, -⟩ | hw := wordKind_cases x <;> rw [hw] <;> simp

theorem isWordStart_of_isDigit {c : Char} (h : c.isDigit = true) : isWordStart c = false := by
  simp only [Char.isDigit, isWordStart, Char.isAlpha, Char.isUpper, Char.isLower, Bool.and_eq_true,
    decide_eq_true_eq] at h ⊢
  have hne : c ≠ '_' := by
    rintro rfl
    exact absurd h (by decide)
  simp only [UInt32.le_iff_toNat_le] at h ⊢
  simp [hne] at h ⊢
  omega

theorem head?_dropWhile {p : Char → Bool} {cs : List Char} :
    ∀ c ∈ (cs.dropWhile p).head?, p c = false := by
  intro c hc
  have hhead := List.head?_dropWhile_not p cs
  rw [Option.mem_def.1 hc] at hhead
  simpa using hhead

/-- A token of one character is that character. -/
theorem symbol_characters {c : Char} {cs : List Char} (symbols : List Char)
    (h : String.ofList (c :: cs) ∈ symbols.map Char.toString) : c ∈ symbols ∧ cs = [] := by
  obtain ⟨d, hd, he⟩ := List.mem_map.1 h
  have hcs := congrArg String.toList he
  simp only [Char.toString_eq_singleton, String.toList_singleton, String.toList_ofList,
    List.cons.injEq] at hcs
  obtain ⟨rfl, rfl⟩ := hcs
  exact ⟨hd, rfl⟩

section

variable {c : Char} {cs rest : List Char} {kind : TokenKind} {l : Location}

/-- What begins with a digit or as a word is no symbol. -/
theorem Token.Maximal.of_run (hc : c.isDigit = true ∨ isWordStart c = true)
    (hnumber : kind = .int → ∀ d ∈ rest.head?, d.isDigit = false)
    (hword : isWordStart c = true → ∀ d ∈ rest.head?, isWordPart d = false) :
    Token.Maximal ⟨kind, String.ofList (c :: cs), l⟩ rest := by
  have hsymbol : ∀ symbols : List Char, symbols.all (fun d => !d.isDigit && !isWordStart d) = true →
      String.ofList (c :: cs) ∉ symbols.map Char.toString := by
    intro symbols hall hmem
    have hd := List.all_eq_true.1 hall c (symbol_characters symbols hmem).1
    simp only [Bool.and_eq_true, Bool.not_eq_true'] at hd
    obtain hc | hc := hc
    · rw [hd.1] at hc; cases hc
    · rw [hd.2] at hc; cases hc
  refine ⟨hnumber, fun h => hword ?_, fun h => ?_, fun h => ?_⟩
  · simpa using h
  · exact absurd h (hsymbol ['=', '<', '>'] (by decide))
  · exact absurd (List.mem_singleton.2 h) (hsymbol ['/'] (by decide))

/-- The characters of the token that a text begins with are as many as can be. -/
theorem maximal_of_lexeme? {text : List Char} (h : lexeme? cs = some (kind, text)) (hd : Dense cs) :
    ∃ rest, cs = text ++ rest ∧ Token.Maximal ⟨kind, String.ofList text, l⟩ rest := by
  cases cs with
  | nil => cases h
  | cons c cs =>
    rw [lexeme?_cons] at h
    split at h
    · rename_i hdigit
      cases h
      refine ⟨cs.dropWhile Char.isDigit, by simp, .of_run (.inl hdigit) (fun _ => head?_dropWhile) ?_⟩
      exact fun hstart => absurd hstart (by simp [isWordStart_of_isDigit hdigit])
    · rename_i hdigit
      split at h
      · rename_i hword
        cases h
        refine ⟨cs.dropWhile isWordPart, by simp, .of_run (.inr hword) ?_ fun _ => head?_dropWhile⟩
        exact fun hkind => absurd hkind (wordKind_ne_int _)
      · rename_i hword
        have hstart : (some c).any isWordStart = true → False := by simpa using hword
        split at h
        · rename_i hcomparison
          cases h
          obtain ⟨-, he⟩ := Bool.and_eq_true_iff.1 hcomparison
          obtain ⟨cs, rfl⟩ := List.head?_eq_some_iff.1 (eq_of_beq he)
          refine ⟨cs, rfl, nofun, fun h => ?_, fun h => ?_, fun h => ?_⟩
          · rw [String.toList_ofList] at h
            exact (hstart h).elim
          · cases (symbol_characters ['=', '<', '>'] h).2
          · cases (symbol_characters ['/'] (List.mem_singleton.2 h)).2
        · rename_i hcomparison
          obtain ⟨kind', hkind, he⟩ := Option.map_eq_some_iff.1 h
          cases he
          refine ⟨cs, rfl, ?_, fun h => ?_, fun h he => ?_, fun h d hcs => ?_⟩
          · rintro rfl
            exact absurd (symbolKind?_mem hkind) (by decide)
          · rw [String.toList_ofList] at h
            exact (hstart h).elim
          · obtain ⟨hc, -⟩ := symbol_characters ['=', '<', '>'] h
            have hopens : ['=', '<', '>'].all opensComparison = true := by decide
            exact hcomparison (by rw [List.all_eq_true.1 hopens c hc, he]; rfl)
          · obtain rfl := List.mem_singleton.1 (symbol_characters ['/'] (List.mem_singleton.2 h)).1
            obtain ⟨cs, rfl⟩ := List.head?_eq_some_iff.1 hcs
            refine ⟨?_, ?_⟩
            · rintro rfl
              exact hd.line ⟨cs, rfl⟩
            · rintro rfl
              exact hd.block ⟨cs, rfl⟩

end

/-! ## Decompositions -/

/-- The text behind `before` and before `rest` is made of tokens, with blanks and comments before, between
and behind them. Each token is what its characters are read as, stands at its place, and is not continued by
what stands behind it. -/
inductive Decomposed (rest : List Char) : List Char → List Token → List Char → Prop
  | gap {before gap : List Char} : Trivia gap rest → Decomposed rest before [] gap
  | token {before gap more : List Char} {t : Token} {ts : List Token} :
      Trivia gap (t.text.toList ++ (more ++ rest)) → t.location = .behind (before ++ gap) → t.Lexed →
      t.Maximal (more ++ rest) → Decomposed rest (before ++ gap ++ t.text.toList) ts more →
      Decomposed rest before (t :: ts) (gap ++ t.text.toList ++ more)

/-- With a text no token and neither a blank nor a comment begins. -/
def Stray (cs : List Char) : Prop :=
  (∀ t : Token, t.Lexed → ¬t.text.toList <+: cs) ∧
    ∀ piece rest, Trivium piece rest → piece ++ rest ≠ cs

/-- Why a text at some place is not read: a comment is opened there that is never closed, or there is a
character with which nothing begins. -/
inductive Refused (l : Location) : List Char → Fault LexError → Prop
  | unclosed {body : List Char} : ¬Closes body →
      Refused l ('/' :: '*' :: body) (.at l .unclosedComment)
  | stray {c : Char} {cs : List Char} : Stray (c :: cs) → Refused l (c :: cs) (.at l (.strayCharacter c))

/-- What is read of a text behind another one: the tokens of which it is made and then the stop token, or
the fault at which such tokens end. -/
inductive Decomposes (before : List Char) : List Char → Except (Fault LexError) (List Token) → Prop
  | tokens {cs : List Char} {ts : List Token} : Decomposed [] before ts cs →
      Decomposes before cs (.ok (ts ++ [.stop (.behind (before ++ cs))]))
  | fault {text rest : List Char} {ts : List Token} {fault : Fault LexError} :
      Decomposed rest before ts text → Refused (.behind (before ++ text)) rest fault →
      Decomposes before (text ++ rest) (.error fault)

section

variable {before cs : List Char}

/-- With fewer characters behind it no character begins a token that it would not begin else. -/
theorem lexeme?_eq_none_of_append {c : Char} {rest : List Char} (h : lexeme? (c :: (cs ++ rest)) = none) :
    lexeme? (c :: cs) = none := by
  rw [lexeme?_cons] at h ⊢
  split at h
  · cases h
  · split at h
    · cases h
    · split at h
      · cases h
      · rename_i hdigit hword hcomparison
        rw [if_neg hdigit, if_neg hword, if_neg, h]
        refine fun hopens => hcomparison ?_
        obtain ⟨hc, he⟩ := Bool.and_eq_true_iff.1 hopens
        obtain ⟨cs, rfl⟩ := List.head?_eq_some_iff.1 (eq_of_beq he)
        rw [hc]
        rfl

/-- Where blanks end and no token begins, nothing begins. -/
theorem stray_of_lexeme? {c : Char} (h : lexeme? (c :: cs) = none) (hd : Dense (c :: cs)) :
    Stray (c :: cs) := by
  refine ⟨fun t ht => ?_, fun piece rest hpiece he => ?_⟩
  · rintro ⟨rest, he⟩
    have hlexed : lexeme? t.text.toList = some (t.kind, t.text.toList) := ht
    cases htext : t.text.toList with
    | nil => rw [htext] at hlexed; cases hlexed
    | cons d ds =>
      rw [htext] at he hlexed
      obtain ⟨rfl, rfl⟩ := List.cons.inj he
      rw [lexeme?_eq_none_of_append h] at hlexed
      cases hlexed
  · cases hpiece with
    | blank hblank =>
      obtain ⟨rfl, rfl⟩ := List.cons.inj he
      exact absurd hblank (by simp [(hd.blank _ rfl).1])
    | line hopening =>
      simp only [List.mem_cons, List.not_mem_nil, or_false] at hopening
      obtain rfl | rfl := hopening
      · exact hd.line ⟨_, (List.append_assoc ..).symm.trans he⟩
      · obtain ⟨rfl, rfl⟩ := List.cons.inj he
        exact (hd.blank _ rfl).2 rfl
    | block => exact hd.block ⟨_, he⟩

/-- What comes of looking for one token. -/
inductive NextRead (before : List Char) :
    List Char → Except (Fault LexError) (Option Token) × Reader → Prop
  | stop {gap : List Char} : Trivia gap [] →
      NextRead before gap (.ok none, ⟨[], .behind (before ++ gap)⟩)
  | token {gap text rest : List Char} {t : Token} : t.text.toList = text → Trivia gap (text ++ rest) →
      t.location = .behind (before ++ gap) → t.Lexed → t.Maximal rest →
      NextRead before (gap ++ text ++ rest) (.ok (some t), ⟨rest, .behind (before ++ gap ++ text)⟩)
  | fault {gap rest : List Char} {fault : Fault LexError} {r : Reader} : Trivia gap rest →
      Refused (.behind (before ++ gap)) rest fault → NextRead before (gap ++ rest) (.error fault, r)

theorem Reader.nextRead (before cs : List Char) :
    NextRead before cs (Reader.next ⟨cs, .behind before⟩) := by
  obtain ⟨gap, rest, rfl, hgap, ⟨hd, h⟩ | ⟨body, r, rfl, hopen, h⟩⟩ := skip_blanks (.behind before) cs
  · rw [Location.afterAll_behind] at h
    cases rest with
    | nil =>
      simp only [Reader.next, h]
      rw [List.append_nil]
      exact .stop hgap
    | cons c cs =>
      simp only [Reader.next, h]
      cases hlex : lexeme? (c :: cs) with
      | none => exact .fault hgap (.stray (stray_of_lexeme? hlex hd))
      | some lexeme =>
        obtain ⟨kind, text⟩ := lexeme
        obtain ⟨rest, he, hmaximal⟩ := maximal_of_lexeme? (l := .behind (before ++ gap)) hlex hd
        have hlexed : Token.Lexed ⟨kind, String.ofList text, .behind (before ++ gap)⟩ := by
          simpa [Token.Lexed] using lexeme?_self hlex
        rw [he] at hgap ⊢
        simp only [List.drop_left, Location.afterAll_behind, ← List.append_assoc]
        exact .token String.toList_ofList hgap rfl hlexed hmaximal
  · rw [Location.afterAll_behind] at h
    simp only [Reader.next, h]
    exact .fault hgap (.unclosed hopen)

/-- A token before what is read. -/
theorem Decomposes.cons {gap : List Char} {t : Token} {result : Except (Fault LexError) (List Token)}
    (hgap : Trivia gap (t.text.toList ++ cs)) (hlocation : t.location = .behind (before ++ gap))
    (hlexed : t.Lexed) (hmaximal : t.Maximal cs)
    (h : Decomposes (before ++ gap ++ t.text.toList) cs result) :
    Decomposes before (gap ++ t.text.toList ++ cs) ((t :: ·) <$> result) := by
  cases h with
  | tokens h =>
    have hall := Decomposes.tokens (.token (by rwa [List.append_nil]) hlocation hlexed
      (by rwa [List.append_nil]) h)
    simpa using hall
  | fault h hrefused =>
    rw [← List.append_assoc]
    refine .fault (.token hgap hlocation hlexed hmaximal h) ?_
    rwa [← List.append_assoc, ← List.append_assoc]

theorem Reader.tokens_decompose (r : Reader) :
    ∀ before, r.location = .behind before → Decomposes before r.ahead r.tokens := by
  induction r using Reader.tokens.induct with
  | case1 r e r' hnext =>
    obtain ⟨cs, l⟩ := r
    rintro before rfl
    have hread := Reader.nextRead before cs
    rw [hnext] at hread
    rw [Reader.tokens_eq, hnext]
    cases hread with
    | fault hgap hrefused => exact .fault (.gap hgap) hrefused
  | case2 r r' hnext =>
    obtain ⟨cs, l⟩ := r
    rintro before rfl
    have hread := Reader.nextRead before cs
    rw [hnext] at hread
    rw [Reader.tokens_eq, hnext]
    cases hread with
    | stop hgap => exact .tokens (.gap hgap)
  | case3 r t r' hnext ih =>
    obtain ⟨cs, l⟩ := r
    rintro before rfl
    have hread := Reader.nextRead before cs
    rw [hnext] at hread
    rw [Reader.tokens_eq, hnext]
    cases hread with
    | token htext hgap hlocation hlexed hmaximal =>
      subst htext
      exact .cons hgap hlocation hlexed hmaximal (ih _ rfl)

end

/-- Reading a source text loses nothing. If it has tokens, the text is made of them, in order and each at its
place, with blanks and comments before, between and behind them; none of the tokens could be longer, and the
stop token comes last, at the end of the text. Else the text before the fault is made of tokens in this way,
and what stands there is a comment that is never closed, or a character with which nothing begins. -/
theorem tokenize_decomposes (source : Source) :
    match tokenize source with
    | .ok tokens => ∃ ts, tokens = ts ++ [.stop (.behind source.chars)] ∧ Decomposed [] [] ts source.chars
    | .error fault => ∃ ts text rest, source.chars = text ++ rest ∧ Decomposed rest [] ts text ∧
        Refused (.behind text) rest fault := by
  have h : Decomposes [] source.chars (tokenize source) :=
    Reader.tokens_decompose (.start source.chars) [] rfl
  generalize tokenize source = result at h
  generalize source.chars = cs at h
  cases h with
  | tokens h => exact ⟨_, rfl, h⟩
  | fault h hrefused => exact ⟨_, _, _, rfl, h, hrefused⟩

end Syntax

end Exprc

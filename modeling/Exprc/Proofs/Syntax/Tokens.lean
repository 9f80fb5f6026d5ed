/-
The tokens of a text. Every token but the last one is what its own characters would be read as, so that
its spelling tells its kind; the last one is the stop token; and each token stands behind the one before.
-/
import Exprc.Proofs.Syntax.Words
import Exprc.Proofs.Syntax.Written

namespace Exprc

/-! ## The order of places -/

/-- A place stands before another one: in an earlier line, or in the same line and further left. -/
def Location.Before (l m : Location) : Prop :=
  l.line < m.line ∨ l.line = m.line ∧ l.column < m.column

namespace Location

theorem Before.trans {l m n : Location} (h : l.Before m) (h' : m.Before n) : l.Before n := by
  unfold Before at *
  omega

theorem Before.ne {l m : Location} (h : l.Before m) : l ≠ m := by
  rintro rfl
  unfold Before at h
  omega

theorem before_after (l : Location) (c : Char) : l.Before (l.after c) := by
  unfold Before after
  split <;> simp

/-- A place is another one or stands before it. -/
def UpTo (l m : Location) : Prop := l = m ∨ l.Before m

theorem UpTo.trans {l m n : Location} (h : l.UpTo m) (h' : m.UpTo n) : l.UpTo n := by
  obtain rfl | h := h
  · exact h'
  · obtain rfl | h' := h'
    · exact .inr h
    · exact .inr (h.trans h')

theorem Before.trans_upTo {l m n : Location} (h : l.Before m) (h' : m.UpTo n) : l.Before n := by
  obtain rfl | h' := h'
  · exact h
  · exact h.trans h'

theorem upTo_after (l : Location) (c : Char) : l.UpTo (l.after c) := .inr (l.before_after c)

theorem before_afterAll (l : Location) (c : Char) (cs : List Char) : l.Before (l.afterAll (c :: cs)) := by
  induction cs generalizing l c with
  | nil => exact l.before_after c
  | cons d cs ih => exact (l.before_after c).trans (ih (l.after c) d)

end Location

namespace Syntax

/-! ## Reading tokens -/

theorem skip_upTo (gap : Gap) (l : Location) (cs : List Char) : l.UpTo (skip gap l cs).1.location := by
  fun_induction skip gap l cs with
  | case1 | case2 | case3 | case12 => exact .inl rfl
  | case4 | case5 | case7 | case10 | case11 => exact (Location.upTo_after ..).trans ‹_›
  | case6 | case8 | case9 => exact ((Location.upTo_after ..).trans (Location.upTo_after ..)).trans ‹_›

/-- Whether a token is what its characters are read as. -/
def Token.Lexed (t : Token) : Prop := lexeme? t.text.toList = some (t.kind, t.text.toList)

theorem lexeme?_cons (c : Char) (cs : List Char) :
    lexeme? (c :: cs) =
      if c.isDigit then some (.int, c :: cs.takeWhile Char.isDigit)
      else if isWordStart c then
        some (wordKind (String.ofList (c :: cs.takeWhile isWordPart)), c :: cs.takeWhile isWordPart)
      else if opensComparison c && cs.head? == some '=' then some (.operator, [c, '='])
      else (symbolKind? c).map fun kind => (kind, [c]) := rfl

/-- The characters of a token are read as the same token where nothing stands behind them. -/
theorem lexeme?_self {cs text : List Char} {kind : TokenKind} (h : lexeme? cs = some (kind, text)) :
    lexeme? text = some (kind, text) := by
  cases cs with
  | nil => cases h
  | cons c cs =>
    rw [lexeme?_cons] at h
    split at h
    · rename_i hdigit
      cases h
      rw [lexeme?_cons, if_pos hdigit, List.takeWhile_idem]
    · rename_i hdigit
      split at h
      · rename_i hword
        cases h
        rw [lexeme?_cons, if_neg hdigit, if_pos hword, List.takeWhile_idem]
      · rename_i hword
        split at h
        · rename_i hcomparison
          cases h
          rw [lexeme?_cons, if_neg hdigit, if_neg hword, (Bool.and_eq_true_iff.1 hcomparison).1]
          rfl
        · obtain ⟨_, hkind, he⟩ := Option.map_eq_some_iff.1 h
          cases he
          rw [lexeme?_cons, if_neg hdigit, if_neg hword, hkind]
          simp

/-- The four kinds of characters that form a token: digits, a word, a comparison operator of two
characters, and a symbol. -/
inductive Lexeme (kind : TokenKind) (c : Char) (cs : List Char) : Prop
  | number : kind = .int → c.isDigit = true → (∀ d ∈ cs, d.isDigit = true) → Lexeme kind c cs
  | word : kind = wordKind (String.ofList (c :: cs)) → c.isDigit = false → isWordStart c = true →
      (∀ d ∈ cs, isWordPart d = true) → Lexeme kind c cs
  | comparison : kind = .operator → c.isDigit = false → isWordStart c = false →
      opensComparison c = true → cs = ['='] → Lexeme kind c cs
  | symbol : symbolKind? c = some kind → c.isDigit = false → isWordStart c = false → cs = [] →
      Lexeme kind c cs

theorem Lexeme.of_lexeme? {kind : TokenKind} {c : Char} {cs : List Char}
    (h : lexeme? (c :: cs) = some (kind, c :: cs)) : Lexeme kind c cs := by
  rw [lexeme?_cons] at h
  cases hdigit : c.isDigit with
  | true =>
    rw [if_pos hdigit] at h
    obtain ⟨hkind, hrun⟩ := Prod.mk.inj (Option.some.inj h)
    exact .number hkind.symm hdigit (List.takeWhile_eq_self_iff.1 (List.cons.inj hrun).2)
  | false =>
    rw [if_neg (Bool.eq_false_iff.1 hdigit)] at h
    cases hstart : isWordStart c with
    | true =>
      rw [if_pos hstart] at h
      obtain ⟨hkind, hrun⟩ := Prod.mk.inj (Option.some.inj h)
      rw [hrun] at hkind
      exact .word hkind.symm hdigit hstart (List.takeWhile_eq_self_iff.1 (List.cons.inj hrun).2)
    | false =>
      rw [if_neg (Bool.eq_false_iff.1 hstart)] at h
      split at h
      · rename_i hopens
        obtain ⟨hkind, hrun⟩ := Prod.mk.inj (Option.some.inj h)
        exact .comparison hkind.symm hdigit hstart (Bool.and_eq_true_iff.1 hopens).1
          (List.cons.inj hrun).2.symm
      · obtain ⟨kind, hsymbol, hrun⟩ := Option.map_eq_some_iff.1 h
        obtain ⟨rfl, hcs⟩ := Prod.mk.inj hrun
        exact .symbol hsymbol hdigit hstart (List.cons.inj hcs).2.symm

theorem Token.Lexed.exists_lexeme {t : Token} (h : t.Lexed) :
    ∃ c cs, t.text.toList = c :: cs ∧ Lexeme t.kind c cs := by
  obtain ⟨c, cs, htext⟩ := List.exists_cons_of_length_pos (lexeme?_length_pos h)
  have hlexed : lexeme? t.text.toList = some (t.kind, t.text.toList) := h
  rw [htext] at hlexed
  exact ⟨c, cs, htext, .of_lexeme? hlexed⟩

/-- What is read of a token: it is what its characters are read as, it stands at the place where the
reader was or behind it, and the reader then stands behind it. -/
theorem Reader.next_lexed {r r' : Reader} {t : Token} (h : r.next = (.ok (some t), r')) :
    t.Lexed ∧ r.location.UpTo t.location ∧ t.location.Before r'.location := by
  have hgap := skip_upTo .blanks r.location r.ahead
  unfold Reader.next at h
  split at h
  · cases h
  · cases h
  · rename_i c cs l hskip
    rw [hskip] at hgap
    split at h
    · cases h
    · rename_i kind text hlex
      cases h
      obtain ⟨d, ds, rfl⟩ := List.exists_cons_of_length_pos (lexeme?_length_pos hlex)
      refine ⟨?_, hgap, l.before_afterAll d ds⟩
      simpa [Token.Lexed] using lexeme?_self hlex

theorem Reader.next_stop {r r' : Reader} (h : r.next = (.ok none, r')) :
    r.location.UpTo r'.location := by
  have hgap := skip_upTo .blanks r.location r.ahead
  unfold Reader.next at h
  split at h
  · cases h
  · rename_i l hskip
    rw [hskip] at hgap
    cases h
    exact hgap
  · split at h <;> cases h

/-- What is known of the tokens behind a place. -/
structure TokensBehind (l : Location) (ts : List Token) : Prop where
  stopped : ∃ (before : List Token) (place : Location), ts = before ++ [.stop place] ∧
    ∀ t ∈ before, t.Lexed
  ordered : ts.Pairwise fun t u => t.location.Before u.location
  behind : ∀ t ∈ ts, l.UpTo t.location

theorem Reader.tokens_behind (r : Reader) :
    ∀ {ts : List Token}, r.tokens = .ok ts → TokensBehind r.location ts := by
  induction r using Reader.tokens.induct with
  | case1 r e r' hnext =>
    intro ts h
    rw [Reader.tokens_eq, hnext] at h
    cases h
  | case2 r r' hnext =>
    intro ts h
    rw [Reader.tokens_eq, hnext] at h
    cases h
    exact ⟨⟨[], _, rfl, List.forall_mem_nil _⟩, List.pairwise_singleton ..,
      List.forall_mem_singleton.2 (next_stop hnext)⟩
  | case3 r t r' hnext ih =>
    intro ts h
    rw [Reader.tokens_eq, hnext] at h
    dsimp only at h
    cases hrest : r'.tokens with
    | error e => rw [hrest] at h; cases h
    | ok rest =>
      rw [hrest] at h
      cases h
      obtain ⟨hlexed, hplace, hbehind⟩ := next_lexed hnext
      obtain ⟨⟨before, place, hts, hbefore⟩, hordered, hrest⟩ := ih hrest
      refine ⟨⟨t :: before, place, by rw [hts]; rfl, List.forall_mem_cons.2 ⟨hlexed, hbefore⟩⟩, ?_, ?_⟩
      · exact List.pairwise_cons.2 ⟨fun u hu => hbehind.trans_upTo (hrest u hu), hordered⟩
      · refine List.forall_mem_cons.2 ⟨hplace, fun u hu => ?_⟩
        exact hplace.trans (.inr (hbehind.trans_upTo (hrest u hu)))

theorem tokenize_behind {source : Source} {ts : List Token} (h : tokenize source = .ok ts) :
    TokensBehind .start ts := Reader.tokens_behind _ h

/-! ## Kinds and spellings -/

/-- The kinds of words. -/
theorem wordKind_cases (x : String) :
    (∃ w : Keyword, wordKind x = .keyword w ∧ w.text = x) ∨
      (wordKind x = .operator ∧ x ∈ ["and", "or", "not"]) ∨
      (wordKind x = .bool ∧ x ∈ ["true", "false"]) ∨ wordKind x = .identifier := by
  unfold wordKind
  split
  · rename_i w hw
    exact .inl ⟨w, rfl, by simpa using List.find?_some hw⟩
  · split
    · rename_i hop
      exact .inr (.inl ⟨rfl, List.contains_iff_mem.1 hop⟩)
    · split
      · rename_i hbool
        exact .inr (.inr (.inl ⟨rfl, List.contains_iff_mem.1 hbool⟩))
      · exact .inr (.inr (.inr rfl))

theorem symbolKind?_mem {c : Char} {kind : TokenKind} (h : symbolKind? c = some kind) :
    kind ∈ [.parenthesis, .punctuation, .operator] := by
  unfold symbolKind? at h
  split at h
  · cases h; decide
  · split at h
    · cases h; decide
    · split at h <;> cases h
      decide

namespace Token

variable {t : Token}

/-- The word that a token is if it is spelled in a certain way. -/
theorem Lexed.word_of_is (h : t.Lexed) {text : String} (ht : t.is text = true) {kind : TokenKind}
    (hkind : (lexeme? text.toList).map Prod.fst = some kind) : t.word = ⟨kind, text⟩ := by
  obtain rfl : t.text = text := eq_of_beq (Bool.and_eq_true_iff.1 ht).2
  rw [h] at hkind
  cases hkind
  rfl

/-- What the kind of a token tells about its spelling. -/
theorem Lexed.spelling (h : t.Lexed) :
    (t.kind = .int → t.text.toList ≠ [] ∧ ∀ c ∈ t.text.toList, c.isDigit = true) ∧
      (∀ w, t.kind = .keyword w → w.text = t.text) ∧
      (t.kind = .bool → t.text ∈ ["true", "false"]) := by
  obtain ⟨c, cs, htext, hlexeme⟩ := h.exists_lexeme
  cases hlexeme with
  | number hkind hdigit hrun =>
    rw [hkind, htext]
    exact ⟨fun _ => ⟨List.cons_ne_nil _ _, List.forall_mem_cons.2 ⟨hdigit, hrun⟩⟩, nofun, nofun⟩
  | word hkind =>
    rw [hkind, ← htext, String.ofList_toList]
    obtain ⟨w, hw, htext⟩ | ⟨hw, -⟩ | ⟨hw, htext⟩ | hw := wordKind_cases t.text <;> rw [hw]
    · refine ⟨nofun, ?_, nofun⟩
      rintro _ ⟨⟩
      exact htext
    · exact ⟨nofun, nofun, nofun⟩
    · exact ⟨nofun, nofun, fun _ => htext⟩
    · exact ⟨nofun, nofun, nofun⟩
  | comparison hkind =>
    rw [hkind]
    exact ⟨nofun, nofun, nofun⟩
  | symbol hkind =>
    have hsymbol := symbolKind?_mem hkind
    simp only [List.mem_cons, List.not_mem_nil, or_false] at hsymbol
    obtain hkind | hkind | hkind := hsymbol <;> rw [hkind] <;> exact ⟨nofun, nofun, nofun⟩

theorem Lexed.isStop (h : t.Lexed) : t.isStop = false := by
  refine beq_eq_false_iff_ne.2 fun hstop => ?_
  obtain ⟨c, cs, htext, hlexeme⟩ := h.exists_lexeme
  cases hlexeme with
  | number hkind | comparison hkind => rw [hstop] at hkind; cases hkind
  | word hkind =>
    rw [hstop, ← htext, String.ofList_toList] at hkind
    obtain ⟨w, hw, -⟩ | ⟨hw, -⟩ | ⟨hw, -⟩ | hw := wordKind_cases t.text <;> rw [hw] at hkind <;> cases hkind
  | symbol hkind =>
    have hsymbol := symbolKind?_mem hkind
    rw [hstop] at hsymbol
    simp at hsymbol

theorem Lexed.word_of_isKeyword (h : t.Lexed) {w : Keyword} (ht : t.isKeyword w = true) :
    t.word = .keyword w := by
  have hkind : t.kind = .keyword w := eq_of_beq ht
  rw [word, hkind, ← h.spelling.2.1 w hkind]
  rfl

theorem Lexed.word_of_bool (h : t.Lexed) (hkind : t.kind = .bool) : t.word = .bool (t.is "true") := by
  have htext := h.spelling.2.2 hkind
  simp only [List.mem_cons, List.not_mem_nil, or_false] at htext
  rw [word, is, hkind]
  obtain htext | htext := htext <;> rw [htext] <;> decide

theorem word_of_typeName {name : TypeName} (hkind : t.kind = .identifier)
    (hname : TypeName.ofText? t.text = some name) : t.word = name.word := by
  have htext : name.text = t.text := by simpa using List.find?_some hname
  rw [word, hkind, ← htext]
  rfl

end Token

end Syntax

end Exprc

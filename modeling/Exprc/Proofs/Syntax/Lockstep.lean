/-
Two runs in lockstep. What a parser does depends on the tokens up to the end of the text alone: from places that
have the same tokens ahead up to there, two runs take the same tokens and yield the same, or they fail for the
same cause (`InStep`). The bounds that parsers are given play no role either, as long as they are large enough:
wherever a parser for the expressions inside is called, a token has been taken.

There is one law for each of the steps that parsers are made of, and one lemma for each construct of the grammar.
-/
import Exprc.Proofs.Syntax.Runs

namespace Exprc.Syntax

/-! ## Behind the end -/

/-- Tokens of which a parser takes none: the first of them, if there is one, is the end of the text. -/
structure Tail where
  tokens : List Token
  ended : ∀ t ∈ tokens.head?, t.isStop = true

namespace Cursor

/-- The same place with more tokens behind those ahead. -/
def followedBy (c : Cursor) (tail : Tail) : Cursor := ⟨c.behind, c.ahead ++ tail.tokens⟩

/-- From one place to another some tokens are taken, and none of them is the end of the text. -/
def Reaches (c d : Cursor) : Prop :=
  ∃ taken : List Token, (∀ t ∈ taken, t.isStop = false) ∧ c.ahead = taken ++ d.ahead ∧
    d.behind = taken.reverse ++ c.behind

variable {c d e : Cursor} {tail : Tail}

theorem Reaches.refl (c : Cursor) : c.Reaches c := ⟨[], nofun, rfl, rfl⟩

theorem Reaches.trans (h : c.Reaches d) (h' : d.Reaches e) : c.Reaches e := by
  obtain ⟨taken, hstop, hahead, hbehind⟩ := h
  obtain ⟨taken', hstop', hahead', hbehind'⟩ := h'
  refine ⟨taken ++ taken', List.forall_mem_append.2 ⟨hstop, hstop'⟩, ?_, ?_⟩
  · rw [hahead, hahead', List.append_assoc]
  · rw [hbehind', hbehind, List.reverse_append, List.append_assoc]

theorem Reaches.advance (h : c.peek.isStop = false) : c.Reaches c.advance :=
  ⟨[c.peek], List.forall_mem_singleton.2 h, c.ahead_eq h, c.behind_advance h⟩

theorem peek_followedBy (h : c.peek.isStop = false) : (c.followedBy tail).peek = c.peek := by
  obtain ⟨behind, t, ahead, rfl⟩ := exists_cons h
  rfl

theorem advance_followedBy (h : c.peek.isStop = false) :
    (c.followedBy tail).advance = c.advance.followedBy tail := by
  obtain ⟨behind, t, ahead, rfl⟩ := exists_cons h
  rfl

theorem isBehindBrace_followedBy (c : Cursor) (tail : Tail) :
    (c.followedBy tail).isBehindBrace = c.isBehindBrace := rfl

/-- The end of the text is seen whatever stands behind it. -/
theorem isStop_followedBy (c : Cursor) (tail : Tail) :
    (c.followedBy tail).peek.isStop = c.peek.isStop := by
  obtain ⟨behind, _ | ⟨t, ahead⟩⟩ := c
  · have hstop : (Cursor.peek ⟨behind, []⟩).isStop = true := by cases behind <;> rfl
    rw [hstop]
    obtain ⟨_ | ⟨t, ts⟩, hended⟩ := tail
    · exact hstop
    · exact hended t rfl
  · rfl

end Cursor

namespace Token

variable {t : Token}

theorem is_of_isStop (h : t.isStop = true) (text : String) : t.is text = false := by
  simp_all [is, isStop]

theorem isKeyword_of_isStop (h : t.isStop = true) (word : Keyword) : t.isKeyword word = false := by
  simp_all [isKeyword, isStop]

theorem kind_of_isStop (h : t.isStop = true) : t.kind = .stop := eq_of_beq h

end Token

namespace Parser

variable {α β : Type}

theorem unaryOp?_of_isStop {t : Token} (h : t.isStop = true) : unaryOp? t = none := by
  simp [unaryOp?, Token.is_of_isStop h]

theorem binaryOp?_of_isStop {t : Token} (h : t.isStop = true) (ops : List BinaryOp) :
    binaryOp? ops t = none := by
  simp [binaryOp?, Token.kind_of_isStop h]

/-! ## Runs in lockstep -/

/-- The faults of two runs that end at the same place have the same cause, and they are the same or each is
blamed on the end of the text that its run sees. -/
def SameFault (tail tail' : Tail) (d : Cursor) (f g : Fault ParseError) : Prop :=
  f.cause = g.cause ∧ (f = g ∨ d.peek.isStop = true ∧
    f.location? = some (d.followedBy tail).peek.location ∧
    g.location? = some (d.followedBy tail').peek.location)

/-- Two parsers run in lockstep from a place behind which different tokens stand: they take the same tokens and
yield the same with fewer than `m` tokens ahead, or they fail at the same place. -/
inductive InStep (tail tail' : Tail) (p q : Parser α) (c : Cursor) (m : Nat) : Prop
  | ok (a : α) (d : Cursor) :
      p.run (c.followedBy tail) = (.ok a, d.followedBy tail) →
      q.run (c.followedBy tail') = (.ok a, d.followedBy tail') →
      c.Reaches d → d.ahead.length < m → InStep tail tail' p q c m
  | error (f g : Fault ParseError) (d : Cursor) :
      p.run (c.followedBy tail) = (.error f, d.followedBy tail) →
      q.run (c.followedBy tail') = (.error g, d.followedBy tail') →
      c.Reaches d → SameFault tail tail' d f g → InStep tail tail' p q c m

namespace InStep

variable {tail tail' : Tail} {c : Cursor} {m n : Nat}

theorem pure {a : α} (h : c.ahead.length < m) : InStep tail tail' (Pure.pure a) (Pure.pure a) c m :=
  .ok a c rfl rfl (.refl c) h

theorem throw {f : Fault ParseError} :
    InStep tail tail' (MonadExcept.throw f : Parser α) (MonadExcept.throw f) c m :=
  .error f f c rfl rfl (.refl c) ⟨rfl, .inl rfl⟩

/-- Runs that go on as other ones do from a place further on. -/
theorem goOn {p p' q q' : Parser α} {d : Cursor} (h : InStep tail tail' p' q' d m) (hreaches : c.Reaches d)
    (hp : p.run (c.followedBy tail) = p'.run (d.followedBy tail))
    (hq : q.run (c.followedBy tail') = q'.run (d.followedBy tail')) : InStep tail tail' p q c m := by
  cases h with
  | ok a e hrun hrun' hreaches' hm =>
    exact .ok a e (hp.trans hrun) (hq.trans hrun') (hreaches.trans hreaches') hm
  | error f g e hrun hrun' hreaches' hsame =>
    exact .error f g e (hp.trans hrun) (hq.trans hrun') (hreaches.trans hreaches') hsame

/-- What runs alike may be put for a parser. -/
theorem congr {p p' q q' : Parser α} (h : InStep tail tail' p' q' c m)
    (hp : p.run (c.followedBy tail) = p'.run (c.followedBy tail))
    (hq : q.run (c.followedBy tail') = q'.run (c.followedBy tail')) : InStep tail tail' p q c m :=
  h.goOn (.refl c) hp hq

theorem mono {p q : Parser α} (h : InStep tail tail' p q c m) (hm : m ≤ n) :
    InStep tail tail' p q c n := by
  cases h with
  | ok a d hrun hrun' hreaches hd => exact .ok a d hrun hrun' hreaches (Nat.lt_of_lt_of_le hd hm)
  | error f g d hrun hrun' hreaches hsame => exact .error f g d hrun hrun' hreaches hsame

theorem bind {p q : Parser β} {f g : β → Parser α} (h : InStep tail tail' p q c n)
    (hfg : ∀ b d, d.ahead.length < n → InStep tail tail' (f b) (g b) d m) :
    InStep tail tail' (p >>= f) (q >>= g) c m := by
  have hp : (p >>= f).run (c.followedBy tail) =
      ExceptT.bindCont f (p.run (c.followedBy tail)).1 (p.run (c.followedBy tail)).2 := rfl
  have hq : (q >>= g).run (c.followedBy tail') =
      ExceptT.bindCont g (q.run (c.followedBy tail')).1 (q.run (c.followedBy tail')).2 := rfl
  cases h with
  | ok b d hrun hrun' hreaches hn =>
    rw [hrun] at hp
    rw [hrun'] at hq
    exact (hfg b d hn).goOn hreaches hp hq
  | error f g d hrun hrun' hreaches hsame =>
    rw [hrun] at hp
    rw [hrun'] at hq
    exact .error f g d hp hq hreaches hsame

/-- A step that fails. -/
theorem bind_error {p q : Parser β} {f g : β → Parser α} (h : InStep tail tail' p q c 0) :
    InStep tail tail' (p >>= f) (q >>= g) c m :=
  h.bind fun _ _ hd => absurd hd (Nat.not_lt_zero _)

/-! ### Steps -/

/-- A step that looks at the next token. At the end of the text each run sees an end of its own. -/
theorem peek {f g : Token → Parser α}
    (next : c.peek.isStop = false → InStep tail tail' (f c.peek) (g c.peek) c m)
    (stop : c.peek.isStop = true → ∀ t t' : Token, t.isStop = true → t'.isStop = true →
      InStep tail tail' (f t) (g t') c m) :
    InStep tail tail' (Parser.peek >>= f) (Parser.peek >>= g) c m := by
  cases hstop : c.peek.isStop with
  | true =>
    have ht := (c.isStop_followedBy tail).trans hstop
    have ht' := (c.isStop_followedBy tail').trans hstop
    exact (stop hstop _ _ ht ht').congr rfl rfl
  | false =>
    have ht : (c.followedBy tail).peek = c.peek := Cursor.peek_followedBy hstop
    have ht' : (c.followedBy tail').peek = c.peek := Cursor.peek_followedBy hstop
    refine (next hstop).congr ?_ ?_
    · rw [← ht]
      rfl
    · rw [← ht']
      rfl

/-- A step that goes on by whether the next token is of a kind that the end of the text is not of. -/
theorem whether {test : Token → Bool} {f g : Token → Parser α} {p q : Parser α}
    (hend : ∀ t : Token, t.isStop = true → test t = false)
    (yes : c.peek.isStop = false → InStep tail tail' (f c.peek) (g c.peek) c m) (no : InStep tail tail' p q c m) :
    InStep tail tail' (Parser.peek >>= fun t => if test t then f t else p)
      (Parser.peek >>= fun t => if test t then g t else q) c m := by
  refine peek (fun hstop => ?_) fun _ t t' ht ht' => ?_
  · split
    · exact yes hstop
    · exact no
  · rw [hend t ht, hend t' ht', if_neg Bool.false_ne_true, if_neg Bool.false_ne_true]
    exact no

theorem failHere (cause : ParseError) :
    InStep tail tail' (Parser.failHere cause : Parser α) (Parser.failHere cause) c m := by
  refine .error _ _ c rfl rfl (.refl c) ⟨rfl, ?_⟩
  cases hstop : c.peek.isStop with
  | true => exact .inr ⟨rfl, rfl, rfl⟩
  | false => exact .inl (by rw [Cursor.peek_followedBy hstop, Cursor.peek_followedBy hstop])

theorem unexpected (expected : Expectation) :
    InStep tail tail' (Parser.unexpected expected : Parser α) (Parser.unexpected expected) c m := by
  refine peek (fun _ => failHere _) fun _ t t' ht ht' => ?_
  rw [ht, ht', if_pos rfl, if_pos rfl]
  exact failHere _

/-- A step that takes the next token, which is not the end of the text. -/
theorem take {f g : Token → Parser α} (hstop : c.peek.isStop = false)
    (h : InStep tail tail' (f c.peek) (g c.peek) c.advance m) :
    InStep tail tail' (Parser.take >>= f) (Parser.take >>= g) c m := by
  have hrun : ∀ (tail : Tail) (f : Token → Parser α),
      (Parser.take >>= f).run (c.followedBy tail) = (f c.peek).run (c.advance.followedBy tail) := by
    intro tail f
    have hpeek : (c.followedBy tail).peek = c.peek := Cursor.peek_followedBy hstop
    rw [← hpeek, ← Cursor.advance_followedBy hstop]
    rfl
  exact h.goOn (.advance hstop) (hrun tail f) (hrun tail' g)

theorem take? {text : String} {f g : Option Token → Parser α}
    (yes : c.peek.is text = true → InStep tail tail' (f (some c.peek)) (g (some c.peek)) c.advance m)
    (no : c.peek.is text = false → InStep tail tail' (f none) (g none) c m) :
    InStep tail tail' (Parser.take? text >>= f) (Parser.take? text >>= g) c m := by
  unfold Parser.take?
  simp only [bind_assoc]
  refine peek (fun hstop => ?_) fun hstop t t' ht ht' => ?_
  · split
    · rename_i htext
      simp only [bind_assoc, pure_bind]
      exact take hstop (yes htext)
    · rename_i htext
      simp only [pure_bind]
      exact no (Bool.not_eq_true _ ▸ htext)
  · simp only [Token.is_of_isStop ht, Token.is_of_isStop ht', Bool.false_eq_true, if_false, pure_bind]
    exact no (Token.is_of_isStop hstop text)

theorem expect {text : String} {f g : Token → Parser α}
    (h : c.peek.is text = true → InStep tail tail' (f c.peek) (g c.peek) c.advance m) :
    InStep tail tail' (Parser.expect text >>= f) (Parser.expect text >>= g) c m := by
  unfold Parser.expect
  simp only [bind_assoc]
  refine peek (fun hstop => ?_) fun hstop t t' ht ht' => ?_
  · split
    · rename_i htext
      exact take hstop (h htext)
    · exact bind_error (unexpected _)
  · simp only [Token.is_of_isStop ht, Token.is_of_isStop ht', Bool.false_eq_true, if_false]
    exact bind_error (unexpected _)

theorem expectKeyword {word : Keyword} {f g : Token → Parser α}
    (h : c.peek.isKeyword word = true → InStep tail tail' (f c.peek) (g c.peek) c.advance m) :
    InStep tail tail' (Parser.expectKeyword word >>= f) (Parser.expectKeyword word >>= g) c m := by
  unfold Parser.expectKeyword
  simp only [bind_assoc]
  refine peek (fun hstop => ?_) fun hstop t t' ht ht' => ?_
  · split
    · rename_i hword
      exact take hstop (h hword)
    · exact bind_error (unexpected _)
  · simp only [Token.isKeyword_of_isStop ht, Token.isKeyword_of_isStop ht', Bool.false_eq_true, if_false]
    exact bind_error (unexpected _)

theorem identifier {f g : Name → Parser α}
    (h : c.peek.isStop = false → ∀ x, InStep tail tail' (f x) (g x) c.advance m) :
    InStep tail tail' (Parser.identifier >>= f) (Parser.identifier >>= g) c m := by
  unfold Parser.identifier
  simp only [bind_assoc]
  refine peek (fun hstop => ?_) fun hstop t t' ht ht' => ?_
  · split
    · simp only [bind_assoc, pure_bind]
      exact take hstop (h hstop _)
    · exact bind_error (unexpected _)
  · simp only [Token.kind_of_isStop ht, Token.kind_of_isStop ht', reduceCtorEq, if_false]
    exact bind_error (unexpected _)

theorem writtenType {f g : WrittenType → Parser α}
    (h : c.peek.isStop = false → ∀ a, InStep tail tail' (f a) (g a) c.advance m) :
    InStep tail tail' (Parser.writtenType >>= f) (Parser.writtenType >>= g) c m := by
  unfold Parser.writtenType
  simp only [bind_assoc]
  refine peek (fun hstop => ?_) fun hstop t t' ht ht' => ?_
  · split
    · split
      · simp only [bind_assoc, pure_bind]
        exact take hstop (h hstop _)
      · exact bind_error (failHere _)
    · exact bind_error (unexpected _)
  · simp only [Token.kind_of_isStop ht, Token.kind_of_isStop ht', reduceCtorEq, if_false]
    exact bind_error (unexpected _)

theorem closedBy_followedBy (enclosure : Enclosure) (tail : Tail) :
    enclosure.closedBy (c.followedBy tail).peek = enclosure.closedBy c.peek := by
  cases enclosure with
  | text => exact c.isStop_followedBy tail
  | braces =>
    cases hstop : c.peek.isStop with
    | true =>
      have htail := (c.isStop_followedBy tail).trans hstop
      exact (Token.is_of_isStop htail _).trans (Token.is_of_isStop hstop _).symm
    | false => rw [Cursor.peek_followedBy hstop]

theorem defines_followedBy (enclosure : Enclosure) (tail : Tail) :
    enclosure.defines (c.followedBy tail).peek = enclosure.defines c.peek := by
  cases hstop : c.peek.isStop with
  | true =>
    have htail := (c.isStop_followedBy tail).trans hstop
    rw [Enclosure.defines, Enclosure.defines, Token.isKeyword_of_isStop htail, Token.isKeyword_of_isStop hstop]
  | false => rw [Cursor.peek_followedBy hstop]

theorem atClosing {enclosure : Enclosure} {f g : Bool → Parser α}
    (h : InStep tail tail' (f (enclosure.closedBy c.peek)) (g (enclosure.closedBy c.peek)) c m) :
    InStep tail tail' (Parser.atClosing enclosure >>= f) (Parser.atClosing enclosure >>= g) c m := by
  have hrun : ∀ (tail : Tail) (f : Bool → Parser α), (Parser.atClosing enclosure >>= f).run (c.followedBy tail) =
      (f (enclosure.closedBy c.peek)).run (c.followedBy tail) := by
    intro tail f
    rw [← closedBy_followedBy enclosure tail]
    cases enclosure <;> rfl
  exact h.congr (hrun tail f) (hrun tail' g)

theorem atDefinition {enclosure : Enclosure} {f g : Bool → Parser α}
    (h : InStep tail tail' (f (enclosure.defines c.peek)) (g (enclosure.defines c.peek)) c m) :
    InStep tail tail' (Parser.atDefinition enclosure >>= f) (Parser.atDefinition enclosure >>= g) c m := by
  have hrun : ∀ (tail : Tail) (f : Bool → Parser α),
      (Parser.atDefinition enclosure >>= f).run (c.followedBy tail) =
        (f (enclosure.defines c.peek)).run (c.followedBy tail) := by
    intro tail f
    rw [← defines_followedBy enclosure tail]
    rfl
  exact h.congr (hrun tail f) (hrun tail' g)

theorem get {f g : Cursor → Parser α}
    (h : InStep tail tail' (f (c.followedBy tail)) (g (c.followedBy tail')) c m) :
    InStep tail tail' (MonadState.get >>= f) (MonadState.get >>= g) c m :=
  h.congr rfl rfl

/-- What follows a statement takes a semicolon at most. -/
theorem statementEnd (enclosure : Enclosure) (isReturn : Bool) (hm : c.ahead.length < m) :
    InStep tail tail' (Parser.statementEnd enclosure isReturn) (Parser.statementEnd enclosure isReturn) c m := by
  -- Behind the semicolon, or where none is needed, a return still has to be the last statement.
  have rest : ∀ (semicolon? : Option Token) (d : Cursor), d.ahead.length < m → InStep tail tail'
      (do
        if isReturn then
          unless ← Parser.atClosing enclosure do Parser.failHere .returnNotLast
          return none
        else return semicolon?.map (·.location))
      (do
        if isReturn then
          unless ← Parser.atClosing enclosure do Parser.failHere .returnNotLast
          return none
        else return semicolon?.map (·.location)) d m := by
    intro semicolon? d hd
    split
    · refine atClosing ?_
      split
      · exact pure hd
      · exact bind_error (failHere _)
    · exact pure hd
  refine take? (fun hs => ?_) fun _ => ?_
  · have hlength := length_advance (Token.isStop_of_is hs)
    exact rest _ _ (by omega)
  · refine atClosing (get (atDefinition ?_))
    rw [Cursor.isBehindBrace_followedBy, Cursor.isBehindBrace_followedBy]
    split
    · exact rest none c hm
    · exact bind_error (unexpected _)

end InStep

end Parser

end Exprc.Syntax

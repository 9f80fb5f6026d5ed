/-
Where a parser fails. Each construct of the grammar does on a run what the machine does with the goals for it
(`Tracks`): where it succeeds the machine is left with other goals in the same place, and where it fails
the machine refuses the same token with the same words. So the parser fails at the first token with which
no program goes on (`module_first_fault`).
-/
import Exprc.Proofs.Syntax.Recogniser
import Exprc.Proofs.Syntax.Tokens

namespace Exprc.Syntax

/-! ## Stacks that respond alike -/

section

variable {goal g : Goal} {goals goals' K : List Goal} {behind? : Option Token} {t : Token}

theorem recognise_congr {c : Cursor}
    (h : respond goals c.behind.head? c.peek = respond goals' c.behind.head? c.peek) :
    recognise goals c = recognise goals' c := by
  obtain ⟨behind, _ | ⟨t, ahead⟩⟩ := c
  · rw [recognise, recogniseFrom, h]
    rfl
  · rw [recognise, recogniseFrom, show respond goals behind.head? t = respond goals' behind.head? t from h]
    rfl

theorem respond_andThen (h : goal.react behind? t = (g.react behind? t).andThen K)
    (hleave : g.react behind? t ≠ .leave) :
    respond (goal :: goals) behind? t = respond (g :: (K ++ goals)) behind? t := by
  rw [respond, respond, h]
  cases hreact : g.react behind? t with
  | take new => simp only [Reaction.andThen, List.append_assoc]
  | leave => exact absurd hreact hleave
  | refuse cause => rfl

theorem Token.beginExpression_ne_leave (t : Token) : t.beginExpression ≠ .leave := by
  unfold beginExpression
  repeat' split
  all_goals exact nofun

/-- Nothing begins with the end of the text. -/
theorem Token.beginExpression_of_isStop (h : t.isStop = true) : t.beginExpression = t.unlike .expression := by
  have hkind : t.kind = .stop := eq_of_beq h
  have hunary : Parser.unaryOp? t = none := by simp [Parser.unaryOp?, Token.is, hkind]
  rw [beginExpression, hunary, hkind]

theorem Token.asIdentifier_ne_leave (t : Token) : t.asIdentifier ≠ .leave := by
  unfold asIdentifier
  split <;> exact nofun

/-- Where no closing parenthesis stands an item begins. -/
theorem respond_items {kind : ItemKind} (h : t.is ")" = false) :
    respond (.items kind :: goals) behind? t =
      respond (kind.goals ++ .moreItems kind :: goals) behind? t := by
  have hitem : Goal.react (.items kind) behind? t = (kind.begin t).andThen [.moreItems kind] :=
    if_neg (by rw [h]; exact Bool.false_ne_true)
  cases kind with
  | argument =>
    exact respond_andThen (g := .expression) hitem t.beginExpression_ne_leave
  | parameter =>
    refine respond_andThen (g := .identifier) (K := [.spelling ":", .typeName, .moreItems .parameter])
      ?_ t.asIdentifier_ne_leave
    rw [hitem, ItemKind.begin]
    cases h : t.asIdentifier <;> simp [Reaction.andThen, Goal.react, h]

/-- Where a value may stand behind the word for a return, it begins. -/
theorem respond_returned (h : (t.is ";" || t.is "\x7d" || t.isStop) = false) :
    respond (.returned :: goals) behind? t = respond (.expression :: goals) behind? t := by
  have hreturned : Goal.react .returned behind? t = t.beginExpression :=
    if_neg (by rw [h]; exact Bool.false_ne_true)
  refine respond_andThen (g := .expression) (K := []) ?_ t.beginExpression_ne_leave
  rw [hreturned]
  cases h : t.beginExpression <;> simp [Reaction.andThen, Goal.react, h]

/-- Where a statement begins that is no return, an expression begins. -/
theorem respond_statement {enclosure : Enclosure} (hopen : enclosure.closedBy t = false)
    (hdefines : enclosure.defines t = false) (hreturn : t.isKeyword .returnWord = false) :
    respond (.statements enclosure :: goals) behind? t =
      respond (.expression :: .afterStatement enclosure false :: .statements enclosure :: goals)
        behind? t := by
  refine respond_andThen (g := .expression) (K := [.afterStatement enclosure false, .statements enclosure])
    ?_ t.beginExpression_ne_leave
  simp [Goal.react, hopen, hdefines, hreturn]

end

/-! ## Tracking -/

namespace Parser

variable {α β : Type}

/-- From a cursor on, a parser does what the machine does with the goals `G`, whatever goals are below:
where it succeeds, with at most `m` tokens ahead then, the machine is left with the goals `H`; where it fails,
the machine fails with the same fault. -/
def Tracks (G : List Goal) (p : Parser α) (c : Cursor) (H : α → List Goal) (m : Nat)
    (good : α → Cursor → Prop) : Prop :=
  Ends p c
    (fun a c' => c'.ahead.length ≤ m ∧ good a c' ∧ ∀ k, recognise (G ++ k) c = recognise (H a ++ k) c')
    fun fault => ∀ k, recognise (G ++ k) c = .error fault

namespace Tracks

variable {G K N : List Goal} {H : α → List Goal} {goal : Goal} {c : Cursor} {m : Nat}
  {good : α → Cursor → Prop}

theorem pure {a : α} (hm : c.ahead.length ≤ m) (h : good a c) :
    Tracks G (Pure.pure a) c (fun _ => G) m good :=
  Ends.pure ⟨hm, h, fun _ => rfl⟩

theorem mono {p : Parser α} {n : Nat} {good' : α → Cursor → Prop} (h : Tracks G p c H n good) (hm : n ≤ m)
    (hgood : ∀ a c', good a c' → good' a c') : Tracks G p c H m good' :=
  Ends.mono h (fun _ _ ⟨hn, ha, hk⟩ => ⟨Nat.le_trans hn hm, hgood _ _ ha, hk⟩) fun _ h => h

theorem bind {p : Parser β} {f : β → Parser α} {L : β → List Goal} {n : Nat} {g : β → Cursor → Prop}
    (h : Tracks G p c L n g)
    (hf : ∀ b c', c'.ahead.length ≤ n → g b c' → Tracks (L b ++ K) (f b) c' H m good) :
    Tracks (G ++ K) (p >>= f) c H m good := by
  refine Ends.bind (Ends.mono h ?_ ?_)
  · rintro b c' ⟨hn, hb, hk⟩
    refine Ends.mono (hf b c' hn hb) ?_ ?_
    · rintro a c'' ⟨hm, ha, hk'⟩
      refine ⟨hm, ha, fun k => ?_⟩
      rw [List.append_assoc, hk, ← hk', List.append_assoc]
    · intro fault hfault k
      rw [List.append_assoc, hk, ← List.append_assoc, hfault]
  · intro fault hfault k
    rw [List.append_assoc, hfault]

/-- Goals that respond alike. -/
theorem congr {p : Parser α} {F : List Goal} (h : Tracks F p c H m good)
    (hrespond : ∀ k, respond (G ++ k) c.behind.head? c.peek = respond (F ++ k) c.behind.head? c.peek) :
    Tracks G p c H m good := by
  have hk : ∀ k, recognise (G ++ k) c = recognise (F ++ k) c := fun k => recognise_congr (hrespond k)
  refine Ends.mono h ?_ ?_
  · rintro a c' ⟨hm, ha, h⟩
    exact ⟨hm, ha, fun k => (hk k).trans (h k)⟩
  · exact fun fault hfault k => (hk k).trans (hfault k)

theorem leave {p : Parser α} (hreact : goal.react c.behind.head? c.peek = .leave)
    (h : Tracks G p c H m good) : Tracks (goal :: G) p c H m good :=
  h.congr fun k => by rw [List.cons_append, respond, hreact]

/-- A run behind the next token, which is taken from the goal on top. -/
theorem behind {p : Parser α} (hreact : goal.react c.behind.head? c.peek = .take N)
    (hstop : c.peek.isStop = false) (h : Tracks (N ++ G) p c.advance H m good) :
    Ends p c.advance (fun a c' => c'.ahead.length ≤ m ∧ good a c' ∧
      ∀ k, recognise (goal :: G ++ k) c = recognise (H a ++ k) c')
      fun fault => ∀ k, recognise (goal :: G ++ k) c = .error fault := by
  have hk : ∀ k, recognise (goal :: G ++ k) c = recognise ((N ++ G) ++ k) c.advance := fun k => by
    rw [List.cons_append, recognise_take hreact hstop, List.append_assoc]
  refine Ends.mono h ?_ ?_
  · rintro a c' ⟨hm, ha, h⟩
    exact ⟨hm, ha, fun k => (hk k).trans (h k)⟩
  · exact fun fault hfault k => (hk k).trans (hfault k)

/-! ### Steps -/

theorem peek {f : Token → Parser α} (h : Tracks G (f c.peek) c H m good) :
    Tracks G (Parser.peek >>= f) c H m good :=
  Ends.bind (.peek h)

theorem take {f : Token → Parser α} (hreact : goal.react c.behind.head? c.peek = .take N)
    (hstop : c.peek.isStop = false)
    (h : c.advance.ahead.length + 1 = c.ahead.length → Tracks (N ++ G) (f c.peek) c.advance H m good) :
    Tracks (goal :: G) (Parser.take >>= f) c H m good :=
  Ends.bind (.take (behind hreact hstop (h (length_advance hstop))))

theorem take? {text : String} {f : Option Token → Parser α}
    (hreact : c.peek.is text = true → goal.react c.behind.head? c.peek = .take N)
    (yes : c.advance.ahead.length + 1 = c.ahead.length →
      Tracks (N ++ G) (f (some c.peek)) c.advance H m good)
    (no : c.peek.is text = false → Tracks (goal :: G) (f none) c H m good) :
    Tracks (goal :: G) (Parser.take? text >>= f) c H m good := by
  refine Ends.bind (.take? (fun ht => ?_) no)
  have hstop := Token.isStop_of_is ht
  exact behind (hreact ht) hstop (yes (length_advance hstop))

theorem atClosing {enclosure : Enclosure} {f : Bool → Parser α}
    (h : Tracks G (f (enclosure.closedBy c.peek)) c H m good) :
    Tracks G (Parser.atClosing enclosure >>= f) c H m good :=
  Ends.bind (.atClosing h)

theorem atDefinition {enclosure : Enclosure} {f : Bool → Parser α}
    (h : Tracks G (f (enclosure.defines c.peek)) c H m good) :
    Tracks G (Parser.atDefinition enclosure >>= f) c H m good :=
  Ends.bind (.atDefinition h)

theorem unexpected {expected : Expectation}
    (hreact : goal.react c.behind.head? c.peek = c.peek.unlike expected) :
    Tracks (goal :: G) (Parser.unexpected expected : Parser α) c H m good :=
  Ends.unexpected fun _ => recognise_refuse hreact

theorem expect {text : String} {f : Token → Parser α}
    (hreact : goal.react c.behind.head? c.peek =
      if c.peek.is text then .take N else c.peek.unlike (.spelling text))
    (h : c.advance.ahead.length + 1 = c.ahead.length → Tracks (N ++ G) (f c.peek) c.advance H m good) :
    Tracks (goal :: G) (Parser.expect text >>= f) c H m good := by
  refine Ends.bind (.expect (fun ht => ?_) fun ht _ => ?_)
  · rw [if_pos ht] at hreact
    have hstop := Token.isStop_of_is ht
    exact behind hreact hstop (h (length_advance hstop))
  · rw [ht] at hreact
    exact recognise_refuse hreact

theorem expectKeyword {word : Keyword} {f : Token → Parser α}
    (hreact : goal.react c.behind.head? c.peek =
      if c.peek.isKeyword word then .take N else c.peek.unlike (.spelling word.text))
    (h : c.advance.ahead.length + 1 = c.ahead.length → Tracks (N ++ G) (f c.peek) c.advance H m good) :
    Tracks (goal :: G) (Parser.expectKeyword word >>= f) c H m good := by
  refine Ends.bind (.expectKeyword (fun ht => ?_) fun ht _ => ?_)
  · rw [if_pos ht] at hreact
    have hstop := Token.isStop_of_isKeyword ht
    exact behind hreact hstop (h (length_advance hstop))
  · rw [ht] at hreact
    exact recognise_refuse hreact

theorem identifier {f : Name → Parser α}
    (hreact : goal.react c.behind.head? c.peek =
      if c.peek.kind = .identifier then .take N else c.peek.unlike .identifier)
    (h : ∀ name, c.advance.ahead.length + 1 = c.ahead.length →
      Tracks (N ++ G) (f name) c.advance H m good) :
    Tracks (goal :: G) (Parser.identifier >>= f) c H m good := by
  refine Ends.bind (.identifier (fun hkind => ?_) fun hkind _ => ?_)
  · rw [if_pos hkind] at hreact
    have hstop : c.peek.isStop = false := by simp [Token.isStop, hkind]
    exact behind hreact hstop (h _ (length_advance hstop))
  · rw [if_neg hkind] at hreact
    exact recognise_refuse hreact

theorem writtenType {f : WrittenType → Parser α}
    (h : ∀ written, c.advance.ahead.length + 1 = c.ahead.length → Tracks G (f written) c.advance H m good) :
    Tracks (.typeName :: G) (Parser.writtenType >>= f) c H m good := by
  refine Ends.bind (.writtenType (fun hkind name hname => ?_) (fun hkind hname _ => ?_) fun hkind _ => ?_)
  · have hstop : c.peek.isStop = false := by simp [Token.isStop, hkind]
    have hreact : Goal.react .typeName c.behind.head? c.peek = .take [] := by simp [Goal.react, hkind, hname]
    exact behind hreact hstop (h _ (length_advance hstop))
  · exact recognise_refuse (by simp [Goal.react, hkind, hname])
  · exact recognise_refuse (if_neg hkind)

end Tracks

/-! ## Items -/

/-- A parser reads what the goals stand for, wherever at most `n` tokens are ahead, and takes a token. -/
def Meets (G : List Goal) (p : Parser α) (n : Nat) (H : List Goal) (good : α → Cursor → Prop) : Prop :=
  ∀ c : Cursor, c.ahead.length ≤ n → Tracks G p c (fun _ => H) (c.ahead.length - 1) good

section Items

variable {kind : ItemKind} {item : Parser α} {n : Nat} {good : α → Cursor → Prop}
  (h : Meets kind.goals item n [] good)

include h

theorem moreItems_tracks : ∀ (bound : Nat) (c : Cursor), c.ahead.length ≤ bound → c.ahead.length ≤ n →
    Tracks [.moreItems kind] (moreItems item bound) c (fun _ => [.moreItems kind]) c.ahead.length
      fun _ c' => c'.peek.is "," = false
  | 0, c, hbound, _ => by
    refine .pure (Nat.le_refl _) (Bool.eq_false_iff.2 fun hcomma => ?_)
    have hstop := peek_isStop hbound
    rw [Token.isStop_of_is hcomma] at hstop
    cases hstop
  | bound + 1, c, hbound, hn => by
    refine .take? (fun hcomma => if_pos hcomma) (fun hlength => ?_) fun hcomma => .pure (Nat.le_refl _) hcomma
    rw [List.append_assoc]
    refine (h c.advance (by omega)).bind fun x c₁ h₁ _ => ?_
    refine (moreItems_tracks bound c₁ (by omega) (by omega)).bind (K := []) fun xs c₂ h₂ hcomma => ?_
    exact .pure (by omega) hcomma

/-- Items up to the closing parenthesis. -/
theorem itemsInParentheses_tracks {bound : Nat} {c : Cursor} (hbound : c.ahead.length ≤ bound)
    (hn : c.ahead.length ≤ n) :
    Tracks [.items kind] (itemsInParentheses item bound) c (fun _ => []) (c.ahead.length - 1)
      fun _ _ => True := by
  refine .peek ?_
  split
  · rename_i hclosing
    exact .take (if_pos hclosing) (Token.isStop_of_is hclosing) fun hlength => .pure (by omega) trivial
  · rename_i hclosing
    refine Tracks.congr (F := kind.goals ++ [.moreItems kind]) ?_ fun k => ?_
    · refine (h c hn).bind fun x c₁ h₁ _ => ?_
      refine (moreItems_tracks h bound c₁ (by omega) (by omega)).bind (K := []) fun xs c₂ h₂ hcomma => ?_
      refine .expect (N := []) ?_ fun hlength => .pure (by omega) trivial
      simp [Goal.react, hcomma]
    · rw [List.append_assoc]
      exact respond_items (Bool.not_eq_true _ ▸ hclosing)

end Items

/-! ## Operands -/

/-- What can be said of an expression besides: it is no return. -/
def NoReturn (e : Expr) (_ : Cursor) : Prop := e.isReturn = false

section

variable {c : Cursor} {m : Nat}

theorem intLiteral_tracks (hunary : unaryOp? c.peek = none) (hkind : c.peek.kind = .int) :
    Tracks [.expression] intLiteral c (fun _ => [.operators]) (c.ahead.length - 1) NoReturn := by
  have hstop : c.peek.isStop = false := by simp [Token.isStop, hkind]
  refine Ends.bind (.take ?_)
  cases hvalue : Text.int64? c.peek.text.toList with
  | some value =>
    refine Tracks.behind (N := [.operators]) ?_ hstop (.pure ?_ rfl)
    · simp [Goal.react, Token.beginExpression, hunary, hkind, hvalue]
    · have := length_advance hstop
      omega
  | none =>
    refine Ends.throw fun _ => recognise_refuse ?_
    simp [Goal.react, Token.beginExpression, hunary, hkind, hvalue]

theorem boolLiteral_tracks (hunary : unaryOp? c.peek = none) (hkind : c.peek.kind = .bool) :
    Tracks [.expression] boolLiteral c (fun _ => [.operators]) (c.ahead.length - 1) NoReturn := by
  refine .take (N := [.operators]) ?_ (by simp [Token.isStop, hkind]) fun hlength => .pure (by omega) rfl
  simp [Goal.react, Token.beginExpression, hunary, hkind]

variable {nested : Parser Expr} {n : Nat} (hn : Meets [.expression] nested n [] NoReturn)
  (hc : c.ahead.length ≤ n + 1)

include hn hc

theorem nameOrCall_tracks {bound : Nat} (hbound : c.ahead.length ≤ bound) (hunary : unaryOp? c.peek = none)
    (hkind : c.peek.kind = .identifier) :
    Tracks [.expression] (nameOrCall nested bound) c (fun _ => [.operators]) (c.ahead.length - 1)
      NoReturn := by
  refine .identifier (N := [.call, .operators]) ?_ fun name hlength => ?_
  · simp [Goal.react, Token.beginExpression, hunary, hkind]
  · refine .take? (fun ht => if_pos ht) (fun hlength' => ?_) fun ht => ?_
    · have hitem : Meets ItemKind.argument.goals nested n [] NoReturn := hn
      refine (itemsInParentheses_tracks hitem (by omega) (by omega)).bind ?_
      exact fun es c₁ h₁ _ => .pure (by omega) rfl
    · exact .leave (if_neg (by simp [ht])) (.pure (by omega) rfl)

theorem conditional_tracks (hunary : unaryOp? c.peek = none) (hkind : c.peek.kind = .keyword .ifWord) :
    Tracks [.expression] (conditional nested) c (fun _ => [.operators]) (c.ahead.length - 1) NoReturn := by
  refine .expectKeyword
    (N := [.expression, .keyword .thenWord, .expression, .alternative, .operators]) ?_ fun hlength => ?_
  · simp [Goal.react, Token.beginExpression, hunary, hkind, Token.isKeyword]
  · refine Tracks.bind (G := [.expression]) (hn _ (by omega)) fun condition c₁ h₁ _ => ?_
    refine .expectKeyword (N := []) rfl fun hlength₁ => ?_
    refine Tracks.bind (G := [.expression]) (hn _ (by omega)) fun thenBranch c₂ h₂ _ => .peek ?_
    split
    · rename_i helse
      refine .take (if_pos helse) (Token.isStop_of_isKeyword helse) fun hlength₂ => ?_
      refine Tracks.bind (G := [.expression]) (hn _ (by omega)) fun elseBranch c₃ h₃ _ => ?_
      exact .pure (by omega) rfl
    · rename_i helse
      exact .leave (if_neg helse) (.pure (by omega) rfl)

theorem loop_tracks (hunary : unaryOp? c.peek = none) (hkind : c.peek.kind = .keyword .whileWord) :
    Tracks [.expression] (loop nested) c (fun _ => [.operators]) (c.ahead.length - 1) NoReturn := by
  refine .expectKeyword (N := [.expression, .keyword .doWord, .expression, .operators]) ?_ fun hlength => ?_
  · simp [Goal.react, Token.beginExpression, hunary, hkind, Token.isKeyword]
  · refine Tracks.bind (G := [.expression]) (hn _ (by omega)) fun condition c₁ h₁ _ => ?_
    refine .expectKeyword (N := []) rfl fun hlength₁ => ?_
    refine Tracks.bind (G := [.expression]) (hn _ (by omega)) fun body c₂ h₂ _ => ?_
    exact .pure (by omega) rfl

theorem declaration_tracks (hunary : unaryOp? c.peek = none) (hkind : c.peek.kind = .keyword .varWord) :
    Tracks [.expression] (declaration nested) c (fun _ => [.operators]) (c.ahead.length - 1) NoReturn := by
  refine .expectKeyword (N := [.identifier, .initial, .operators]) ?_ fun hlength => ?_
  · simp [Goal.react, Token.beginExpression, hunary, hkind, Token.isKeyword]
  · refine .identifier (N := []) rfl fun name hlength₁ => ?_
    refine .take? (N := [.typeName, .spelling "=", .expression]) (fun ht => if_pos ht) (fun hlength₂ => ?_)
      fun ht => ?_
    · rw [map_eq_pure_bind]
      refine Tracks.bind (G := [.typeName]) (n := c.ahead.length - 1) (g := fun _ _ => True)
        (.writtenType fun written hlength₃ => .pure (by omega) trivial) fun written? c₁ h₁ _ => ?_
      refine .expect (N := []) rfl fun hlength₄ => ?_
      refine Tracks.bind (G := [.expression]) (hn _ (by omega)) fun value c₂ h₂ _ => ?_
      exact .pure (by omega) rfl
    · simp only [pure_bind]
      refine .expect (N := [.expression]) (by simp [Goal.react, ht]) fun hlength₂ => ?_
      refine Tracks.bind (G := [.expression]) (hn _ (by omega)) fun value c₁ h₁ _ => ?_
      exact .pure (by omega) rfl

theorem grouping_tracks (hunary : unaryOp? c.peek = none) (hkind : c.peek.kind = .parenthesis)
    (hopening : c.peek.is "(" = true) :
    Tracks [.expression] (grouping nested) c (fun _ => [.operators]) (c.ahead.length - 1) NoReturn := by
  refine .expect (N := [.expression, .spelling ")", .operators]) ?_ fun hlength => ?_
  · simp [Goal.react, Token.beginExpression, hunary, hkind, hopening]
  · refine Tracks.bind (G := [.expression]) (hn _ (by omega)) fun e c₁ h₁ he => ?_
    exact .expect (N := []) rfl fun hlength₁ => .pure (by omega) he

omit hn hc

theorem loopControl_tracks (control : LoopControl) (hunary : unaryOp? c.peek = none)
    (hkind : c.peek.kind = .keyword control.keyword) :
    Tracks [.expression] (loopControl control) c (fun _ => [.operators]) (c.ahead.length - 1) NoReturn := by
  refine .take (N := [.operators]) ?_ (by simp [Token.isStop, hkind]) fun hlength => .pure (by omega) rfl
  cases control <;> simp [Goal.react, Token.beginExpression, hunary, hkind, LoopControl.keyword]

end

/-! ## Sequences -/

section

variable {enclosure : Enclosure} {c : Cursor} {n : Nat}

/-- What may follow a statement. -/
theorem statementEnd_tracks (isReturn : Bool) :
    Tracks [.afterStatement enclosure isReturn] (statementEnd enclosure isReturn) c (fun _ => [])
      c.ahead.length fun _ _ => True := by
  refine Ends.statementEnd (fun hs => ?_) (fun hs hend => ?_) (fun hs hend => ?_)
  · have hlength := length_advance (Token.isStop_of_is hs)
    have htake : ∀ k, recognise ([.afterStatement enclosure isReturn] ++ k) c =
        recognise ((if isReturn then [.closing enclosure] else []) ++ k) c.advance := fun k =>
      recognise_take (if_pos hs) (Token.isStop_of_is hs)
    split
    · rename_i hreturn
      simp only [if_pos hreturn] at htake
      split
      · rename_i hclosed
        refine ⟨by omega, trivial, fun k => (htake k).trans ?_⟩
        exact recognise_leave (if_pos hclosed)
      · rename_i hclosed
        exact fun k => (htake k).trans (recognise_refuse (if_neg hclosed))
    · rename_i hreturn
      simp only [if_neg hreturn] at htake
      exact ⟨by omega, trivial, htake⟩
  -- No semicolon is needed at the end of the sequence, behind a brace, and before a definition.
  · have hreact : Goal.react (.afterStatement enclosure isReturn) c.behind.head? c.peek =
        if isReturn && !enclosure.closedBy c.peek then .refuse .returnNotLast else .leave := by
      rw [Cursor.isBehindBrace] at hend
      simp only [Goal.react, hs, hend, if_true, Bool.false_eq_true, if_false]
    split
    · rename_i hreturn
      split
      · rename_i hclosed
        refine ⟨Nat.le_refl _, trivial, fun k => recognise_leave (hreact.trans (if_neg ?_))⟩
        simp [hclosed]
      · rename_i hclosed
        refine fun k => recognise_refuse (hreact.trans (if_pos ?_))
        simp [hclosed, hreturn]
    · rename_i hreturn
      refine ⟨Nat.le_refl _, trivial, fun k => recognise_leave (hreact.trans (if_neg ?_))⟩
      simp [hreturn]
  · refine fun k => recognise_refuse ?_
    rw [Cursor.isBehindBrace] at hend
    simp only [Goal.react, hs, hend, Bool.false_eq_true, if_false]
    rfl

variable {nested : Parser Expr} (hn : Meets [.expression] nested n [] NoReturn)

include hn

theorem statement_tracks (hc : c.ahead.length ≤ n) (hopen : enclosure.closedBy c.peek = false)
    (hdefines : enclosure.defines c.peek = false) :
    Tracks [.statements enclosure] (statement nested) c
      (fun s => [.afterStatement enclosure s.isReturn, .statements enclosure]) (c.ahead.length - 1)
      fun _ _ => True := by
  refine .peek ?_
  split
  · rename_i hreturn
    refine .take (N := [.returned, .afterStatement enclosure true, .statements enclosure]) ?_
      (Token.isStop_of_isKeyword hreturn) fun hlength => .peek ?_
    · simp [Goal.react, hopen, hdefines, hreturn]
    · split
      · rename_i hmissing
        refine .leave (if_pos hmissing) ?_
        exact Ends.pure ⟨by omega, trivial, fun _ => rfl⟩
      · rename_i hmissing
        refine Tracks.congr (F := [.expression, .afterStatement enclosure true, .statements enclosure]) ?_
          fun k => respond_returned (Bool.not_eq_true _ ▸ hmissing)
        refine Tracks.bind (G := [.expression]) (hn _ (by omega)) fun e c₁ h₁ _ => ?_
        exact Ends.pure ⟨by omega, trivial, fun _ => rfl⟩
  · rename_i hreturn
    refine Tracks.congr (F := [.expression, .afterStatement enclosure false, .statements enclosure]) ?_
      fun k => respond_statement hopen hdefines (Bool.not_eq_true _ ▸ hreturn)
    refine Ends.mono (hn c hc) ?_ fun fault h k => h _
    rintro e c' ⟨hlength, he, hk⟩
    rw [NoReturn] at he
    refine ⟨hlength, trivial, fun k => ?_⟩
    simp only [he]
    exact hk _

/-- A sequence is tracked up to the token that ends it. -/
theorem sequence_tracks {definition : Parser FunctionDefinition}
    (hd : enclosure = .text → ∀ c : Cursor, c.ahead.length ≤ n → c.peek.isKeyword .funWord = true →
      Tracks [.statements .text] definition c (fun _ => [.statements .text]) (c.ahead.length - 1)
        fun _ _ => True) :
    ∀ (bound : Nat) (semicolon? : Option Location) (c : Cursor), c.ahead.length ≤ bound →
      c.ahead.length ≤ n → Tracks [.statements enclosure]
        (sequence enclosure definition nested bound semicolon?) c (fun _ => []) c.ahead.length
        fun _ _ => True := by
  intro bound
  induction bound with
  | zero =>
    intro semicolon? c hbound hn
    unfold sequence
    refine .atClosing ?_
    split
    · rename_i hclosed
      exact .leave (if_pos hclosed) (.pure (Nat.le_refl _) trivial)
    -- Nothing is ahead, and nothing begins there: with braces open this is refused.
    · rename_i hopen
      refine .unexpected ?_
      have hstop := peek_isStop hbound
      cases enclosure with
      | braces =>
        have hbegin := Token.beginExpression_of_isStop hstop
        have hword : c.peek.isKeyword .returnWord = false :=
          Bool.eq_false_iff.2 fun h => by rw [Token.isStop_of_isKeyword h] at hstop; cases hstop
        simp only [Goal.react, Bool.not_eq_true _ ▸ hopen, hword, hbegin]
        rfl
      | text => exact absurd hstop hopen
  | succ bound ih =>
    intro semicolon? c hbound hlength
    unfold sequence
    refine .atClosing ?_
    split
    · rename_i hclosed
      exact .leave (if_pos hclosed) (.pure (Nat.le_refl _) trivial)
    · rename_i hopen
      refine .atDefinition ?_
      split
      · rename_i hdefines
        simp only [Enclosure.defines, Bool.and_eq_true, beq_iff_eq] at hdefines
        obtain ⟨rfl, hword⟩ := hdefines
        refine (hd rfl c hlength hword).bind (K := []) fun f c₁ h₁ _ => ?_
        refine (ih semicolon? c₁ (by omega) (by omega)).bind (K := []) fun rest c₂ h₂ _ => ?_
        exact .pure (by omega) trivial
      · rename_i hdefines
        have hs := statement_tracks hn hlength (Bool.not_eq_true _ ▸ hopen) (Bool.not_eq_true _ ▸ hdefines)
        refine hs.bind (K := []) fun s c₁ h₁ _ => ?_
        refine (statementEnd_tracks s.isReturn).bind (K := [.statements enclosure])
          fun semicolon? c₂ h₂ _ => ?_
        refine (ih semicolon? c₂ (by omega) (by omega)).bind (K := []) fun rest c₃ h₃ _ => ?_
        exact .pure (by omega) trivial

/-- A block, on whatever goal its opening brace is taken. -/
theorem block_tracks {bound : Nat} {goal : Goal} {N G K : List Goal} (hc : c.ahead.length ≤ n + 1)
    (hbound : c.ahead.length ≤ bound)
    (hreact : goal.react c.behind.head? c.peek =
      if c.peek.is "\x7b" then .take N else c.peek.unlike (.spelling "\x7b"))
    (hN : N ++ K = .statements .braces :: .spelling "\x7d" :: G) :
    Tracks (goal :: K) (block nested bound) c (fun _ => G) (c.ahead.length - 1) NoReturn := by
  refine .expect hreact fun hlength => ?_
  rw [hN]
  refine Tracks.bind (G := [.statements .braces])
    (sequence_tracks hn (fun h => by cases h) bound none _ (by omega) (by omega)) fun inside c₁ h₁ _ => ?_
  exact .expect (N := []) rfl fun hlength₁ => .pure (by omega) rfl

/-! ## Operators -/

theorem operand_tracks {bound : Nat} (hc : c.ahead.length ≤ n + 1) (hbound : c.ahead.length ≤ bound)
    (hunary : unaryOp? c.peek = none) :
    Tracks [.expression] (operand nested bound) c (fun _ => [.operators]) (c.ahead.length - 1) NoReturn := by
  refine .peek ?_
  split
  · rename_i hkind; exact intLiteral_tracks hunary hkind
  · rename_i hkind; exact boolLiteral_tracks hunary hkind
  · rename_i hkind; exact nameOrCall_tracks hn hc hbound hunary hkind
  · rename_i hkind; exact conditional_tracks hn hc hunary hkind
  · rename_i hkind; exact loop_tracks hn hc hunary hkind
  · rename_i hkind; exact declaration_tracks hn hc hunary hkind
  · rename_i hkind; exact loopControl_tracks .exit hunary hkind
  · rename_i hkind; exact loopControl_tracks .next hunary hkind
  · rename_i hkind
    split
    · rename_i hopening; exact grouping_tracks hn hc hunary hkind hopening
    · rename_i hgroup
      split
      · rename_i hopening
        refine block_tracks hn (N := [.statements .braces, .spelling "\x7d", .operators]) hc hbound ?_ rfl
        simp [Goal.react, Token.beginExpression, hunary, hkind, hgroup, hopening]
      · rename_i hblock
        exact .unexpected (by simp [Goal.react, Token.beginExpression, hunary, hkind, hgroup, hblock])
  · refine .unexpected ?_
    simp only [Goal.react, Token.beginExpression, hunary]

theorem unary_tracks {bound : Nat} : ∀ times : Nat, ∀ c : Cursor, c.ahead.length ≤ n + 1 →
    c.ahead.length ≤ bound → c.ahead.length ≤ times →
      Tracks [.expression] (unary (operand nested bound) times) c (fun _ => [.operators])
        (c.ahead.length - 1) NoReturn
  | 0, c, hc, hbound, htimes => by
    refine operand_tracks hn hc hbound ?_
    have hkind : c.peek.kind = .stop := eq_of_beq (peek_isStop htimes)
    simp [unaryOp?, Token.is, hkind]
  | times + 1, c, hc, hbound, htimes => by
    refine .peek ?_
    split
    · rename_i hunary
      exact operand_tracks hn hc hbound hunary
    · rename_i op hop
      refine .take (N := [.expression]) ?_ (Token.isStop_of_is (is_of_unaryOp? hop)) fun hlength => ?_
      · simp [Goal.react, Token.beginExpression, hop]
      · refine (unary_tracks times _ (by omega) (by omega) (by omega)).bind (K := []) fun e c₁ h₁ _ => ?_
        exact .pure (by omega) rfl

end

/-- What is known behind the operands of some levels: no operator of these levels follows. -/
def Behind (levels : List (List BinaryOp)) (e : Expr) (c : Cursor) : Prop :=
  e.isReturn = false ∧ ∀ ops ∈ levels, binaryOp? ops c.peek = none

section

variable {inner : Parser Expr} {n : Nat} {tighter : List (List BinaryOp)}

theorem moreOperands_tracks {ops : List BinaryOp} (hops : ops ∈ BinaryOp.levels)
    (h : Meets [.expression] inner n [.operators] (Behind tighter)) :
    ∀ (bound : Nat) (lhs : Expr) (c : Cursor), c.ahead.length ≤ bound → c.ahead.length ≤ n →
      Behind tighter lhs c → Tracks [.operators] (moreOperands ops inner bound lhs) c
        (fun _ => [.operators]) c.ahead.length (Behind (ops :: tighter))
  | 0, lhs, c, hbound, _, ⟨hlhs, htighter⟩ => by
    refine .pure (Nat.le_refl _) ⟨hlhs, List.forall_mem_cons.2 ⟨?_, htighter⟩⟩
    have hkind : c.peek.kind = .stop := eq_of_beq (peek_isStop hbound)
    exact if_neg (by simp [hkind])
  | bound + 1, lhs, c, hbound, hn, ⟨hlhs, htighter⟩ => by
    refine .peek ?_
    split
    · rename_i hop
      exact .pure (Nat.le_refl _) ⟨hlhs, List.forall_mem_cons.2 ⟨hop, htighter⟩⟩
    · rename_i op hop
      have hbinary : c.peek.isBinary = true := List.any_eq_true.2 ⟨ops, hops, by rw [hop]; rfl⟩
      refine .take (N := [.expression]) (if_pos (by rw [hbinary]; rfl))
        (Token.isStop_of_isBinary hbinary) fun hlength => ?_
      refine (h _ (by omega)).bind (K := []) fun rhs c₁ h₁ hrhs => ?_
      exact (moreOperands_tracks hops h bound _ c₁ (by omega) (by omega) ⟨rfl, hrhs.2⟩).mono (by omega)
        fun _ _ h => h

theorem binary_tracks {bound : Nat} (hbound : n ≤ bound)
    (h : Meets [.expression] inner n [.operators] NoReturn) :
    ∀ levels : List (List BinaryOp), (∀ ops ∈ levels, ops ∈ BinaryOp.levels) →
      Meets [.expression] (binary inner bound levels) n [.operators] (Behind levels)
  | [], _, c, hc => (h c hc).mono (Nat.le_refl _) fun _ _ he => ⟨he, nofun⟩
  | ops :: tighter, hlevels, c, hc => by
    obtain ⟨hops, htighter⟩ := List.forall_mem_cons.1 hlevels
    have ih := binary_tracks hbound h tighter htighter
    refine (ih c hc).bind (K := []) fun lhs c₁ h₁ hlhs => ?_
    exact (moreOperands_tracks hops ih bound lhs c₁ (by omega) (by omega) hlhs).mono h₁ fun _ _ h => h

end

/-! ## Expressions and modules -/

theorem assignment_tracks {nested : Parser Expr} {n : Nat} (hn : Meets [.expression] nested n [] NoReturn) :
    Meets [.expression] (assignment nested (n + 1)) (n + 1) [] NoReturn := by
  intro c hc
  have hunary : Meets [.expression] (unary (operand nested (n + 1)) (n + 1)) (n + 1) [.operators] NoReturn :=
    fun c hc => unary_tracks hn (n + 1) c hc hc hc
  have hbinary := binary_tracks (Nat.le_refl _) hunary BinaryOp.levels fun _ h => h
  refine (hbinary c hc).bind (K := []) fun lhs c₁ h₁ hlhs => ?_
  refine .take? (N := [.expression]) (fun hassign => if_pos (by rw [hassign, Bool.or_true]))
    (fun hlength => ?_) fun hassign => ?_
  · refine (hn _ (by omega)).bind (K := []) fun value c₂ h₂ _ => ?_
    exact .pure (by omega) rfl
  · have hbinary : c₁.peek.isBinary = false := by
      refine List.any_eq_false.2 fun ops hops => ?_
      simp [hlhs.2 ops hops]
    exact .leave (if_neg (by simp [hbinary, hassign])) (.pure (by omega) hlhs.1)

theorem expressionWithin_tracks : ∀ n : Nat, Meets [.expression] (expressionWithin n) n [] NoReturn
  | 0 => fun _ hc => .unexpected (Token.beginExpression_of_isStop (peek_isStop hc))
  | n + 1 => assignment_tracks (expressionWithin_tracks n)

theorem parameter_tracks {n : Nat} : Meets ItemKind.parameter.goals parameter n [] fun _ _ => True := by
  intro c hc
  refine .identifier (N := []) rfl fun name hlength => .expect (N := []) rfl fun hlength₁ => ?_
  exact .writtenType fun written hlength₂ => .pure (by omega) trivial

theorem definition_tracks {nested : Parser Expr} {n : Nat} (hn : Meets [.expression] nested n [] NoReturn)
    {c : Cursor} (hc : c.ahead.length ≤ n) (hword : c.peek.isKeyword .funWord = true) :
    Tracks [.statements .text] (definition nested n) c (fun _ => [.statements .text]) (c.ahead.length - 1)
      fun _ _ => True := by
  have hopen : Enclosure.text.closedBy c.peek = false := Token.isStop_of_isKeyword hword
  refine .expectKeyword (N := [.identifier, .spelling "(", .items .parameter, .spelling ":", .typeName,
    .spelling "\x7b", .statements .braces, .spelling "\x7d", .statements .text]) ?_ fun hlength => ?_
  · simp [Goal.react, hopen, Enclosure.defines, hword]
  · refine .identifier (N := []) rfl fun name hlength₁ => .expect (N := []) rfl fun hlength₂ => ?_
    refine Tracks.bind (G := [.items .parameter])
      (itemsInParentheses_tracks parameter_tracks (by omega) (Nat.le_refl _)) fun parameters c₁ h₁ _ => ?_
    refine .expect (N := []) rfl fun hlength₃ => .writtenType fun result hlength₄ => ?_
    refine Tracks.bind (K := []) (block_tracks hn (N := []) (by omega) (by omega) rfl rfl)
      fun body c₂ h₂ _ => ?_
    exact .pure (by omega) trivial

/-- The parser of modules fails just where the machine refuses a token. -/
theorem module_tracks (c : Cursor) :
    Tracks [.statements .text] module c (fun _ => []) c.ahead.length fun _ _ => True := by
  refine .peek (Ends.bind (.remaining ?_))
  have hn := expressionWithin_tracks c.ahead.length
  refine (sequence_tracks hn (fun _ c hc hword => definition_tracks hn hc hword) _ none c (Nat.le_refl _)
    (Nat.le_refl _)).bind (K := []) fun inside c₁ h₁ _ => ?_
  exact .pure h₁ trivial

theorem module_fails_iff {tokens : List Token} {fault : Fault ParseError} :
    (module.run (.start tokens)).1 = .error fault ↔
      recogniseFrom [.statements .text] [] tokens = .error fault := by
  have h := module_tracks (.start tokens)
  refine ⟨fun hfault => h.error hfault [], fun hfault => ?_⟩
  cases hrun : (module.run (.start tokens)).1 with
  | ok m =>
    obtain ⟨-, -, hok⟩ := h.ok hrun
    have hnil := (hok []).trans (recognise_nil _)
    rw [List.append_nil, recognise, Cursor.start, hfault] at hnil
    cases hnil
  | error fault' =>
    have hfault' := h.error hrun []
    rw [List.append_nil, recognise, Cursor.start, hfault] at hfault'
    cases hfault'
    rfl

theorem exists_module_iff {tokens : List Token} :
    (∃ m, (module.run (.start tokens)).1 = .ok m) ↔ recogniseFrom [.statements .text] [] tokens = .ok () := by
  cases hrun : (module.run (.start tokens)).1 with
  | ok m =>
    obtain ⟨-, -, hok⟩ := (module_tracks (.start tokens)).ok hrun
    exact ⟨fun _ => (hok []).trans (recognise_nil _), fun _ => ⟨m, rfl⟩⟩
  | error fault =>
    rw [module_fails_iff.1 hrun]
    exact ⟨nofun, nofun⟩

end Parser

/-- A parse error points at the first token with which no program goes on: the tokens before it are the
beginning of a program, and whatever tokens stand behind it the error is the same. -/
theorem module_first_fault {source : Source} {tokens : List Token} {d : Diagnostic}
    (ht : tokenize source = .ok tokens) (hd : Parser.module.readSource source = .error d) :
    ∃ (before : List Token) (t : Token) (after : List Token) (fault : Fault ParseError),
      tokens = before ++ t :: after ∧ fault.diagnostic = d ∧
      d.location? = some t.location ∧ (∀ u ∈ before ++ after, u.location ≠ t.location) ∧
      (∃ (rest : List Token) (m : Module), (∀ u ∈ before ++ rest, u.isStop = false) ∧
        (Parser.module.run (.start (before ++ rest ++ [.stop .start]))).1 = .ok m) ∧
      ∀ rest, (Parser.module.run (.start (before ++ t :: rest))).1 = .error fault := by
  rw [Parser.readSource, ht] at hd
  dsimp only at hd
  split at hd
  · rename_i fault hrun
    cases hd
    obtain ⟨⟨initial, place, hinitial, -⟩, hordered, -⟩ := tokenize_behind ht
    have hstop : ∃ t ∈ tokens, t.isStop = true := ⟨.stop place, by simp [hinitial], rfl⟩
    have hstacked : Stacked [.statements .text] := rfl
    obtain ⟨before, t, after, rfl, hlocation, ⟨rest, hrest, hok⟩, hall⟩ :=
      refuses hstacked hstop (Parser.module_fails_iff.1 hrun)
    obtain ⟨m, hm⟩ := Parser.exists_module_iff.2 hok
    refine ⟨before, t, after, fault, rfl, rfl, hlocation, fun u hu => ?_, ⟨rest, m, hrest, hm⟩,
      fun rest => Parser.module_fails_iff.2 (hall rest)⟩
    obtain ⟨-, hafter, hbefore⟩ := List.pairwise_append.1 hordered
    obtain hu | hu := List.mem_append.1 hu
    · exact (hbefore u hu t List.mem_cons_self).ne
    · exact ((List.pairwise_cons.1 hafter).1 u hu).ne.symm
  · cases hd

theorem module_first_fault_return :
    ∃ (before : List Token) (t : Token) (after : List Token),
      tokenize ⟨"return 1; 2", .memory⟩ = .ok (before ++ t :: after) ∧ t.location = ⟨1, 11⟩ ∧
      ∀ rest, (Parser.module.run (.start (before ++ t :: rest))).1 = .error (.at ⟨1, 11⟩ .returnNotLast) := by
  obtain ⟨tokens, ht, hrun⟩ : ∃ tokens, tokenize ⟨"return 1; 2", .memory⟩ = .ok tokens ∧
      (Parser.module.run (.start tokens)).1 = .error (.at ⟨1, 11⟩ .returnNotLast) := by
    refine ⟨?tokens, ?ht, ?hf⟩
    case ht => cbv; rfl
    case hf => cbv
  have hd : Parser.module.readSource ⟨"return 1; 2", .memory⟩ =
      .error (Fault.at ⟨1, 11⟩ ParseError.returnNotLast).diagnostic := by
    rw [Parser.readSource, ht]
    dsimp only
    rw [hrun]
  obtain ⟨before, t, after, fault, rfl, -, hlocation, -, -, hall⟩ := module_first_fault ht hd
  obtain rfl : _ = fault := Except.error.inj (hrun.symm.trans (hall after))
  exact ⟨before, t, after, ht, (Option.some.inj hlocation).symm, hall⟩

end Exprc.Syntax

/-
What a parser reads. The tokens that a parser leaves behind when it succeeds are a rendering of what it
yields (`Reads`). It is shown for each construct of the grammar, given that it holds of the parser for the
expressions inside.
-/
import Exprc.Proofs.Syntax.Rendering
import Exprc.Proofs.Syntax.Runs

namespace Exprc.Syntax.Parser

variable {α β : Type}

/-! ## Reading -/

/-- If a parser succeeds, then the tokens between the two cursors can be laid out such that `good` holds
of the layout, of what the parser yields and of the cursor behind it. -/
def Reads (p : Parser α) (c : Cursor) (good : Layout → α → Cursor → Prop) : Prop :=
  Ends p c (fun a c' => ∃ l : Layout, c.ahead = l.tokens ++ c'.ahead ∧
    c'.behind = l.tokens.reverse ++ c.behind ∧ (∀ t ∈ l.tokens, t.isStop = false) ∧ good l a c')
    fun _ => True

namespace Reads

variable {c : Cursor} {good : Layout → α → Cursor → Prop}

theorem ok {p : Parser α} (h : Reads p c good) {a : α} (ha : (p.run c).1 = .ok a) :
    ∃ l : Layout, c.ahead = l.tokens ++ (p.run c).2.ahead ∧
      (p.run c).2.behind = l.tokens.reverse ++ c.behind ∧ (∀ t ∈ l.tokens, t.isStop = false) ∧
      good l a (p.run c).2 :=
  Ends.ok h ha

/-- A step that takes nothing. -/
theorem of_ends {p : Parser α} (h : Ends p c (fun a c' => c' = c ∧ good [] a c) fun _ => True) :
    Reads p c good := by
  refine h.mono ?_ fun _ _ => trivial
  rintro a _ ⟨rfl, h⟩
  exact ⟨[], rfl, rfl, nofun, h⟩

theorem pure {a : α} (h : good [] a c) : Reads (Pure.pure a) c good := of_ends (.pure ⟨rfl, h⟩)

theorem unexpected (expected : Expectation) :
    Reads (Parser.unexpected expected : Parser α) c good := Ends.unexpected trivial

theorem bind {p : Parser β} {f : β → Parser α} {g : Layout → β → Cursor → Prop}
    (h : Reads p c g)
    (hf : ∀ l b c', c'.behind = l.tokens.reverse ++ c.behind → g l b c' →
      Reads (f b) c' fun l' a c'' => good (l ++ l') a c'') : Reads (p >>= f) c good := by
  refine Ends.bind (Ends.mono h ?_ fun _ _ => trivial)
  rintro b c' ⟨l, hahead, hbehind, hstop, hgood⟩
  refine Ends.mono (hf l b c' hbehind hgood) ?_ fun _ _ => trivial
  rintro a c'' ⟨l', hahead', hbehind', hstop', hgood'⟩
  refine ⟨l ++ l', ?_, ?_, ?_, hgood'⟩
  · rw [hahead, hahead', Layout.tokens_append, List.append_assoc]
  · rw [hbehind', hbehind, Layout.tokens_append, List.reverse_append, List.append_assoc]
  · rw [Layout.tokens_append]
    exact List.forall_mem_append.2 ⟨hstop, hstop'⟩

theorem mono {p : Parser α} {g : Layout → α → Cursor → Prop} (h : Reads p c g)
    (hgood : ∀ l a c', g l a c' → good l a c') : Reads p c good :=
  Ends.mono h (fun _ _ ⟨l, h₁, h₂, h₃, h⟩ => ⟨l, h₁, h₂, h₃, hgood _ _ _ h⟩) fun _ _ => trivial

/-- Looking at the next token. -/
theorem peek {f : Token → Parser α} (h : Reads (f c.peek) c good) :
    Reads (Parser.peek >>= f) c good :=
  Ends.bind (.peek h)

/-! A step that takes a token, whatever it is there for. -/

section Taking

variable (role : Role)

/-- A run behind the next token, which is not the stop token. -/
theorem behind {f : Token → Parser α} (hstop : c.peek.isStop = false)
    (h : Reads (f c.peek) c.advance fun l a c' => good ((role, c.peek) :: l) a c') :
    Ends (f c.peek) c.advance (fun a c' => ∃ l : Layout, c.ahead = l.tokens ++ c'.ahead ∧
      c'.behind = l.tokens.reverse ++ c.behind ∧ (∀ t ∈ l.tokens, t.isStop = false) ∧ good l a c')
      fun _ => True := by
  refine Ends.mono h ?_ fun _ _ => trivial
  rintro a c' ⟨l, hahead, hbehind, hstop', hgood⟩
  refine ⟨(role, c.peek) :: l, ?_, ?_, List.forall_mem_cons.2 ⟨hstop, hstop'⟩, hgood⟩
  · rw [Layout.tokens_cons, List.cons_append, ← hahead, c.ahead_eq hstop]
  · rw [hbehind, c.behind_advance hstop, Layout.tokens_cons, List.reverse_cons, List.append_assoc]
    rfl

theorem take {f : Token → Parser α} (hstop : c.peek.isStop = false)
    (h : Reads (f c.peek) c.advance fun l a c' => good ((role, c.peek) :: l) a c') :
    Reads (Parser.take >>= f) c good :=
  Ends.bind (.take (behind role hstop h))

theorem expect {text : String} {f : Token → Parser α}
    (h : c.peek.is text = true →
      Reads (f c.peek) c.advance fun l a c' => good ((role, c.peek) :: l) a c') :
    Reads (Parser.expect text >>= f) c good :=
  Ends.bind (.expect (fun ht => behind role (Token.isStop_of_is ht) (h ht)) fun _ => trivial)

theorem expectKeyword {word : Keyword} {f : Token → Parser α}
    (h : c.peek.isKeyword word = true →
      Reads (f c.peek) c.advance fun l a c' => good ((role, c.peek) :: l) a c') :
    Reads (Parser.expectKeyword word >>= f) c good :=
  Ends.bind
    (.expectKeyword (fun ht => behind role (Token.isStop_of_isKeyword ht) (h ht)) fun _ => trivial)

theorem take? {text : String} {f : Option Token → Parser α}
    (yes : c.peek.is text = true →
      Reads (f (some c.peek)) c.advance fun l a c' => good ((role, c.peek) :: l) a c')
    (no : c.peek.is text = false → Reads (f none) c good) :
    Reads (Parser.take? text >>= f) c good :=
  Ends.bind (.take?
    (fun ht => behind role (f := fun t => f (some t)) (Token.isStop_of_is ht) (yes ht)) no)

end Taking

theorem identifier {f : Name → Parser α}
    (h : c.peek.kind = .identifier → Reads (f ⟨c.peek.location, c.peek.text⟩) c.advance
      fun l a c' => good ((.node, c.peek) :: l) a c') :
    Reads (Parser.identifier >>= f) c good :=
  Ends.bind (.identifier
    (fun hk => behind .node (f := fun t => f ⟨t.location, t.text⟩) (by simp [Token.isStop, hk]) (h hk))
    fun _ => trivial)

theorem writtenType {f : WrittenType → Parser α}
    (h : c.peek.kind = .identifier → ∀ name, TypeName.ofText? c.peek.text = some name →
      Reads (f ⟨c.peek.location, name⟩) c.advance
        fun l a c' => good ((.node, c.peek) :: l) a c') :
    Reads (Parser.writtenType >>= f) c good :=
  Ends.bind (.writtenType
    (fun hk name hname => behind .node (f := fun t => f ⟨t.location, name⟩)
      (by simp [Token.isStop, hk]) (h hk name hname))
    (fun _ _ => trivial) fun _ => trivial)

end Reads

theorem annotation_reads (c : Cursor) :
    Reads (some <$> writtenType) c fun l written? _ => ∃ (t : Token) (name : TypeName),
      t.kind = .identifier ∧ TypeName.ofText? t.text = some name ∧ l = [(.node, t)] ∧
      written? = some ⟨t.location, name⟩ := by
  rw [map_eq_pure_bind]
  exact .writtenType fun hkind name hname => .pure ⟨c.peek, name, hkind, hname, rfl, rfl⟩

/-! ## Items -/

/-- Whether all that a parser yields is rendered by what it reads. -/
def Renders (p : Parser α) (rendering : α → Layout → Prop) : Prop :=
  ∀ c, Reads p c fun l a _ => rendering a l

section Items

variable {item : Parser α} {rendering : α → Layout → Prop} (h : Renders item rendering)

include h

theorem moreItems_reads : ∀ (bound : Nat) (c : Cursor),
    Reads (moreItems item bound) c fun l xs _ => ∃ items : List (Item α), xs = items.map (·.item) ∧
      l = items.flatMap (·.whole) ∧ (∀ i ∈ items, rendering i.item i.layout) ∧
      ∀ i ∈ items, ∃ comma, i.comma? = some comma ∧ comma.is "," = true
  | 0, c => .pure ⟨[], rfl, rfl, nofun, nofun⟩
  | bound + 1, c => by
    refine .take? .node (fun hcomma => ?_) fun _ => .pure ⟨[], rfl, rfl, nofun, nofun⟩
    refine (h _).bind fun l x c₁ _ hx => (moreItems_reads bound c₁).bind fun l' xs _ _ hxs => .pure ?_
    obtain ⟨items, rfl, rfl, hitems, hcommas⟩ := hxs
    refine ⟨⟨some c.peek, x, l⟩ :: items, rfl, by simp [Item.whole], ?_, ?_⟩
    · exact List.forall_mem_cons.2 ⟨hx, hitems⟩
    · exact List.forall_mem_cons.2 ⟨⟨_, rfl, hcomma⟩, hcommas⟩

/-- Items up to the closing parenthesis. -/
theorem itemsInParentheses_reads (bound : Nat) (c : Cursor) :
    Reads (itemsInParentheses item bound) c fun l xs _ =>
      ∃ (items : List (Item α)) (closing : Token), xs = items.map (·.item) ∧
        l = items.flatMap (·.whole) ++ [(.node, closing)] ∧
        (∀ i ∈ items, rendering i.item i.layout) ∧ Item.Listed items ∧ closing.is ")" = true := by
  refine .peek ?_
  split
  · rename_i hclosing
    refine .take .node (Token.isStop_of_is hclosing) (.pure ?_)
    exact ⟨[], c.peek, rfl, rfl, nofun, ⟨nofun, nofun⟩, hclosing⟩
  · refine (h c).bind fun l x c₁ _ hx => (moreItems_reads h bound c₁).bind fun l' xs c₂ _ hxs => ?_
    refine .expect .node fun hclosing => .pure ?_
    obtain ⟨items, rfl, rfl, hitems, hcommas⟩ := hxs
    refine ⟨⟨none, x, l⟩ :: items, c₂.peek, rfl, by simp [Item.whole], ?_, ⟨?_, hcommas⟩, hclosing⟩
    · exact List.forall_mem_cons.2 ⟨hx, hitems⟩
    · rintro _ ⟨⟩
      rfl

end Items

/-! ## Operands -/

theorem intLiteral_renders (c : Cursor) (hkind : c.peek.kind = .int) :
    Reads intLiteral c fun l e _ => Rendering .expression e l := by
  refine .take .node (by simp [Token.isStop, hkind]) ?_
  split
  · rename_i value hvalue
    exact .pure (.int hkind hvalue)
  · exact Ends.throw trivial

theorem boolLiteral_renders (c : Cursor) (hkind : c.peek.kind = .bool) :
    Reads boolLiteral c fun l e _ => Rendering .expression e l :=
  .take .node (by simp [Token.isStop, hkind]) (.pure (.bool hkind))

theorem loopControl_renders (control : LoopControl) (c : Cursor)
    (hword : c.peek.isKeyword control.keyword = true) :
    Reads (loopControl control) c fun l e _ => Rendering .expression e l :=
  .take .node (Token.isStop_of_isKeyword hword) (.pure (.control hword))

section

variable {nested : Parser Expr} (hn : Renders nested (Rendering .expression))

include hn

theorem statement_renders : Renders (statement nested) (Rendering .statement) := by
  intro c
  refine .peek ?_
  split
  · rename_i hword
    refine .take .node (Token.isStop_of_isKeyword hword) (.peek ?_)
    split
    · exact .pure (.leave hword)
    · refine (hn _).bind fun l e _ _ he => .pure ?_
      simpa using Rendering.leaveWith hword he
  · exact (hn c).mono fun l e _ he => .statement he

theorem nameOrCall_renders (bound : Nat) : Renders (nameOrCall nested bound) (Rendering .expression) := by
  intro c
  refine .identifier fun hname => .take? .node (fun hopening => ?_) fun _ => .pure (.name hname)
  refine (itemsInParentheses_reads hn bound _).bind fun l es _ _ hes => .pure ?_
  obtain ⟨items, closing, rfl, rfl, hitems, hlisted, hclosing⟩ := hes
  simpa using Rendering.call hname hopening hitems hlisted hclosing

theorem conditional_renders : Renders (conditional nested) (Rendering .expression) := by
  intro c
  refine .expectKeyword .node fun hif => (hn _).bind fun lc e₁ c₁ _ h₁ => ?_
  refine .expectKeyword .node fun hthen => (hn _).bind fun lt e₂ c₂ _ h₂ => .peek ?_
  split
  · rename_i helse
    refine .take .node (Token.isStop_of_isKeyword helse) ((hn _).bind fun le e₃ _ _ h₃ => .pure ?_)
    simpa using Rendering.ifElse hif h₁ hthen h₂ helse h₃
  · exact .pure (by simpa using Rendering.ifThen hif h₁ hthen h₂)

theorem loop_renders : Renders (loop nested) (Rendering .expression) := by
  intro c
  refine .expectKeyword .node fun hwhile => (hn _).bind fun lc e₁ c₁ _ h₁ => ?_
  refine .expectKeyword .node fun hdo => (hn _).bind fun lb e₂ _ _ h₂ => .pure ?_
  simpa using Rendering.loop hwhile h₁ hdo h₂

theorem declaration_renders : Renders (declaration nested) (Rendering .expression) := by
  intro c
  refine .expectKeyword .node fun hvar => .identifier fun hx => .take? .node (fun hcolon => ?_) fun _ => ?_
  · refine (annotation_reads _).bind ?_
    rintro l _ c₁ _ ⟨τ, name, hkind, hname, rfl, rfl⟩
    refine .expect .node fun hassign => (hn _).bind fun l e _ _ he => .pure ?_
    simpa using Rendering.declareAs hvar hx hcolon hkind hname hassign he
  · refine .bind (g := fun l written? _ => l = [] ∧ written? = none) (.pure ⟨rfl, rfl⟩) ?_
    rintro l _ c₁ _ ⟨rfl, rfl⟩
    refine .expect .node fun hassign => (hn _).bind fun l e _ _ he => .pure ?_
    simpa using Rendering.declare hvar hx hassign he

theorem grouping_renders : Renders (grouping nested) (Rendering .expression) := by
  intro c
  refine .expect .grouping fun hopening => (hn _).bind fun l e _ _ he => ?_
  refine .expect .grouping fun hclosing => .pure ?_
  simpa using Rendering.group hopening he hclosing

end

/-! ## Sequences -/

/-- What has been read of a sequence: pieces, behind which the sequence ends at the cursor `c'`.
`semicolon?` is the place of the semicolon behind the statement before them. -/
structure SequenceRead (enclosure : Enclosure) (semicolon? : Option Location) (c : Cursor) (l : Layout)
    (inside : Sequence) (c' : Cursor) (pieces : List Piece) : Prop where
  layout : l = pieces.flatMap (·.whole)
  rendered : ∀ p ∈ pieces, p.Rendered
  ordered : pieces.IsChain Piece.MayPrecede
  functions : inside.functions = pieces.filterMap (·.definition?)
  statements : inside.statements = (pieces.filterMap (·.statement?)).map (·.tree) ++
    (((pieces.filterMap (·.statement?)).getLast?.elim semicolon? (·.open?)).map
      fun l => .unit ⟨l, none⟩).toList
  /-- In braces no functions are defined. -/
  inBraces : enclosure = .braces → ∀ p ∈ pieces, p.definition? = none
  /-- What the next token tells about the first piece. -/
  first : ∀ p ∈ pieces.head?, enclosure.closedBy c.peek = false ∧
    (enclosure.defines c.peek = true → p.definition?.isSome = true)
  closed : enclosure.closedBy c'.peek = true

theorem SequenceRead.nil {enclosure : Enclosure} {semicolon? : Option Location} {c : Cursor}
    (h : enclosure.closedBy c.peek = true) :
    SequenceRead enclosure semicolon? c []
      { statements := (semicolon?.map fun l => .unit ⟨l, none⟩).toList } c [] :=
  ⟨rfl, nofun, .nil, rfl, rfl, fun _ => nofun, nofun, h⟩

theorem SequenceRead.definition {semicolon? : Option Location} {c c₁ c' : Cursor} {l l' : Layout}
    {f : FunctionDefinition} {rest : Sequence} {pieces : List Piece}
    (hword : c.peek.isKeyword .funWord = true) (hf : DefinitionRendering f l)
    (h : SequenceRead .text semicolon? c₁ l' rest c' pieces) :
    SequenceRead .text semicolon? c (l ++ l') { rest with functions := f :: rest.functions } c'
      (.definition f l :: pieces) where
  layout := by rw [List.flatMap_cons, ← h.layout]; rfl
  rendered := List.forall_mem_cons.2 ⟨hf, h.rendered⟩
  ordered := List.isChain_cons.2 ⟨fun _ _ => trivial, h.ordered⟩
  functions := by rw [h.functions]; rfl
  statements := h.statements
  inBraces := nofun
  first := by
    rintro _ ⟨⟩
    refine ⟨?_, fun _ => rfl⟩
    simpa [Enclosure.closedBy] using Token.isStop_of_isKeyword hword
  closed := h.closed

/-- A statement that is read before the rest of a sequence. What stands between them is known: a
semicolon, or else the end of the sequence, a brace behind or a definition ahead. -/
theorem SequenceRead.statement {enclosure : Enclosure} {semicolon? : Option Location}
    {c c₁ c' : Cursor} {l' : Layout} {s : Statement} {rest : Sequence} {pieces : List Piece}
    (hopen : enclosure.closedBy c.peek = false) (hdefines : enclosure.defines c.peek = false)
    (hs : Rendering .statement s.tree s.layout)
    (hreturn : s.tree.isReturn = true → enclosure.closedBy c₁.peek = true)
    (hend : s.semicolon? = none → (enclosure.closedBy c₁.peek || s.endsInBrace ||
      enclosure.defines c₁.peek) = true)
    (h : SequenceRead enclosure s.open? c₁ l' rest c' pieces) :
    SequenceRead enclosure semicolon? c (s.whole ++ l')
      { rest with statements := s.tree :: rest.statements } c' (.statement s :: pieces) where
  layout := by rw [List.flatMap_cons, ← h.layout]; rfl
  rendered := List.forall_mem_cons.2 ⟨hs, h.rendered⟩
  ordered := by
    refine List.isChain_cons.2 ⟨fun p hp => ?_, h.ordered⟩
    obtain ⟨hclosed, hfun⟩ := h.first p hp
    refine ⟨?_, fun hnone => ?_⟩
    · cases hr : s.tree.isReturn with
      | false => rfl
      | true => rw [hreturn hr] at hclosed; cases hclosed
    · have := hend hnone
      rw [hclosed, Bool.false_or, Bool.or_eq_true] at this
      exact this.imp_right hfun
  functions := h.functions
  statements := by
    have hlast : ∀ (ss : List Statement) (x : Option Location),
        (s :: ss).getLast?.elim x (·.open?) = ss.getLast?.elim s.open? (·.open?) := by
      intro ss x
      rw [List.getLast?_cons]
      cases ss.getLast? <;> rfl
    rw [h.statements]
    simp only [Piece.statement?, List.filterMap_cons, hlast, List.map_cons, List.cons_append]
  inBraces := fun he => List.forall_mem_cons.2 ⟨rfl, h.inBraces he⟩
  first := by
    rintro _ ⟨⟩
    exact ⟨hopen, fun hd => by rw [hdefines] at hd; cases hd⟩
  closed := h.closed

/-- What stands behind a statement. -/
theorem statementEnd_reads (enclosure : Enclosure) (isReturn : Bool) (c : Cursor) :
    Reads (statementEnd enclosure isReturn) c fun l place? c' => ∃ semicolon? : Option Token,
      (∀ t ∈ semicolon?, t.is ";" = true) ∧ l = semicolon?.toList.map (.separator, ·) ∧
      place? = (if isReturn then none else semicolon?.map (·.location)) ∧
      (isReturn = true → enclosure.closedBy c'.peek = true) ∧
      (semicolon? = none → c' = c ∧
        (enclosure.closedBy c.peek || c.isBehindBrace || enclosure.defines c.peek) = true) := by
  refine Ends.statementEnd (fun hs => ?_) (fun hs hend => ?_) (fun _ _ => trivial)
  · have hstop := Token.isStop_of_is hs
    have hahead := c.ahead_eq hstop
    have hbehind := c.behind_advance hstop
    have hsemicolon : ∀ t ∈ some c.peek, t.is ";" = true := by
      rintro _ ⟨⟩
      exact hs
    split
    · split
      · rename_i hr hclosed
        exact ⟨[(.separator, c.peek)], hahead, hbehind, List.forall_mem_singleton.2 hstop,
          some c.peek, hsemicolon, rfl, rfl, fun _ => hclosed, nofun⟩
      · trivial
    · rename_i hr
      exact ⟨[(.separator, c.peek)], hahead, hbehind, List.forall_mem_singleton.2 hstop,
        some c.peek, hsemicolon, rfl, rfl, fun h => absurd h hr, nofun⟩
  · split
    · split
      · rename_i hr hclosed
        exact ⟨[], rfl, rfl, nofun, none, nofun, rfl, rfl, fun _ => hclosed, fun _ => ⟨rfl, hend⟩⟩
      · trivial
    · rename_i hr
      exact ⟨[], rfl, rfl, nofun, none, nofun, rfl, rfl, fun h => absurd h hr, fun _ => ⟨rfl, hend⟩⟩

theorem isBehindBrace_eq {c c' : Cursor} {l : Layout} (h : c'.behind = l.tokens.reverse ++ c.behind)
    (hl : l ≠ []) : c'.isBehindBrace = l.getLast?.any (·.2.is "\x7d") := by
  obtain ⟨l, ⟨r, t⟩, rfl⟩ := List.eq_nil_or_concat l |>.resolve_left hl
  simp [Cursor.isBehindBrace, h]

/-- A sequence is read up to the token that ends it. -/
theorem sequence_reads {enclosure : Enclosure} {definition : Parser FunctionDefinition}
    {nested : Parser Expr} (hn : Renders nested (Rendering .expression))
    (hd : enclosure = .text → Renders definition DefinitionRendering) :
    ∀ (bound : Nat) (semicolon? : Option Location) (c : Cursor),
      Reads (sequence enclosure definition nested bound semicolon?) c fun l inside c' =>
        ∃ pieces, SequenceRead enclosure semicolon? c l inside c' pieces := by
  intro bound
  induction bound with
  | zero =>
    intro semicolon? c
    unfold sequence
    refine Ends.bind (.atClosing ?_)
    split
    · rename_i hclosed
      exact Reads.pure ⟨[], .nil hclosed⟩
    · exact Reads.unexpected _
  | succ bound ih =>
    intro semicolon? c
    unfold sequence
    refine Ends.bind (.atClosing ?_)
    split
    · rename_i hclosed
      exact Reads.pure ⟨[], .nil hclosed⟩
    · rename_i hopen
      refine Ends.bind (.atDefinition ?_)
      split
      · rename_i hdefines
        simp only [Enclosure.defines, Bool.and_eq_true, beq_iff_eq] at hdefines
        obtain ⟨rfl, hword⟩ := hdefines
        refine Reads.bind (hd rfl c) fun l f c₁ _ hf => (ih semicolon? c₁).bind fun l' rest _ _ hrest => ?_
        obtain ⟨pieces, hrest⟩ := hrest
        exact .pure ⟨_, by simpa using hrest.definition hword hf⟩
      · rename_i hdefines
        refine Reads.bind (statement_renders hn c) fun l e c₁ hbehind he => ?_
        refine (statementEnd_reads _ _ c₁).bind fun l' place? c₂ _ hplace => ?_
        obtain ⟨semicolon'?, hsemicolon, rfl, rfl, hreturn, hend⟩ := hplace
        refine (ih _ c₂).bind fun l'' rest _ _ hrest => .pure ?_
        obtain ⟨pieces, hrest⟩ := hrest
        have hs : SequenceRead enclosure semicolon? c _ _ _ _ :=
          hrest.statement (s := ⟨e, l, semicolon'?, hsemicolon⟩) (Bool.not_eq_true _ ▸ hopen)
            (Bool.not_eq_true _ ▸ hdefines) he hreturn fun hnone => ?_
        · exact ⟨_, by simpa [Statement.whole] using hs⟩
        · obtain ⟨rfl, hend⟩ := hend hnone
          rwa [isBehindBrace_eq hbehind he.ne_nil] at hend

/-- The statements of a whole sequence. -/
theorem SequenceRead.trees {enclosure : Enclosure} {c c' : Cursor} {l : Layout} {inside : Sequence}
    {pieces : List Piece} (h : SequenceRead enclosure none c l inside c' pieces) :
    inside.statements = Statement.trees (pieces.filterMap (·.statement?)) := by
  rw [h.statements, Statement.trees, Statement.inserted]
  cases (pieces.filterMap (·.statement?)).getLast? with
  | none => rfl
  | some s => cases hs : s.open? <;> simp [hs]

/-- A sequence in which no functions are defined. -/
theorem Piece.exists_statements {pieces : List Piece} (h : ∀ p ∈ pieces, p.definition? = none) :
    ∃ statements : List Statement, pieces = statements.map .statement := by
  induction pieces with
  | nil => exact ⟨[], rfl⟩
  | cons p pieces ih =>
    obtain ⟨hp, hpieces⟩ := List.forall_mem_cons.1 h
    obtain ⟨statements, rfl⟩ := ih hpieces
    cases p with
    | definition => cases hp
    | statement s => exact ⟨s :: statements, rfl⟩

section

variable {nested : Parser Expr} (hn : Renders nested (Rendering .expression))

include hn

theorem block_renders (bound : Nat) : Renders (block nested bound) fun e l =>
    Rendering .expression e l ∧ ∃ n es, e = .block n es := by
  intro c
  refine .expect .node fun hopening => ?_
  refine Reads.bind (sequence_reads hn (fun h => by cases h) bound none _) fun l inside c' _ hinside => ?_
  refine .expect .node fun hclosing => .pure ⟨?_, _, _, rfl⟩
  obtain ⟨pieces, h⟩ := hinside
  obtain ⟨statements, rfl⟩ := Piece.exists_statements (h.inBraces rfl)
  have hlayout : l = statements.flatMap (·.whole) := by rw [h.layout, List.flatMap_map]; rfl
  have htrees : inside.statements = Statement.trees statements := by
    rw [h.trees, List.filterMap_map]
    exact congrArg Statement.trees (List.filterMap_some)
  have hrendered : ∀ s ∈ statements, Rendering .statement s.tree s.layout := fun s hs =>
    h.rendered _ (List.mem_map_of_mem hs)
  simpa [hlayout, htrees] using Rendering.block hopening hrendered h.ordered hclosing

/-! ## Operators -/

theorem operand_renders (bound : Nat) : Renders (operand nested bound) (Rendering .expression) := by
  intro c
  refine .peek ?_
  split
  · rename_i hkind; exact intLiteral_renders c hkind
  · rename_i hkind; exact boolLiteral_renders c hkind
  · exact nameOrCall_renders hn bound c
  · exact conditional_renders hn c
  · exact loop_renders hn c
  · exact declaration_renders hn c
  · rename_i hkind; exact loopControl_renders .exit c (by simp [Token.isKeyword, hkind, LoopControl.keyword])
  · rename_i hkind; exact loopControl_renders .next c (by simp [Token.isKeyword, hkind, LoopControl.keyword])
  · split
    · exact grouping_renders hn c
    · split
      · exact (block_renders hn bound c).mono fun _ _ _ h => h.1
      · exact .unexpected _
  · exact .unexpected _

theorem unary_renders : ∀ bound, Renders (unary nested bound) (Rendering .expression)
  | 0 => hn
  | bound + 1 => by
    intro c
    refine .peek ?_
    split
    · exact hn c
    · rename_i op hop
      have hsymbol := is_of_unaryOp? hop
      refine .take .node (Token.isStop_of_is hsymbol) ?_
      exact (unary_renders bound _).bind fun l e _ _ he => .pure (by simpa using Rendering.unary hsymbol he)

/-- The operands that follow belong to the tokens `l₀` of the left operand. -/
theorem moreOperands_reads (ops : List BinaryOp) : ∀ (bound : Nat) {lhs : Expr} {l₀ : Layout},
    Rendering .expression lhs l₀ → ∀ c, Reads (moreOperands ops nested bound lhs) c
      fun l e _ => Rendering .expression e (l₀ ++ l)
  | 0, lhs, l₀, hl, c => .pure (by simpa using hl)
  | bound + 1, lhs, l₀, hl, c => by
    refine .peek ?_
    split
    · exact .pure (by simpa using hl)
    · rename_i op hop
      have hsymbol := (is_of_binaryOp? hop).2
      refine .take .node (Token.isStop_of_is hsymbol) ((hn _).bind fun r rhs _ _ hr => ?_)
      refine (moreOperands_reads ops bound (.binary hl hsymbol hr) _).mono fun l e _ he => ?_
      simpa using he

theorem binary_renders (bound : Nat) : ∀ levels : List (List BinaryOp),
    Renders (binary nested bound levels) (Rendering .expression)
  | [] => hn
  | ops :: tighter => fun c =>
    (binary_renders bound tighter c).bind fun _ _ _ _ hl =>
      moreOperands_reads (binary_renders bound tighter) ops bound hl _

theorem assignment_renders (bound : Nat) :
    Renders (assignment nested bound) (Rendering .expression) := by
  intro c
  have hlevels := binary_renders (unary_renders (operand_renders hn bound) bound) bound BinaryOp.levels
  refine (hlevels c).bind fun l e c' _ he => ?_
  refine .take? .node (fun hassign => ?_) fun _ => .pure (by simpa using he)
  exact (hn _).bind fun r value _ _ hv => .pure (by simpa using Rendering.assign he hassign hv)

end

/-! ## Expressions and modules -/

theorem expressionWithin_renders : ∀ bound, Renders (expressionWithin bound) (Rendering .expression)
  | 0 => fun _ => .unexpected _
  | bound + 1 => assignment_renders (expressionWithin_renders bound) (bound + 1)

theorem parameter_renders : Renders parameter ParameterRendering := by
  intro c
  refine .identifier fun hx => .expect .node fun hcolon => .writtenType fun hkind name hname => ?_
  exact .pure (.mk hx hcolon hkind hname)

theorem definition_renders {nested : Parser Expr} (hn : Renders nested (Rendering .expression))
    (bound : Nat) : Renders (definition nested bound) DefinitionRendering := by
  intro c
  refine .expectKeyword .node fun hword => .identifier fun hx => .expect .node fun hopening => ?_
  refine (itemsInParentheses_reads parameter_renders bound _).bind fun l parameters c₁ _ hps => ?_
  obtain ⟨items, closing, rfl, rfl, hitems, hlisted, hclosing⟩ := hps
  refine .expect .node fun hcolon => .writtenType fun hkind name hname => ?_
  refine (block_renders hn bound _).bind fun l body _ _ hbody => .pure ?_
  obtain ⟨hbody, n, es, rfl⟩ := hbody
  simpa using DefinitionRendering.mk hword hx hopening hitems hlisted hclosing hcolon hkind hname hbody

/-- A module is read from all tokens: what is read are pieces in order, and the stop token is next. -/
theorem module_reads (c : Cursor) :
    Reads module c fun l m c' => ∃ pieces : List Piece, l = pieces.flatMap (·.whole) ∧
      (∀ p ∈ pieces, p.Rendered) ∧ pieces.IsChain Piece.MayPrecede ∧
      m.functions = pieces.filterMap (·.definition?) ∧
      m.body = .block ⟨m.location, none⟩ (Statement.trees (pieces.filterMap (·.statement?))) ∧
      c'.peek.isStop = true := by
  refine .peek (Ends.bind (.remaining ?_))
  have hn := expressionWithin_renders c.ahead.length
  have hd := definition_renders hn c.ahead.length
  refine Reads.bind (sequence_reads hn (fun _ => hd) _ none c) fun l inside c' _ hinside => .pure ?_
  obtain ⟨pieces, h⟩ := hinside
  exact ⟨pieces, by simpa using h.layout, h.rendered, h.ordered, h.functions,
    congrArg (Expr.block _) h.trees, h.closed⟩

end Exprc.Syntax.Parser

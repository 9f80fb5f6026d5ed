/-
A parsed module is what its tokens say. The tokens that are left of a rendering when grouping parentheses
and semicolons are deleted are the words of the tree, in their order (`Rendering.written`); every block of
a tree was rendered where it stands (`Rendering.blocks`); and so the tokens of a text that parses are laid
out as the functions and the statements of the module, each of them whole (`module_faithful`).
-/
import Exprc.Proofs.Syntax.Nodes
import Exprc.Proofs.Syntax.Reading
import Exprc.Proofs.Syntax.Tokens
import Exprc.Proofs.Text.Numeral

namespace Exprc.Syntax

open Text

/-! ## Own words -/

/-- A word as trees have it: a number without the zeros in front. -/
def Word.canonical (w : Word) : Word :=
  if w.kind = .int then ⟨.int, String.ofList (withoutZeros w.text.toList)⟩ else w

theorem Word.canonical_of_ne {w : Word} (h : w.kind ≠ .int) : w.canonical = w := if_neg h

/-- The words of the nodes of a layout. -/
def Layout.written (l : Layout) : List Word := l.nodes.map (·.word.canonical)

namespace Layout

@[simp] theorem written_nil : written [] = [] := rfl

@[simp] theorem written_append (l l' : Layout) : written (l ++ l') = l.written ++ l'.written := by
  simp [written]

@[simp] theorem written_cons_node (t : Token) (l : Layout) :
    written ((.node, t) :: l) = t.word.canonical :: l.written := rfl

@[simp] theorem written_cons_grouping (t : Token) (l : Layout) :
    written ((.grouping, t) :: l) = l.written := rfl

@[simp] theorem written_cons_separator (t : Token) (l : Layout) :
    written ((.separator, t) :: l) = l.written := rfl

/-- Whether all tokens of a layout are what their characters are read as. -/
def Lexed (l : Layout) : Prop := ∀ t ∈ l.tokens, t.Lexed

@[simp] theorem lexed_append {l l' : Layout} : Lexed (l ++ l') ↔ l.Lexed ∧ l'.Lexed := by
  simp [Lexed, or_imp, forall_and]

@[simp] theorem lexed_cons {r : Role} {t : Token} {l : Layout} :
    Lexed ((r, t) :: l) ↔ t.Lexed ∧ l.Lexed := by
  simp [Lexed]

theorem lexed_flatMap {α : Type} {f : α → Layout} {xs : List α} (h : Lexed (xs.flatMap f)) :
    ∀ x ∈ xs, (f x).Lexed := by
  induction xs with
  | nil => exact nofun
  | cons x xs ih =>
    rw [List.flatMap_cons, lexed_append] at h
    exact List.forall_mem_cons.2 ⟨h.1, ih h.2⟩

theorem written_flatMap {α : Type} {f : α → Layout} {g : α → List Word} {xs : List α}
    (h : ∀ x ∈ xs, (f x).written = g x) : written (xs.flatMap f) = xs.flatMap g := by
  induction xs with
  | nil => rfl
  | cons x xs ih =>
    obtain ⟨hx, hxs⟩ := List.forall_mem_cons.1 h
    rw [List.flatMap_cons, written_append, hx, ih hxs, List.flatMap_cons]

end Layout

namespace Token

variable {t : Token} (h : t.Lexed)

include h

theorem Lexed.canonical_of_is {text : String} (ht : t.is text = true) {k : TokenKind}
    (hkind : (lexeme? text.toList).map Prod.fst = some k) (hint : k ≠ .int) :
    t.word.canonical = ⟨k, text⟩ := by
  rw [h.word_of_is ht hkind]
  exact Word.canonical_of_ne hint

theorem Lexed.canonical_of_isKeyword {w : Keyword} (ht : t.isKeyword w = true) :
    t.word.canonical = .keyword w := by
  rw [h.word_of_isKeyword ht]
  exact Word.canonical_of_ne nofun

theorem Lexed.canonical_of_int (hkind : t.kind = .int) {value : Int64}
    (hvalue : int64? t.text.toList = some value) : t.word.canonical = .int value := by
  obtain ⟨hne, hdigits⟩ := h.spelling.1 hkind
  have hword : t.word.kind = .int := hkind
  rw [Word.canonical, if_pos hword, word, ← toString_of_int64? hne hdigits hvalue, String.ofList_toList]
  rfl

omit h in
theorem canonical_of_identifier (hkind : t.kind = .identifier) : t.word.canonical = .name t.text := by
  rw [Word.canonical_of_ne (by simp [word, hkind]), word, hkind]
  rfl

omit h in
theorem canonical_of_typeName {name : TypeName} (hkind : t.kind = .identifier)
    (hname : TypeName.ofText? t.text = some name) : t.word.canonical = name.word := by
  rw [word_of_typeName hkind hname]
  exact Word.canonical_of_ne nofun

end Token

theorem lexeme?_unarySymbol (op : UnaryOp) :
    (lexeme? op.symbol.toList).map Prod.fst = some .operator := by
  cases op <;> decide

theorem lexeme?_binarySymbol (op : BinaryOp) :
    (lexeme? op.symbol.toList).map Prod.fst = some .operator := by
  cases op <;> decide

theorem Item.written {α : Type} {f : α → List Word} {items : List (Item α)}
    (hlexed : Layout.Lexed (items.flatMap (·.whole))) (hlisted : Listed items)
    (h : ∀ i ∈ items, i.layout.written = f i.item) :
    Layout.written (items.flatMap (·.whole)) = Word.commaed (items.map (f ·.item)) := by
  cases items with
  | nil => rfl
  | cons i items =>
    obtain ⟨hi, hitems⟩ := List.forall_mem_cons.1 h
    obtain ⟨-, hlexed⟩ := List.forall_mem_cons.1 (Layout.lexed_flatMap hlexed)
    have hothers : ∀ j ∈ items, j.whole.written = .punctuation "," :: f j.item := by
      intro j hj
      obtain ⟨comma, hcomma, hspelled⟩ := hlisted.others j hj
      have hwhole : j.whole = (.node, comma) :: j.layout := by rw [whole, hcomma]; rfl
      have hcomma := (Layout.lexed_cons.1 (hwhole ▸ hlexed j hj)).1
      rw [hwhole, Layout.written_cons_node, hitems j hj,
        hcomma.canonical_of_is hspelled (k := .punctuation) (by decide) (by decide)]
      rfl
    have hfirst : i.whole = i.layout := by rw [whole, hlisted.first i rfl]; rfl
    rw [List.flatMap_cons, Layout.written_append, hfirst, hi, Layout.written_flatMap hothers,
      List.map_cons, Word.commaed_cons, List.flatMap_map]

theorem Statement.written_whole (s : Statement) : s.whole.written = s.layout.written := by
  unfold whole
  cases s.semicolon? <;> simp

theorem Statement.words_trees (w : Writing) (statements : List Statement) :
    (Expr.eachWords w (trees statements)).flatten = statements.flatMap fun s => s.tree.words w := by
  rw [Expr.eachWords_eq, trees, List.map_append, List.flatten_append, List.map_map, inserted]
  cases statements.getLast?.bind open? <;> simp [Expr.words, List.flatMap_def, Function.comp_def]

/-- Without grouping parentheses and semicolons a rendering consists of the words of its tree. -/
theorem Rendering.written {form : Form} {e : Expr} {l : Layout} (h : Rendering form e l)
    (hl : l.Lexed) : l.written = e.words .bare := by
  have hkeyword : ∀ {t : Token} {w : Keyword}, t.Lexed → t.isKeyword w = true →
      t.word.canonical = .keyword w := fun ht => ht.canonical_of_isKeyword
  have hassign : ∀ {t : Token}, t.Lexed → t.is assignSymbol = true →
      t.word.canonical = .operator assignSymbol := fun ht hs => ht.canonical_of_is hs (by decide) nofun
  have hparenthesis : ∀ {t : Token} {text : String}, t.Lexed → t.is text = true →
      text ∈ ["(", ")", "\x7b", "\x7d"] → t.word.canonical = .parenthesis text := by
    intro t text ht hs htext
    refine ht.canonical_of_is hs ?_ nofun
    simp only [List.mem_cons, List.not_mem_nil, or_false] at htext
    obtain rfl | rfl | rfl | rfl := htext <;> decide
  induction h with
  | int hkind hvalue =>
    obtain ⟨ht, -⟩ := Layout.lexed_cons.1 hl
    simp [ht.canonical_of_int hkind hvalue, Expr.words]
  | bool hkind =>
    obtain ⟨ht, -⟩ := Layout.lexed_cons.1 hl
    simp [ht.word_of_bool hkind, Expr.words, Word.canonical_of_ne, Word.bool]
  | name hkind => simp [Token.canonical_of_identifier hkind, Expr.words]
  | control hword =>
    obtain ⟨ht, -⟩ := Layout.lexed_cons.1 hl
    simp [hkeyword ht hword, Expr.words]
  | group _ _ _ ih =>
    simp only [List.cons_append, Layout.lexed_cons, Layout.lexed_append] at hl
    simp [ih hl.2.1]
  | @unary t op e l hop _ ih =>
    obtain ⟨ht, hl⟩ := Layout.lexed_cons.1 hl
    simp [ht.canonical_of_is hop (lexeme?_unarySymbol op) nofun, ih hl, Expr.words, Word.operator]
  | @binary t op lhs rhs l r _ hop _ ihl ihr =>
    simp only [Layout.lexed_append, Layout.lexed_cons] at hl
    obtain ⟨hl, ht, hr⟩ := hl
    simp [ht.canonical_of_is hop (lexeme?_binarySymbol op) nofun, ihl hl, ihr hr, Expr.words,
      Word.operator]
  | assign _ ht _ iht ihv =>
    simp only [Layout.lexed_append, Layout.lexed_cons] at hl
    simp [hassign hl.2.1 ht, iht hl.1, ihv hl.2.2, Expr.words]
  | ifThen hif _ hthen _ ihc iht =>
    simp only [List.cons_append, Layout.lexed_append, Layout.lexed_cons] at hl
    obtain ⟨hlif, hlc, hlthen, hlt⟩ := hl
    simp [hkeyword hlif hif, ihc hlc, hkeyword hlthen hthen, iht hlt, Expr.words]
  | ifElse hif _ hthen _ helse _ ihc iht ihe =>
    simp only [List.cons_append, List.append_assoc, Layout.lexed_append, Layout.lexed_cons] at hl
    obtain ⟨hlif, hlc, hlthen, hlt, hlelse, hle⟩ := hl
    simp [hkeyword hlif hif, ihc hlc, hkeyword hlthen hthen, iht hlt, hkeyword hlelse helse, ihe hle,
      Expr.words]
  | loop hwhile _ hdo _ ihc ihb =>
    simp only [List.cons_append, Layout.lexed_append, Layout.lexed_cons] at hl
    obtain ⟨hlwhile, hlc, hldo, hlb⟩ := hl
    simp [hkeyword hlwhile hwhile, ihc hlc, hkeyword hldo hdo, ihb hlb, Expr.words]
  | declare hvar hx ht _ ih =>
    simp only [Layout.lexed_cons] at hl
    obtain ⟨hlvar, -, hlt, hl⟩ := hl
    simp [hkeyword hlvar hvar, Token.canonical_of_identifier hx, hassign hlt ht, ih hl, Expr.words]
  | declareAs hvar hx hcolon hτ hname ht _ ih =>
    simp only [Layout.lexed_cons] at hl
    obtain ⟨hlvar, -, hlcolon, -, hlt, hl⟩ := hl
    simp [hkeyword hlvar hvar, Token.canonical_of_identifier hx, hassign hlt ht, ih hl, Expr.words,
      hlcolon.canonical_of_is hcolon (k := .punctuation) (by decide) nofun, Word.punctuation,
      Token.canonical_of_typeName hτ hname]
  | call hf hopening _ hlisted hclosing ih =>
    simp only [List.cons_append, Layout.lexed_append, Layout.lexed_cons] at hl
    obtain ⟨-, hlopening, hlargs, hlclosing, -⟩ := hl
    have hargs := Item.written hlargs hlisted fun i hi =>
      ih i hi (Layout.lexed_append.1 (Layout.lexed_flatMap hlargs i hi)).2
    simp [Token.canonical_of_identifier hf, hparenthesis hlopening hopening, hargs,
      hparenthesis hlclosing hclosing, Expr.words, Expr.eachWords_eq,
      Function.comp_def]
  | block hopening _ _ hclosing ih =>
    simp only [List.cons_append, Layout.lexed_append, Layout.lexed_cons] at hl
    obtain ⟨hlopening, hlstatements, hlclosing, -⟩ := hl
    have hstatements := Layout.written_flatMap (f := Statement.whole)
      (g := fun s => s.tree.words .bare) fun s hs => by
        rw [s.written_whole]
        exact ih s hs (Layout.lexed_append.1 (Layout.lexed_flatMap hlstatements s hs)).1
    simp [hparenthesis hlopening hopening, hstatements, hparenthesis hlclosing hclosing, Expr.words,
      Statement.words_trees]
  | leave hword =>
    obtain ⟨ht, -⟩ := Layout.lexed_cons.1 hl
    simp [hkeyword ht hword, Expr.words]
  | leaveWith hword _ ih =>
    obtain ⟨ht, hl⟩ := Layout.lexed_cons.1 hl
    simp [hkeyword ht hword, ih hl, Expr.words]
  | statement _ ih => exact ih hl

theorem ParameterRendering.written {p : Parameter} {l : Layout} (h : ParameterRendering p l)
    (hl : l.Lexed) : l.written = p.words := by
  obtain ⟨hx, hcolon, hτ, hname⟩ := h
  simp only [Layout.lexed_cons] at hl
  simp [Parameter.words, Token.canonical_of_identifier hx, Token.canonical_of_typeName hτ hname,
    hl.2.1.canonical_of_is hcolon (k := .punctuation) (by decide) nofun, Word.punctuation]

theorem DefinitionRendering.written {f : FunctionDefinition} {l : Layout} (h : DefinitionRendering f l)
    (hl : l.Lexed) : l.written = f.words .bare := by
  obtain ⟨hword, hx, hopening, hparameters, hlisted, hclosing, hcolon, hτ, hname, hbody⟩ := h
  simp only [List.cons_append, List.append_assoc, List.nil_append, Layout.lexed_append,
    Layout.lexed_cons] at hl
  obtain ⟨hlword, -, hlopening, hlparameters, hlclosing, hlcolon, -, hlbody⟩ := hl
  have hps := Item.written hlparameters hlisted fun p hp =>
    (hparameters p hp).written (Layout.lexed_append.1 (Layout.lexed_flatMap hlparameters p hp)).2
  simp [hlword.canonical_of_isKeyword hword, Token.canonical_of_identifier hx, hps,
    hlopening.canonical_of_is hopening (k := .parenthesis) (by decide) nofun,
    hlclosing.canonical_of_is hclosing (k := .parenthesis) (by decide) nofun,
    hlcolon.canonical_of_is hcolon (k := .punctuation) (by decide) nofun,
    Token.canonical_of_typeName hτ hname, hbody.written hlbody, FunctionDefinition.words,
    Word.parenthesis, Word.punctuation, Function.comp_def]

theorem Piece.Rendered.written {p : Piece} (h : p.Rendered) (hl : p.whole.Lexed) :
    p.whole.written = p.words := by
  cases p with
  | definition f l => exact DefinitionRendering.written h hl
  | statement s =>
    rw [whole, s.written_whole]
    exact Rendering.written h (Layout.lexed_append.1 hl).1

/-! ## Blocks -/

/-- Whether expressions end in a unit literal. -/
def EndsInUnit (es : List Expr) : Prop := ∃ n, es.getLast? = some (.unit n)

/-- Whether the last one of some statements is no return and has a semicolon behind it. -/
def Statement.EndsOpen (statements : List Statement) : Prop :=
  ∃ s ∈ statements.getLast?, s.tree.isReturn = false ∧ s.semicolon?.isSome = true

/-- No tokens stand for a unit literal. -/
theorem Rendering.ne_unit {form : Form} {e : Expr} {l : Layout} (h : Rendering form e l) (n : Note) :
    e ≠ .unit n := by
  induction h with
  | group _ _ _ ih | statement _ ih => exact ih
  | _ => nofun

/-- The unit literal is the last statement just if it is inserted. -/
theorem Statement.endsInUnit_trees {statements : List Statement}
    (h : ∀ s ∈ statements, Rendering .statement s.tree s.layout) :
    EndsInUnit (trees statements) ↔ EndsOpen statements := by
  obtain rfl | ⟨init, s, rfl⟩ := List.eq_nil_or_concat statements
  · simp [EndsInUnit, EndsOpen, trees, inserted]
  · have hs := (h s (by simp)).ne_unit
    unfold EndsInUnit EndsOpen trees inserted open?
    cases hreturn : s.tree.isReturn <;> cases hsemicolon : s.semicolon? <;>
      simp [hs, hreturn, hsemicolon]

/-- Whether the block of the expressions `es` stands in a layout: its statements are rendered one after
another between braces, and there is a semicolon behind each one that is not the last one and does not end
in a brace. -/
def Layout.HasBlock (l : Layout) (es : List Expr) : Prop :=
  ∃ (opening closing : Token) (statements : List Statement),
    (.node, opening) :: statements.flatMap (·.whole) ++ [(.node, closing)] <:+: l ∧
    (∀ s ∈ statements, Rendering .statement s.tree s.layout) ∧
    (statements.map Piece.statement).IsChain Piece.MayPrecede ∧
    es = Statement.trees statements ∧ (EndsInUnit es ↔ Statement.EndsOpen statements)

theorem Layout.HasBlock.mono {l l' : Layout} {es : List Expr} (h : l.HasBlock es) (hl : l <:+: l') :
    l'.HasBlock es := by
  obtain ⟨opening, closing, statements, hinfix, h⟩ := h
  exact ⟨opening, closing, statements, hinfix.trans hl, h⟩

theorem mem_allSubexpressions {a : Expr} {es : List Expr} :
    a ∈ Expr.allSubexpressions es ↔ ∃ e ∈ es, a ∈ e.subexpressions := by
  induction es with
  | nil => simp [Expr.allSubexpressions]
  | cons e es ih => simp [Expr.allSubexpressions, ih]

theorem Layout.infix_flatMap {α : Type} {f : α → Layout} {xs : List α} {x : α} (hx : x ∈ xs) :
    f x <:+: xs.flatMap f := by
  obtain ⟨before, after, rfl⟩ := List.append_of_mem hx
  exact ⟨before.flatMap f, after.flatMap f, by simp⟩

theorem Layout.infix_behind (l : Layout) (x : Role × Token) (r : Layout) : r <:+: l ++ x :: r :=
  ⟨l ++ [x], [], by simp⟩

/-- Every block in a tree stands in its rendering. -/
theorem Rendering.blocks {form : Form} {e : Expr} {l : Layout} (h : Rendering form e l) {n : Note}
    {es : List Expr} (hb : .block n es ∈ e.subexpressions) : l.HasBlock es := by
  induction h with
  | int | bool | name | control | leave => simp [Expr.subexpressions] at hb
  | statement _ ih => exact ih hb
  | @group opening closing _ l _ _ _ ih => exact (ih hb).mono ⟨[_], [_], rfl⟩
  | unary _ _ ih | leaveWith _ _ ih =>
    simp only [Expr.subexpressions, List.mem_cons, reduceCtorEq, false_or] at hb
    exact (ih hb).mono ⟨[_], [], List.append_nil _⟩
  | binary _ _ _ ihl ihr | assign _ _ _ ihl ihr =>
    simp only [Expr.subexpressions, List.mem_cons, List.mem_append, reduceCtorEq, false_or] at hb
    obtain hb | hb := hb
    · exact (ihl hb).mono ⟨[], _, rfl⟩
    · exact (ihr hb).mono (Layout.infix_behind ..)
  | @ifThen ifWord thenWord c t lc lt _ _ _ _ ihc iht
  | @loop ifWord thenWord c t lc lt _ _ _ _ ihc iht =>
    simp only [Expr.subexpressions, List.mem_cons, List.mem_append, reduceCtorEq, false_or] at hb
    obtain hb | hb := hb
    · exact (ihc hb).mono ⟨[_], _, rfl⟩
    · exact (iht hb).mono (Layout.infix_behind ..)
  | @ifElse ifWord thenWord elseWord c t e lc lt le _ _ _ _ _ _ ihc iht ihe =>
    simp only [Expr.subexpressions, List.mem_cons, List.mem_append, reduceCtorEq, false_or] at hb
    obtain hb | hb | hb := hb
    · exact (ihc hb).mono ⟨[(.node, ifWord)], (.node, thenWord) :: lt ++ (.node, elseWord) :: le, by simp⟩
    · exact (iht hb).mono ⟨(.node, ifWord) :: lc ++ [(.node, thenWord)], (.node, elseWord) :: le, by simp⟩
    · exact (ihe hb).mono (Layout.infix_behind ..)
  | @declare varWord x t e l _ _ _ _ ih =>
    simp only [Expr.subexpressions, List.mem_cons, reduceCtorEq, false_or] at hb
    exact (ih hb).mono ⟨[(.node, varWord), (.node, x), (.node, t)], [], by simp⟩
  | @declareAs varWord x colon τ t name e l _ _ _ _ _ _ _ ih =>
    simp only [Expr.subexpressions, List.mem_cons, reduceCtorEq, false_or] at hb
    exact (ih hb).mono
      ⟨[(.node, varWord), (.node, x), (.node, colon), (.node, τ), (.node, t)], [], by simp⟩
  | @call f opening closing arguments _ _ _ _ _ ih =>
    simp only [Expr.subexpressions, List.mem_cons, reduceCtorEq, false_or] at hb
    obtain ⟨e, he, hb⟩ := mem_allSubexpressions.1 hb
    obtain ⟨i, hi, rfl⟩ := List.mem_map.1 he
    have hwhole : i.layout <:+: i.whole := (List.suffix_append ..).isInfix
    have hinfix := hwhole.trans (Layout.infix_flatMap (f := Item.whole) hi)
    refine ((ih i hi hb).mono hinfix).mono ⟨[(.node, f), (.node, opening)], [(.node, closing)], ?_⟩
    simp
  | @block opening closing statements hopening hrendered hchain hclosing ih =>
    simp only [Expr.subexpressions, List.mem_cons, Expr.block.injEq] at hb
    obtain ⟨-, rfl⟩ | hb := hb
    · exact ⟨opening, closing, statements, List.infix_rfl, hrendered, hchain, rfl,
        Statement.endsInUnit_trees hrendered⟩
    · obtain ⟨e, he, hb⟩ := mem_allSubexpressions.1 hb
      obtain he | he := List.mem_append.1 he
      · obtain ⟨s, hs, rfl⟩ := List.mem_map.1 he
        have hwhole : s.layout <:+: s.whole := (List.prefix_append ..).isInfix
        have hinfix := hwhole.trans (Layout.infix_flatMap (f := Statement.whole) hs)
        exact ((ih s hs hb).mono hinfix).mono ⟨[_], [_], rfl⟩
      · obtain ⟨l, -, rfl⟩ := List.mem_map.1 he
        simp [Expr.subexpressions] at hb

/-- The blocks of a piece stand in its layout. -/
theorem Piece.Rendered.blocks {p : Piece} (h : p.Rendered) {n : Note} {es : List Expr} :
    (∀ f ∈ p.definition?, .block n es ∈ f.body.subexpressions → p.whole.HasBlock es) ∧
      ∀ s ∈ p.statement?, .block n es ∈ s.tree.subexpressions → p.whole.HasBlock es := by
  cases p with
  | definition f l =>
    refine ⟨?_, nofun⟩
    rintro _ ⟨⟩ hb
    obtain ⟨-, -, -, -, -, -, -, -, -, hbody⟩ := h
    exact (hbody.blocks hb).mono (List.suffix_append ..).isInfix
  | statement s =>
    refine ⟨nofun, ?_⟩
    rintro _ ⟨⟩ hb
    exact (Rendering.blocks h hb).mono (List.prefix_append ..).isInfix

/-! ## Modules -/

/-- A cursor that sees the stop token, behind tokens that are none, stands in front of the last token. -/
theorem ahead_eq_stop {before behind : List Token} {stop : Token} {c : Cursor}
    (h : before ++ [stop] = behind ++ c.ahead) (hbefore : ∀ t ∈ before, t.isStop = false)
    (hbehind : ∀ t ∈ behind, t.isStop = false) (hstop : stop.isStop = true)
    (hpeek : c.peek.isStop = true) : before = behind := by
  obtain hnil | ⟨init, last, hahead⟩ := List.eq_nil_or_concat c.ahead
  · rw [hnil, List.append_nil] at h
    rw [hbehind stop (h ▸ by simp)] at hstop
    cases hstop
  · rw [hahead, List.concat_eq_append, ← List.append_assoc] at h
    obtain ⟨hbehind, -⟩ := List.append_inj' h rfl
    cases init with
    | nil => rw [hbehind, List.append_nil]
    | cons t init =>
      have hnext : c.peek = t := by
        rw [Cursor.peek, hahead]
        rfl
      rw [hnext, hbefore t (hbehind ▸ by simp)] at hpeek
      cases hpeek

/-- The pieces of which the tokens of a text that parses consist. -/
theorem module_pieces {source : Source} {tokens : List Token} {m : Module}
    (ht : tokenize source = .ok tokens) (hm : (Parser.module.run (.start tokens)).1 = .ok m) :
    ∃ (pieces : List Piece) (place : Location),
      tokens = Layout.tokens (pieces.flatMap (·.whole)) ++ [.stop place] ∧
      Layout.Lexed (pieces.flatMap (·.whole)) ∧ (∀ p ∈ pieces, p.Rendered) ∧
      pieces.IsChain Piece.MayPrecede ∧ m.functions = pieces.filterMap (·.definition?) ∧
      m.body = .block ⟨m.location, none⟩ (Statement.trees (pieces.filterMap (·.statement?))) := by
  obtain ⟨before, place, rfl, hlexed⟩ := (tokenize_behind ht).stopped
  obtain ⟨l, hahead, -, hstops, pieces, rfl, hrendered, hordered, hfunctions, hbody, hstop⟩ :=
    (Parser.module_reads _).ok hm
  obtain rfl := ahead_eq_stop hahead (fun t ht => (hlexed t ht).isStop) hstops rfl hstop
  exact ⟨pieces, place, rfl, hlexed, hrendered, hordered, hfunctions, hbody⟩

theorem Piece.rendered_statement? {pieces : List Piece} (h : ∀ p ∈ pieces, p.Rendered) :
    ∀ s ∈ pieces.filterMap (·.statement?), Rendering .statement s.tree s.layout := by
  intro s hs
  obtain ⟨p, hp, hps⟩ := List.mem_filterMap.1 hs
  cases p with
  | definition => cases hps
  | statement s' => cases hps; exact h _ hp

/-- The tokens of a text that parses, but for the stop token, are laid out as pieces: the definitions and
the statements of the module, each kind in the order that it has in the module. Without grouping
parentheses and semicolons each piece consists of its own words. A semicolon is only missing at the end,
behind a brace and before a definition; and the last statement of a block is the inserted unit literal just
if the statement written last is no return and has a semicolon behind it. -/
theorem module_faithful {source : Source} {tokens : List Token} {m : Module}
    (ht : tokenize source = .ok tokens) (hm : (Parser.module.run (.start tokens)).1 = .ok m) :
    ∃ (pieces : List Piece) (stop : Token) (es : List Expr),
      tokens = Layout.tokens (pieces.flatMap (·.whole)) ++ [stop] ∧ stop.isStop = true ∧
      (∀ p ∈ pieces, p.Rendered ∧ p.whole.written = p.words) ∧
      pieces.IsChain Piece.MayPrecede ∧
      m.functions = pieces.filterMap (·.definition?) ∧
      m.body = .block ⟨m.location, none⟩ es ∧
      es = Statement.trees (pieces.filterMap (·.statement?)) ∧
      (EndsInUnit es ↔ Statement.EndsOpen (pieces.filterMap (·.statement?))) ∧
      ∀ n ds, .block n ds ∈ m.functions.flatMap (·.body.subexpressions) ++ Expr.allSubexpressions es →
        Layout.HasBlock (pieces.flatMap (·.whole)) ds := by
  obtain ⟨pieces, place, rfl, hlexed, hrendered, hordered, hfunctions, hbody⟩ := module_pieces ht hm
  refine ⟨pieces, .stop place, _, rfl, rfl, fun p hp => ?_, hordered, hfunctions, hbody, rfl,
    Statement.endsInUnit_trees (Piece.rendered_statement? hrendered), fun n ds hds => ?_⟩
  · exact ⟨hrendered p hp, (hrendered p hp).written (Layout.lexed_flatMap hlexed p hp)⟩
  · -- A block is in the body of a function or in a statement; the inserted unit literal has none.
    obtain ⟨p, hp, hblock⟩ : ∃ p ∈ pieces, p.whole.HasBlock ds := by
      obtain hds | hds := List.mem_append.1 hds
      · obtain ⟨f, hf, hds⟩ := List.mem_flatMap.1 hds
        rw [hfunctions] at hf
        obtain ⟨p, hp, hpf⟩ := List.mem_filterMap.1 hf
        exact ⟨p, hp, (hrendered p hp).blocks.1 f hpf hds⟩
      · obtain ⟨e, he, hds⟩ := mem_allSubexpressions.1 hds
        obtain he | he := List.mem_append.1 he
        · obtain ⟨s, hs, rfl⟩ := List.mem_map.1 he
          obtain ⟨p, hp, hps⟩ := List.mem_filterMap.1 hs
          exact ⟨p, hp, (hrendered p hp).blocks.2 s hps hds⟩
        · obtain ⟨l, -, rfl⟩ := List.mem_map.1 he
          simp [Expr.subexpressions] at hds
    exact hblock.mono (Layout.infix_flatMap hp)

theorem module_faithful_semicolons :
    ∃ (tokens : List Token) (m : Module) (pieces : List Piece) (stop : Token), tokenize
        ⟨"{ x = (007); } fun f(y: Int): Int { return y; } print_int(f(2));", .memory⟩ = .ok tokens ∧
      (Parser.module.run (.start tokens)).1 = .ok m ∧
      tokens = Layout.tokens (pieces.flatMap Piece.whole) ++ [stop] ∧
      (∀ p ∈ pieces, p.Rendered ∧ p.whole.written = p.words) ∧
      pieces.filterMap (·.definition?) = m.functions ∧ m.functions.length = 1 := by
  obtain ⟨tokens, m, ht, hm, hlength⟩ : ∃ tokens m, tokenize
        ⟨"{ x = (007); } fun f(y: Int): Int { return y; } print_int(f(2));", .memory⟩ = .ok tokens ∧
      (Parser.module.run (.start tokens)).1 = .ok m ∧ m.functions.length = 1 := by
    refine ⟨?tokens, ?m, ?ht, ?hm, ?hl⟩
    case ht => cbv; rfl
    case hm => cbv; rfl
    case hl => rfl
  obtain ⟨pieces, stop, es, htokens, -, hpieces, -, hfunctions, -⟩ := module_faithful ht hm
  exact ⟨tokens, m, pieces, stop, ht, hm, htokens, hpieces, hfunctions.symm, hlength⟩

end Exprc.Syntax

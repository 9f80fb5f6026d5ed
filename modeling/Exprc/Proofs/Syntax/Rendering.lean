/-
Renderings: the tokens that stand for a tree (`Rendering`). Besides the tokens that belong to nodes there
may be parentheses around any expression, and there are semicolons behind statements. Each token of a
rendering is laid out with what it is there for, so that the others can be deleted; what is left are the
tokens of the nodes in the order in which the tree is read.
-/
import Exprc.Proofs.Syntax.Words
import Exprc.Text.Numeral

namespace Exprc.Syntax

open Text

/-! ## Layouts -/

/-- What a token of a program is there for. -/
inductive Role where
  /-- It belongs to a node of the tree. -/
  | node
  /-- It is a parenthesis around an expression. -/
  | grouping
  /-- It is a semicolon behind a statement. -/
  | separator
deriving DecidableEq, Repr

/-- Tokens with what they are there for. -/
abbrev Layout := List (Role × Token)

namespace Layout

/-- The tokens of a layout. -/
def tokens (l : Layout) : List Token := l.map (·.2)

/-- The tokens that are left when those that group and separate are deleted. -/
def nodes (l : Layout) : List Token := (l.filter (·.1 = .node)).map (·.2)

@[simp] theorem tokens_append (l l' : Layout) : tokens (l ++ l') = l.tokens ++ l'.tokens :=
  List.map_append ..

@[simp] theorem tokens_cons (r : Role) (t : Token) (l : Layout) :
    tokens ((r, t) :: l) = t :: l.tokens := rfl

@[simp] theorem tokens_nil : tokens [] = [] := rfl

@[simp] theorem nodes_append (l l' : Layout) : nodes (l ++ l') = l.nodes ++ l'.nodes := by
  simp [nodes]

end Layout

/-! ## Items and statements -/

/-- Something that stands in a list, with its tokens and the comma before it. -/
structure Item (α : Type) where
  comma? : Option Token
  item : α
  layout : Layout

namespace Item

variable {α : Type}

/-- The tokens of an item, its comma included. -/
def whole (i : Item α) : Layout := i.comma?.toList.map (.node, ·) ++ i.layout

/-- Whether there are commas between items, and only there. -/
structure Listed (items : List (Item α)) : Prop where
  first : ∀ i ∈ items.head?, i.comma? = none
  others : ∀ i ∈ items.tail, ∃ comma, i.comma? = some comma ∧ comma.is "," = true

end Item

/-- A statement with its tokens and the semicolon behind it. -/
structure Statement where
  tree : Expr
  layout : Layout
  semicolon? : Option Token
  isSemicolon : ∀ t ∈ semicolon?, t.is ";" = true

namespace Statement

/-- The tokens of a statement, its semicolon included. -/
def whole (s : Statement) : Layout := s.layout ++ s.semicolon?.toList.map (.separator, ·)

/-- Whether the last token of a statement is a closing brace. -/
def endsInBrace (s : Statement) : Bool := s.layout.getLast?.any (·.2.is "\x7d")

/-- The place of the semicolon behind a statement that is not a return. -/
def open? (s : Statement) : Option Location :=
  if s.tree.isReturn then none else s.semicolon?.map (·.location)

/-- The unit literal that is inserted behind the last statement if a semicolon stands there and it is
not a return. -/
def inserted (statements : List Statement) : List Expr :=
  (statements.getLast?.bind open?).toList.map fun l => .unit ⟨l, none⟩

/-- The trees of a sequence of statements. -/
def trees (statements : List Statement) : List Expr :=
  statements.map (·.tree) ++ inserted statements

end Statement

/-! ## Sequences -/

/-- What stands in a sequence: the definition of a function, or a statement. -/
inductive Piece where
  | definition (f : FunctionDefinition) (layout : Layout)
  | statement (s : Statement)

namespace Piece

/-- The tokens of a piece. -/
def whole : Piece → Layout
  | definition _ layout => layout
  | statement s => s.whole

/-- The function that a piece defines. -/
def definition? : Piece → Option FunctionDefinition
  | definition f _ => some f
  | statement _ => none

/-- The statement that a piece is. -/
def statement? : Piece → Option Statement
  | definition .. => none
  | statement s => some s

/-- Whether a piece may stand before another one: a return may not, and the semicolon behind a statement
may only be missing behind a brace and before the definition of a function. -/
def MayPrecede : Piece → Piece → Prop
  | definition .., _ => True
  | statement s, next =>
    s.tree.isReturn = false ∧
      (s.semicolon? = none → s.endsInBrace = true ∨ next.definition?.isSome = true)

/-- The words of the nodes of a piece. -/
def words : Piece → List Word
  | definition f _ => f.words .bare
  | statement s => s.tree.words .bare

end Piece

/-! ## Renderings -/

/-- The two kinds of places in which an expression stands. -/
inductive Form where
  /-- As a part of another expression. -/
  | expression
  /-- In a sequence of statements. A return can only stand there. -/
  | statement
deriving DecidableEq, Repr

/-- The tokens `layout` stand for the expression `e`. -/
inductive Rendering : Form → Expr → Layout → Prop where
  | int {t : Token} {value : Int64} :
    t.kind = .int → int64? t.text.toList = some value →
    Rendering .expression (.int ⟨t.location, none⟩ value) [(.node, t)]
  | bool {t : Token} :
    t.kind = .bool → Rendering .expression (.bool ⟨t.location, none⟩ (t.is "true")) [(.node, t)]
  | name {t : Token} :
    t.kind = .identifier → Rendering .expression (.name ⟨t.location, none⟩ t.text) [(.node, t)]
  | control {t : Token} {c : LoopControl} :
    t.isKeyword c.keyword = true →
    Rendering .expression (.control ⟨t.location, none⟩ c) [(.node, t)]
  /-- Any expression may stand in parentheses, which leave no trace in the tree. -/
  | group {opening closing : Token} {e : Expr} {l : Layout} :
    opening.is "(" = true → Rendering .expression e l → closing.is ")" = true →
    Rendering .expression e ((.grouping, opening) :: l ++ [(.grouping, closing)])
  | unary {t : Token} {op : UnaryOp} {e : Expr} {l : Layout} :
    t.is op.symbol = true → Rendering .expression e l →
    Rendering .expression (.unary ⟨t.location, none⟩ op e) ((.node, t) :: l)
  | binary {t : Token} {op : BinaryOp} {lhs rhs : Expr} {l r : Layout} :
    Rendering .expression lhs l → t.is op.symbol = true → Rendering .expression rhs r →
    Rendering .expression (.binary ⟨lhs.location, none⟩ op t.location lhs rhs) (l ++ (.node, t) :: r)
  | assign {t : Token} {target value : Expr} {l r : Layout} :
    Rendering .expression target l → t.is assignSymbol = true → Rendering .expression value r →
    Rendering .expression (.assign ⟨target.location, none⟩ t.location target value)
      (l ++ (.node, t) :: r)
  | ifThen {ifWord thenWord : Token} {c t : Expr} {lc lt : Layout} :
    ifWord.isKeyword .ifWord = true → Rendering .expression c lc →
    thenWord.isKeyword .thenWord = true → Rendering .expression t lt →
    Rendering .expression (.ifThen ⟨ifWord.location, none⟩ c t)
      ((.node, ifWord) :: lc ++ (.node, thenWord) :: lt)
  | ifElse {ifWord thenWord elseWord : Token} {c t e : Expr} {lc lt le : Layout} :
    ifWord.isKeyword .ifWord = true → Rendering .expression c lc →
    thenWord.isKeyword .thenWord = true → Rendering .expression t lt →
    elseWord.isKeyword .elseWord = true → Rendering .expression e le →
    Rendering .expression (.ifElse ⟨ifWord.location, none⟩ c t e)
      ((.node, ifWord) :: lc ++ (.node, thenWord) :: lt ++ (.node, elseWord) :: le)
  | loop {whileWord doWord : Token} {c b : Expr} {lc lb : Layout} :
    whileWord.isKeyword .whileWord = true → Rendering .expression c lc →
    doWord.isKeyword .doWord = true → Rendering .expression b lb →
    Rendering .expression (.loop ⟨whileWord.location, none⟩ c b)
      ((.node, whileWord) :: lc ++ (.node, doWord) :: lb)
  | declare {varWord x t : Token} {e : Expr} {l : Layout} :
    varWord.isKeyword .varWord = true → x.kind = .identifier → t.is assignSymbol = true →
    Rendering .expression e l →
    Rendering .expression (.declare ⟨varWord.location, none⟩ ⟨x.location, x.text⟩ none e)
      ((.node, varWord) :: (.node, x) :: (.node, t) :: l)
  | declareAs {varWord x colon τ t : Token} {name : TypeName} {e : Expr} {l : Layout} :
    varWord.isKeyword .varWord = true → x.kind = .identifier → colon.is ":" = true →
    τ.kind = .identifier → TypeName.ofText? τ.text = some name → t.is assignSymbol = true →
    Rendering .expression e l →
    Rendering .expression
      (.declare ⟨varWord.location, none⟩ ⟨x.location, x.text⟩ (some ⟨τ.location, name⟩) e)
      ((.node, varWord) :: (.node, x) :: (.node, colon) :: (.node, τ) :: (.node, t) :: l)
  | call {f opening closing : Token} {arguments : List (Item Expr)} :
    f.kind = .identifier → opening.is "(" = true →
    (∀ a ∈ arguments, Rendering .expression a.item a.layout) → Item.Listed arguments →
    closing.is ")" = true →
    Rendering .expression (.call ⟨f.location, none⟩ f.text (arguments.map (·.item)))
      ((.node, f) :: (.node, opening) :: arguments.flatMap (·.whole) ++ [(.node, closing)])
  | block {opening closing : Token} {statements : List Statement} :
    opening.is "\x7b" = true → (∀ s ∈ statements, Rendering .statement s.tree s.layout) →
    (statements.map Piece.statement).IsChain Piece.MayPrecede → closing.is "\x7d" = true →
    Rendering .expression (.block ⟨opening.location, none⟩ (Statement.trees statements))
      ((.node, opening) :: statements.flatMap (·.whole) ++ [(.node, closing)])
  | leave {t : Token} :
    t.isKeyword .returnWord = true →
    Rendering .statement (.leave ⟨t.location, none⟩) [(.node, t)]
  | leaveWith {t : Token} {e : Expr} {l : Layout} :
    t.isKeyword .returnWord = true → Rendering .expression e l →
    Rendering .statement (.leaveWith ⟨t.location, none⟩ e) ((.node, t) :: l)
  | statement {e : Expr} {l : Layout} :
    Rendering .expression e l → Rendering .statement e l

/-- There are no expressions without tokens. -/
theorem Rendering.ne_nil {form : Form} {e : Expr} {l : Layout} (h : Rendering form e l) : l ≠ [] := by
  induction h <;> simp_all

/-- The tokens `layout` stand for a parameter. -/
inductive ParameterRendering : Parameter → Layout → Prop where
  | mk {x colon τ : Token} {name : TypeName} :
    x.kind = .identifier → colon.is ":" = true → τ.kind = .identifier →
    TypeName.ofText? τ.text = some name →
    ParameterRendering ⟨⟨x.location, x.text⟩, ⟨τ.location, name⟩⟩
      [(.node, x), (.node, colon), (.node, τ)]

/-- The tokens `layout` stand for the definition of a function. -/
inductive DefinitionRendering : FunctionDefinition → Layout → Prop where
  | mk {funWord x opening closing colon τ : Token} {parameters : List (Item Parameter)}
      {name : TypeName} {n : Note} {es : List Expr} {l : Layout} :
    funWord.isKeyword .funWord = true → x.kind = .identifier → opening.is "(" = true →
    (∀ p ∈ parameters, ParameterRendering p.item p.layout) → Item.Listed parameters →
    closing.is ")" = true → colon.is ":" = true → τ.kind = .identifier →
    TypeName.ofText? τ.text = some name → Rendering .expression (.block n es) l →
    DefinitionRendering
      ⟨funWord.location, ⟨x.location, x.text⟩, parameters.map (·.item), ⟨τ.location, name⟩,
        .block n es⟩
      ((.node, funWord) :: (.node, x) :: (.node, opening) :: parameters.flatMap (·.whole)
        ++ [(.node, closing), (.node, colon), (.node, τ)] ++ l)

/-- The tokens of a piece stand for what it is. -/
def Piece.Rendered : Piece → Prop
  | definition f l => DefinitionRendering f l
  | statement s => Rendering .statement s.tree s.layout

end Exprc.Syntax

/-
The words of a tree: how a tree is written down as tokens, but for their places. Every node has words of
its own. To read a tree back it takes more than these: semicolons between statements, and parentheses
around the operands that would be read as parts of something else.
-/
import Exprc.Syntax.Token
import Exprc.Syntax.Tree
import Mathlib

namespace Exprc.Syntax

/-! ## Words -/

/-- A token without its place. -/
structure Word where
  kind : TokenKind
  text : String
deriving DecidableEq, Repr

/-- The word that a token is. -/
def Token.word (t : Token) : Word := ⟨t.kind, t.text⟩

namespace Word

/-- A number in decimal digits. -/
def int (value : Int64) : Word := ⟨.int, toString value⟩

/-- A truth value. -/
def bool (value : Bool) : Word := ⟨.bool, toString value⟩

/-- A name. -/
def name (x : String) : Word := ⟨.identifier, x⟩

/-- A keyword. -/
def keyword (word : Keyword) : Word := ⟨.keyword word, word.text⟩

/-- The symbol of an operator. -/
def operator (symbol : String) : Word := ⟨.operator, symbol⟩

/-- A parenthesis or a brace. -/
def parenthesis (text : String) : Word := ⟨.parenthesis, text⟩

/-- A comma, a colon or a semicolon. -/
def punctuation (text : String) : Word := ⟨.punctuation, text⟩

/-- The end of the text. -/
def stop : Word := ⟨.stop, ""⟩

/-- Words with commas between them. -/
def commaed (items : List (List Word)) : List Word := [punctuation ","].intercalate items

theorem intercalate_cons (separator item : List Word) (items : List (List Word)) :
    separator.intercalate (item :: items) = item ++ items.flatMap (separator ++ ·) := by
  induction items generalizing item with
  | nil => simp [List.intercalate]
  | cons next items ih =>
    rw [List.flatMap_cons, List.append_assoc, ← ih]
    simp [List.intercalate]

theorem commaed_cons (item : List Word) (items : List (List Word)) :
    commaed (item :: items) = item ++ items.flatMap (punctuation "," :: ·) :=
  intercalate_cons ..

end Word

/-- The keyword for a loop control. -/
def LoopControl.keyword : LoopControl → Keyword
  | exit => .breakWord
  | next => .continueWord

/-! ## How tightly expressions bind -/

/-- How tightly a binary operator binds, from 1 for the loosest. -/
def BinaryOp.tightness (op : BinaryOp) : Nat := levels.findIdx (·.contains op) + 1

/-- Unary operators bind more tightly than all binary ones. -/
def UnaryOp.tightness : Nat := BinaryOp.levels.length + 1

namespace Expr

/-- How tightly an expression binds. An assignment and all that ends in an expression of any kind bind
most loosely; what cannot fall apart binds more tightly than every operator. -/
def tightness : Expr → Nat
  | assign .. | ifThen .. | ifElse .. | loop .. | declare .. => 0
  | binary _ op .. => op.tightness
  | unary .. => UnaryOp.tightness
  | _ => UnaryOp.tightness + 1

/-- Whether an `else` behind an expression would be read as a part of it. -/
def capturesElse : Expr → Bool
  | ifThen .. => true
  | assign _ _ _ e | ifElse _ _ _ e | loop _ _ e | declare _ _ _ e => capturesElse e
  | _ => false

end Expr

/-! ## Written trees -/

/-- What is written of a tree. -/
inductive Writing where
  /-- The words that belong to its nodes. -/
  | bare
  /-- These, and the parentheses and semicolons that it takes to read the tree back. -/
  | full
deriving DecidableEq, Repr

namespace Writing

/-- An operand, in parentheses if it needs them. -/
def group (w : Writing) (needed : Bool) (words : List Word) : List Word :=
  if w = .full ∧ needed then .parenthesis "(" :: words ++ [.parenthesis ")"] else words

/-- Statements one after another. -/
def statements (w : Writing) (words : List (List Word)) : List Word :=
  match w with
  | .bare => words.flatten
  | .full => [Word.punctuation ";"].intercalate words

@[simp] theorem group_bare (needed : Bool) (words : List Word) : bare.group needed words = words := rfl

@[simp] theorem statements_bare (words : List (List Word)) : bare.statements words = words.flatten := rfl

end Writing

/-- A type that is written. -/
def TypeName.word (τ : TypeName) : Word := .name τ.text

namespace Expr

mutual

/-- The words of an expression. Of a unit literal there are none: it stands behind the semicolon of the
last statement. -/
def words (w : Writing) : Expr → List Word
  | int _ value => [.int value]
  | bool _ value => [.bool value]
  | unit _ => []
  | name _ x => [.name x]
  | unary _ op e => .operator op.symbol :: w.group (e.tightness < UnaryOp.tightness) (words w e)
  | binary _ op _ lhs rhs =>
    w.group (lhs.tightness < op.tightness) (words w lhs)
      ++ .operator op.symbol :: w.group (rhs.tightness ≤ op.tightness) (words w rhs)
  | assign _ _ target value =>
    w.group (target.tightness = 0) (words w target) ++ .operator assignSymbol :: words w value
  | ifThen _ c t => .keyword .ifWord :: words w c ++ .keyword .thenWord :: words w t
  | ifElse _ c t e =>
    .keyword .ifWord :: words w c ++ .keyword .thenWord :: w.group t.capturesElse (words w t)
      ++ .keyword .elseWord :: words w e
  | loop _ c b => .keyword .whileWord :: words w c ++ .keyword .doWord :: words w b
  | block _ es => .parenthesis "\x7b" :: w.statements (eachWords w es) ++ [.parenthesis "\x7d"]
  | declare _ x written? e =>
    .keyword .varWord :: .name x.text
      :: ((written?.map fun a => [.punctuation ":", a.name.word]).getD []
        ++ .operator assignSymbol :: words w e)
  | call _ f es =>
    .name f :: .parenthesis "(" :: Word.commaed (eachWords w es) ++ [.parenthesis ")"]
  | control _ c => [.keyword c.keyword]
  | leave _ => [.keyword .returnWord]
  | leaveWith _ e => .keyword .returnWord :: words w e

/-- The words of each of some expressions. -/
def eachWords (w : Writing) : List Expr → List (List Word)
  | [] => []
  | e :: es => words w e :: eachWords w es

end

theorem eachWords_eq (w : Writing) (es : List Expr) : eachWords w es = es.map (words w) := by
  induction es with
  | nil => rfl
  | cons e es ih => rw [eachWords, ih, List.map_cons]

end Expr

/-- The words of a parameter. -/
def Parameter.words (p : Parameter) : List Word :=
  [.name p.name.text, .punctuation ":", p.written.name.word]

/-- The words of the definition of a function. -/
def FunctionDefinition.words (w : Writing) (f : FunctionDefinition) : List Word :=
  .keyword .funWord :: .name f.name.text :: .parenthesis "("
    :: Word.commaed (f.parameters.map (·.words))
    ++ [.parenthesis ")", .punctuation ":", f.result.name.word] ++ f.body.words w

/-- The words of a module: its functions, and then its top-level statements. -/
def Module.words (w : Writing) (m : Module) : List Word :=
  m.functions.flatMap (·.words w) ++
    match m.body with
    | .block _ es => w.statements (Expr.eachWords w es)
    | _ => []

end Exprc.Syntax

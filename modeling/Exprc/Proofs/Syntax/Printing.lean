/-
Printing and parsing are inverse. A tree that is written with as few parentheses as possible is read back:
each operand is in parentheses just if it binds too loosely for its place, so a parser of the level of that
place takes it whole and stops at the word behind it.

An operator that groups to the left takes all that was read before as its left operand. So a binary
expression is not read at once at its level: what is shown of it is that reading its words leads to where
further operands of the level are read (`Leads`).
-/
import Exprc.Proofs.Syntax.Producible
import Exprc.Proofs.Syntax.Taking

namespace Exprc.Syntax

open Text

/-! ## What may follow -/

namespace Word

/-- Whether a word is a unary operator. -/
def isUnary (w : Word) : Bool := w.is "-" || w.is "not"

/-- Whether a word may follow an operand at a level of the binary operators, counted from the loosest one:
it is no operator of this level or a tighter one, and opens no list of arguments. -/
def follows (level : Nat) (w : Word) : Bool :=
  !w.is "(" && (w.kind != .operator || (BinaryOp.levels.drop level).flatten.all (·.symbol != w.text))

theorem follows_mono {level level' : Nat} {w : Word} (h : w.follows level = true)
    (hl : level ≤ level') : w.follows level' = true := by
  have hdrop : ∀ op ∈ (BinaryOp.levels.drop level').flatten, op ∈ (BinaryOp.levels.drop level).flatten := by
    intro op hop
    rw [List.mem_flatten] at hop ⊢
    obtain ⟨ops, hops, hop⟩ := hop
    exact ⟨ops, (List.drop_subset_drop_left _ hl) hops, hop⟩
  unfold follows at h ⊢
  rw [Bool.and_eq_true, Bool.or_eq_true, List.all_eq_true] at h ⊢
  exact ⟨h.1, h.2.imp_right fun h op hop => h op (hdrop op hop)⟩

end Word

/-- Whether a word may follow an expression: it continues neither the expression nor its last part. -/
def Expr.admits (e : Expr) (next : Word) : Bool :=
  next.follows 0 && !next.is assignSymbol && !(e.capturesElse && next.kind == .keyword .elseWord)

theorem Expr.follows_of_admits {e : Expr} {next : Word} (h : e.admits next = true) :
    next.follows 0 = true ∧ next.is assignSymbol = false := by
  simp only [admits, Bool.and_eq_true, Bool.not_eq_true'] at h
  exact h.1

/-- A word that continues no expression at all. -/
theorem Expr.admits_of_ne {next : Word} (h : next.follows 0 = true) (hassign : next.is assignSymbol = false)
    (helse : next.kind ≠ .keyword .elseWord) (e : Expr) : e.admits next = true := by
  simp [admits, h, hassign, helse]

/-! ## What may begin -/

/-- An identifier is spelled like no operator and no parenthesis. -/
theorem Word.is_name_eq_false {x text : String} (hx : isIdentifier x = true) {k : TokenKind}
    (hkind : (lexeme? text.toList).map Prod.fst = some k) (hne : k ≠ .identifier) :
    (name x).is text = false := by
  refine Bool.eq_false_iff.2 fun his => hne ?_
  obtain rfl : x = text := eq_of_beq (Bool.and_eq_true_iff.1 his).2
  rw [eq_of_beq hx] at hkind
  exact (Option.some.inj hkind).symm

theorem Word.isUnary_name {x : String} (hx : isIdentifier x = true) : (name x).isUnary = false := by
  have hnegate : (name x).is "-" = false :=
    is_name_eq_false hx (k := .operator) (by decide) nofun
  have hnot : (name x).is "not" = false :=
    is_name_eq_false hx (k := .operator) (by decide) nofun
  rw [isUnary, hnegate, hnot]
  rfl

/-- A number that is not negative is written in digits. -/
theorem Word.is_int_eq_false {value : Int64} (hvalue : 0 ≤ value.toInt) {text : String}
    (htext : text.toList.all Char.isDigit = false) : (int value).is text = false := by
  refine Bool.eq_false_iff.2 fun his => ?_
  obtain rfl : toString value = text := eq_of_beq (Bool.and_eq_true_iff.1 his).2
  rw [List.all_eq_true.2 (isDigit_toString hvalue).2] at htext
  cases htext

/-- Whether a word may begin an expression: it ends no list and no sequence, and it begins neither a return
nor the definition of a function. -/
def Word.begins (w : Word) : Bool :=
  !w.is ")" && !w.is "\x7d" && !w.is ";" &&
    !([TokenKind.stop, .keyword .funWord, .keyword .returnWord].contains w.kind)

theorem headD_append (ws ws' : List Word) (next : Word) :
    (ws ++ ws').headD next = ws.headD (ws'.headD next) := by
  cases ws <;> rfl

theorem Word.begins_group {ws : List Word} (h : ∀ next, (ws.headD next).begins = true) (needed : Bool)
    (next : Word) : ((Writing.full.group needed ws).headD next).begins = true := by
  cases needed with
  | false => exact h next
  | true => exact rfl

theorem Word.begins_name {x : String} (hx : isIdentifier x = true) : (name x).begins = true := by
  have hclosing : (name x).is ")" = false := is_name_eq_false hx (k := .parenthesis) (by decide) nofun
  have hbrace : (name x).is "\x7d" = false := is_name_eq_false hx (k := .parenthesis) (by decide) nofun
  have hsemicolon : (name x).is ";" = false := is_name_eq_false hx (k := .punctuation) (by decide) nofun
  rw [begins, hclosing, hbrace, hsemicolon]
  rfl

/-- Every expression has a first word, and that may begin an expression. -/
theorem Expr.words_begin : ∀ {e : Expr}, e.producible .inner = true →
    ∀ next, ((e.words .full).headD next).begins = true
  | int _ value, h, next => by
    have hvalue : 0 ≤ value.toInt := of_decide_eq_true h
    rw [words, List.headD_cons, Word.begins, Word.is_int_eq_false hvalue (by decide),
      Word.is_int_eq_false hvalue (by decide), Word.is_int_eq_false hvalue (by decide)]
    rfl
  | bool _ value, _, _ => by cases value <;> rfl
  | name _ x, h, _ => Word.begins_name h
  | call _ x _, h, _ => Word.begins_name (Bool.and_eq_true_iff.1 h).1
  | unary _ op _, _, _ => by cases op <;> rfl
  | binary _ op _ lhs _, h, next => by
    rw [words, headD_append]
    exact Word.begins_group (words_begin (Bool.and_eq_true_iff.1 h).1) _ _
  | assign _ _ target _, h, next => by
    rw [words, headD_append]
    exact Word.begins_group (words_begin (Bool.and_eq_true_iff.1 h).1) _ _
  | control _ c, _, _ => by cases c <;> rfl
  | ifThen .., _, _ | ifElse .., _, _ | loop .., _, _ | declare .., _, _ | block .., _, _ => rfl

/-! ## Operators of a level -/

/-- The binary operators of a level, counted from the loosest one. -/
def BinaryOp.ofLevel (level : Nat) : List BinaryOp := levels.getD level []

theorem BinaryOp.levels_drop {level : Nat} (h : level < levels.length) :
    levels.drop level = ofLevel level :: levels.drop (level + 1) := by
  rw [List.drop_eq_getElem_cons h]
  simp [ofLevel, h]

namespace Parser

theorem binaryOp?_eq_none {level level' : Nat} {t : Token} (h : t.word.follows level = true)
    (hl : level ≤ level') (hl' : level' < BinaryOp.levels.length) :
    binaryOp? (BinaryOp.ofLevel level') t = none := by
  have h := Word.follows_mono h hl
  rw [Word.follows, BinaryOp.levels_drop hl', Bool.and_eq_true, Bool.or_eq_true, List.all_eq_true] at h
  unfold binaryOp?
  split
  · rename_i hkind
    obtain hno | hall := h.2
    · simp [Token.word, hkind] at hno
    · refine List.find?_eq_none.2 fun op hop => ?_
      simpa [Token.word] using hall op (List.mem_flatten.2 ⟨_, List.mem_cons_self, hop⟩)
  · rfl

theorem binaryOp?_symbol (op : BinaryOp) {level : Nat} (hl : op.tightness = level + 1) {t : Token}
    (ht : t.word = .operator op.symbol) : binaryOp? (BinaryOp.ofLevel level) t = some op := by
  obtain rfl : level = op.tightness - 1 := by omega
  obtain ⟨kind, text, l⟩ := t
  cases ht
  cases op <;> rfl

theorem follows_symbol (op : BinaryOp) : (Word.operator op.symbol).follows op.tightness = true := by
  cases op <;> decide

theorem unaryOp?_symbol (op : UnaryOp) {t : Token} (ht : t.word = .operator op.symbol) :
    unaryOp? t = some op := by
  obtain ⟨kind, text, l⟩ := t
  cases ht
  cases op <;> rfl

theorem unaryOp?_eq_none {t : Token} (h : t.word.isUnary = false) : unaryOp? t = none := by
  obtain ⟨hnegate, hnot⟩ := Bool.or_eq_false_iff.1 h
  rw [Token.is_word] at hnegate hnot
  simp [unaryOp?, UnaryOp.symbol, hnegate, hnot]

/-! ## Levels -/

/-- The parser of operands at a level of the binary operators. Behind the last level these are what unary
operators apply to. -/
def atLevel (n level : Nat) : Parser Expr :=
  binary (unary (operand (expressionWithin n) (n + 1)) (n + 1)) (n + 1) (BinaryOp.levels.drop level)

theorem atLevel_eq {n level : Nat} (h : level < BinaryOp.levels.length) :
    atLevel n level = (do
      let lhs ← atLevel n (level + 1)
      moreOperands (BinaryOp.ofLevel level) (atLevel n (level + 1)) (n + 1) lhs) := by
  rw [atLevel, BinaryOp.levels_drop h]
  rfl

/-- Reading words leads to where further operands of a level are read behind an expression. -/
def Leads (n level : Nat) (ws : List Word) (next : Word) (e : Expr) : Prop :=
  ∀ (behind used ahead : List Token) (good : Expr → Cursor → Prop) (bad : Fault ParseError → Prop),
    used.map (·.word) = ws → ahead.head?.map (·.word) = some next → (used ++ ahead).length ≤ n + 1 →
    (∀ bound lhs, lhs.alike e = true → ahead.length ≤ bound →
      Ends (moreOperands (BinaryOp.ofLevel level) (atLevel n (level + 1)) bound lhs)
        ⟨used.reverse ++ behind, ahead⟩ good bad) →
    Ends (atLevel n level) ⟨behind, used ++ ahead⟩ good bad

section

variable {n level : Nat} {ws : List Word} {next : Word} {e : Expr}

theorem Leads.of_takes (hl : level < BinaryOp.levels.length)
    (h : Takes (n + 1) (atLevel n (level + 1)) ws next (·.alike e = true)) : Leads n level ws next e := by
  intro behind used ahead good bad hused hahead hn hmore
  rw [atLevel_eq hl]
  refine .bind (h.ends hused hahead hn fun lhs hlhs => hmore _ _ hlhs ?_)
  rw [List.length_append] at hn
  omega

/-- There are no further operands where no operator of the level stands. -/
theorem moreOperands_ends {inner : Parser Expr} {bound : Nat} {lhs : Expr} {c : Cursor}
    {good : Expr → Cursor → Prop} {bad : Fault ParseError → Prop} (hl : level < BinaryOp.levels.length)
    (hnext : c.peek.word.follows level = true) (h : good lhs c) :
    Ends (moreOperands (BinaryOp.ofLevel level) inner bound lhs) c good bad := by
  cases bound with
  | zero => exact .pure h
  | succ bound =>
    unfold moreOperands
    refine .bind (.peek ?_)
    rw [binaryOp?_eq_none hnext (Nat.le_refl _) hl]
    exact .pure h

theorem Takes.of_leads (hl : level < BinaryOp.levels.length) (hnext : next.follows level = true)
    (h : Leads n level ws next e) : Takes (n + 1) (atLevel n level) ws next (·.alike e = true) := by
  intro behind used ahead hused hahead hn
  have hpeek : (Cursor.peek ⟨used.reverse ++ behind, ahead⟩).word = next :=
    peek_eq _ (List.map_nil : List.map Token.word [] = []) hahead
  exact h behind used ahead _ _ hused hahead hn fun bound lhs hlhs _ =>
    moreOperands_ends hl (by rwa [hpeek]) ⟨hlhs, rfl⟩

/-- What is read at a level is read at the looser ones too if no operator of them follows. -/
theorem Takes.loosen {level' : Nat} (h : Takes (n + 1) (atLevel n level') ws next (·.alike e = true))
    (hl' : level' ≤ BinaryOp.levels.length) (hnext : next.follows level = true) (hl : level ≤ level') :
    Takes (n + 1) (atLevel n level) ws next (·.alike e = true) := by
  induction level' with
  | zero => obtain rfl := Nat.le_zero.1 hl; exact h
  | succ level' ih =>
    obtain rfl | hl := Nat.eq_or_lt_of_le hl
    · exact h
    · have hl := Nat.le_of_lt_succ hl
      exact ih (.of_leads hl' (Word.follows_mono hnext hl) (.of_takes hl' h)) (Nat.le_of_succ_le hl') hl

/-- What is read as an operand is read behind no unary operators. -/
theorem Takes.unary_none {good : Expr → Prop} {m bound : Nat} {inner : Parser Expr}
    (h : Takes m inner ws next good) (hfirst : (ws.headD next).isUnary = false) :
    Takes m (unary inner bound) ws next good := by
  cases bound with
  | zero => exact h
  | succ bound =>
    refine .peek fun t ht => ?_
    rw [unaryOp?_eq_none (ht ▸ hfirst)]
    exact h

/-- What is read at the loosest level is an expression if nothing is assigned to it. -/
theorem Takes.expression {good : Expr → Prop} (h : Takes (n + 1) (atLevel n 0) ws next good)
    (hnext : next.is assignSymbol = false) : Takes (n + 1) (expressionWithin (n + 1)) ws next good :=
  h.bind_last fun _ he => .take?_none hnext (.pure he)

end

/-! ## Expressions that are read back -/

/-- How an expression is read back wherever it stands: on its own, as a left operand of a level, and as an
operand of unary operators. -/
structure Readable (e : Expr) : Prop where
  whole : ∀ {n next}, e.admits next = true →
    Takes n (expressionWithin n) (e.words .full) next (·.alike e = true)
  leads : ∀ {n level next}, level < BinaryOp.levels.length → next.follows (level + 1) = true →
    Leads n level (Writing.full.group (e.tightness ≤ level) (e.words .full)) next e
  underUnary : ∀ {n m bound next}, m ≤ n + 1 → m ≤ bound → next.follows BinaryOp.levels.length = true →
    Takes m (unary (operand (expressionWithin n) (n + 1)) bound)
      (Writing.full.group (e.tightness < UnaryOp.tightness) (e.words .full)) next (·.alike e = true)

section

variable {n level : Nat} {ws : List Word} {next : Word} {e : Expr}

theorem group_false (ws : List Word) : Writing.full.group false ws = ws := rfl

/-- A whole operand of a level. -/
theorem Readable.takes (h : Readable e) (hl : level ≤ BinaryOp.levels.length)
    (hnext : next.follows level = true) :
    Takes (n + 1) (atLevel n level) (Writing.full.group (e.tightness ≤ level) (e.words .full)) next
      (·.alike e = true) := by
  obtain rfl | hl := Nat.eq_or_lt_of_le hl
  · have hgroup : decide (e.tightness ≤ BinaryOp.levels.length) = decide (e.tightness < UnaryOp.tightness) :=
      decide_eq_decide.2 Nat.lt_succ_iff.symm
    rw [hgroup]
    exact h.underUnary (Nat.le_refl _) (Nat.le_refl _) hnext
  · exact .of_leads hl hnext (h.leads hl (Word.follows_mono hnext (Nat.le_succ _)))

theorem Takes.atLevel_of_operand
    (h : Takes (n + 1) (operand (expressionWithin n) (n + 1)) ws next (·.alike e = true))
    (hfirst : (ws.headD next).isUnary = false) (hl : level ≤ BinaryOp.levels.length)
    (hnext : next.follows level = true) : Takes (n + 1) (atLevel n level) ws next (·.alike e = true) := by
  refine .loosen ?_ (Nat.le_refl BinaryOp.levels.length) hnext hl
  exact .unary_none h hfirst

/-- An expression in parentheses is an operand. -/
theorem Takes.grouped (h : ∀ {n next}, e.admits next = true →
      Takes n (expressionWithin n) (e.words .full) next (·.alike e = true)) :
    Takes (n + 1) (operand (expressionWithin n) (n + 1)) (Writing.full.group true (e.words .full)) next
      (·.alike e = true) := by
  refine .peek fun t ht => ?_
  have hkind : t.kind = .parenthesis := congrArg Word.kind ht
  have hopening : t.is "(" = true := congrArg (Word.is · "(") ht
  simp only [hkind, hopening, if_true]
  have hclosing : e.admits (.parenthesis ")") = true :=
    Expr.admits_of_ne (by decide) (by decide) (by decide) e
  exact .expect rfl fun _ _ => .bind (h hclosing) fun _ he => .expect rfl fun _ _ => .pure he

/-- What binds most loosely is an operand in parentheses. -/
theorem Readable.of_whole (ht : e.tightness = 0)
    (h : ∀ {n next}, e.admits next = true →
      Takes n (expressionWithin n) (e.words .full) next (·.alike e = true)) : Readable e where
  whole := h
  leads {n level next} hl hnext := by
    rw [decide_eq_true (by omega)]
    exact .of_takes hl (.atLevel_of_operand (.grouped h) rfl hl hnext)
  underUnary {n m bound next} hm _ _ := by
    rw [decide_eq_true (by unfold UnaryOp.tightness; omega)]
    exact .unary_none (.mono (.grouped h) hm) rfl

/-- What ends in an expression of any kind is read back if it is read as an operand. -/
theorem Readable.of_open (ht : e.tightness = 0)
    (hfirst : ∀ next, ((e.words .full).headD next).isUnary = false)
    (h : ∀ {n next}, e.admits next = true →
      Takes (n + 1) (operand (expressionWithin n) (n + 1)) (e.words .full) next (·.alike e = true)) :
    Readable e := by
  refine .of_whole ht fun {n next} hnext => ?_
  obtain ⟨hfollows, hassign⟩ := Expr.follows_of_admits hnext
  cases n with
  | zero => exact .zero
  | succ n => exact .expression (.atLevel_of_operand (h hnext) (hfirst _) (Nat.zero_le _) hfollows) hassign

/-- What cannot fall apart is read back if it is read as an operand. -/
theorem Readable.of_operand (ht : UnaryOp.tightness < e.tightness)
    (hfirst : ∀ next, ((e.words .full).headD next).isUnary = false)
    (h : ∀ {n next}, next.follows BinaryOp.levels.length = true →
      Takes (n + 1) (operand (expressionWithin n) (n + 1)) (e.words .full) next (·.alike e = true)) :
    Readable e where
  whole {n next} hnext := by
    obtain ⟨hfollows, hassign⟩ := Expr.follows_of_admits hnext
    cases n with
    | zero => exact .zero
    | succ n =>
      have htakes := h (n := n) (Word.follows_mono hfollows (Nat.zero_le _))
      exact .expression (.atLevel_of_operand htakes (hfirst _) (Nat.zero_le _) hfollows) hassign
  leads {n level next} hl hnext := by
    have hgroup : decide (e.tightness ≤ level) = false :=
      decide_eq_false (by unfold UnaryOp.tightness at ht; omega)
    rw [hgroup]
    exact .of_takes hl (.atLevel_of_operand (h (Word.follows_mono hnext hl)) (hfirst _) hl hnext)
  underUnary hm _ hnext := by
    rw [decide_eq_false (Nat.not_lt.2 (Nat.le_of_lt ht))]
    exact .unary_none ((h hnext).mono hm) (hfirst _)

/-! ### Operators -/

theorem Readable.unary {note : Note} {op : UnaryOp} (h : Readable e) : Readable (.unary note op e) := by
  have hunder : ∀ {n m bound next}, m ≤ n + 1 → m ≤ bound →
      next.follows BinaryOp.levels.length = true →
      Takes m (Parser.unary (Parser.operand (expressionWithin n) (n + 1)) bound)
        ((Expr.unary note op e).words .full) next (·.alike (.unary note op e) = true) := by
    intro n m bound next hm hbound hnext
    cases bound with
    | zero =>
      obtain rfl := Nat.le_zero.1 hbound
      exact .zero
    | succ bound =>
      rw [Expr.words]
      refine .peek fun t ht => ?_
      rw [unaryOp?_symbol op ht]
      refine .take fun _ _ => .bind_last (h.underUnary (by omega) (by omega) hnext) fun e' he' => .pure ?_
      simp [Expr.alike, he']
  have hlevel : ∀ {n level next}, level ≤ BinaryOp.levels.length → next.follows level = true →
      Takes (n + 1) (Parser.atLevel n level) ((Expr.unary note op e).words .full) next
        (·.alike (.unary note op e) = true) := by
    intro n level next hl hnext
    refine .loosen ?_ (Nat.le_refl BinaryOp.levels.length) hnext hl
    exact hunder (Nat.le_refl _) (Nat.le_refl _) (Word.follows_mono hnext hl)
  refine ⟨fun {n next} hnext => ?_, fun {n level next} hl hnext => ?_, hunder⟩
  · obtain ⟨hfollows, hassign⟩ := Expr.follows_of_admits hnext
    cases n with
    | zero => exact .zero
    | succ n => exact .expression (hlevel (Nat.zero_le _) hfollows) hassign
  · have hgroup : decide ((Expr.unary note op e).tightness ≤ level) = false :=
      decide_eq_false (Nat.not_le.2 (Nat.lt_succ_of_lt hl))
    rw [hgroup]
    exact .of_takes hl (hlevel hl hnext)

/-- An operator takes all that was read before at its level as its left operand. -/
theorem Leads.binary {note : Note} {op : BinaryOp} {l : Location} {lhs rhs : Expr} (hl : Readable lhs)
    (hr : Readable rhs) (ht : op.tightness = level + 1) (hlevel : level < BinaryOp.levels.length)
    (hnext : next.follows (level + 1) = true) :
    Leads n level ((Expr.binary note op l lhs rhs).words .full) next (.binary note op l lhs rhs) := by
  intro behind used ahead good bad hused hahead hn hmore
  rw [Expr.words] at hused
  obtain ⟨usedl, usedr, rfl, husedl, hused⟩ := List.map_eq_append_iff.1 hused
  obtain ⟨t, usedr, rfl, htoken, husedr⟩ := List.map_eq_cons_iff.1 hused
  have hgroup : decide (lhs.tightness < op.tightness) = decide (lhs.tightness ≤ level) :=
    decide_eq_decide.2 (by omega)
  have hgroup' : decide (rhs.tightness ≤ op.tightness) = decide (rhs.tightness ≤ level + 1) := by rw [ht]
  rw [hgroup] at husedl
  rw [hgroup'] at husedr
  rw [List.append_assoc] at hn ⊢
  refine hl.leads hlevel (ht ▸ follows_symbol op) behind usedl _ good bad husedl
    (congrArg some htoken) hn fun bound lhs' hlhs' hbound => ?_
  obtain ⟨bound, rfl⟩ : ∃ b, bound = b + 1 := Nat.exists_eq_add_one.2 (by simp at hbound; omega)
  rw [moreOperands]
  refine .bind (.peek ?_)
  have hop : binaryOp? (BinaryOp.ofLevel level)
      (Cursor.peek ⟨usedl.reverse ++ behind, t :: usedr ++ ahead⟩) = some op := binaryOp?_symbol op ht htoken
  rw [hop]
  have hr := hr.takes (n := n) hlevel hnext
  refine .bind (.take (.bind (hr.ends husedr hahead ?_ fun rhs' hrhs' => ?_)))
  · simp only [List.cons_append, List.length_append, List.length_cons] at hn ⊢
    omega
  · have halike : (Expr.binary ⟨lhs'.location, none⟩ op t.location lhs' rhs').alike
        (.binary note op l lhs rhs) = true := by simp [Expr.alike, hlhs', hrhs']
    have hbound : ahead.length ≤ bound := by
      simp only [List.cons_append, List.length_append, List.length_cons] at hbound
      omega
    simpa [Cursor.peek] using hmore bound _ halike hbound

theorem Readable.binary {note : Note} {op : BinaryOp} {l : Location} {lhs rhs : Expr}
    (hl : Readable lhs) (hr : Readable rhs) : Readable (.binary note op l lhs rhs) := by
  obtain ⟨own, hown, hlevel⟩ : ∃ own, op.tightness = own + 1 ∧ own < BinaryOp.levels.length := by
    cases op <;> exact ⟨_, rfl, by decide⟩
  have hlevels : ∀ {n level next}, level ≤ own → next.follows level = true →
      Takes (n + 1) (Parser.atLevel n level) ((Expr.binary note op l lhs rhs).words .full) next
        (·.alike (.binary note op l lhs rhs) = true) := by
    intro n level next hle hnext
    have hleads : Leads n own ((Expr.binary note op l lhs rhs).words .full) next _ :=
      .binary hl hr hown hlevel (Word.follows_mono hnext (Nat.le_succ_of_le hle))
    exact .loosen (.of_leads hlevel (Word.follows_mono hnext hle) hleads) (Nat.le_of_lt hlevel) hnext hle
  have hwhole : ∀ {n next}, (Expr.binary note op l lhs rhs).admits next = true →
      Takes n (expressionWithin n) ((Expr.binary note op l lhs rhs).words .full) next
        (·.alike (.binary note op l lhs rhs) = true) := by
    intro n next hnext
    obtain ⟨hfollows, hassign⟩ := Expr.follows_of_admits hnext
    cases n with
    | zero => exact .zero
    | succ n => exact .expression (hlevels (Nat.zero_le _) hfollows) hassign
  have htightness : (Expr.binary note op l lhs rhs).tightness = own + 1 := hown
  refine ⟨hwhole, fun {n level next} hlt hnext => ?_, fun {n m bound next} hm _ _ => ?_⟩
  · obtain hle | hgt := Nat.lt_or_ge own level
    · rw [decide_eq_true (by omega)]
      exact .of_takes hlt (.atLevel_of_operand (.grouped hwhole) rfl hlt hnext)
    · rw [decide_eq_false (by omega), group_false]
      obtain rfl | hlt := Nat.eq_or_lt_of_le hgt
      · exact .binary hl hr hown hlevel hnext
      · exact .of_takes (by omega) (hlevels hlt hnext)
  · rw [decide_eq_true (by unfold UnaryOp.tightness; omega)]
    exact .unary_none (.mono (.grouped hwhole) hm) rfl

/-- An assignment groups to the right. -/
theorem Readable.assign {note : Note} {l : Location} {target value : Expr} (ht : Readable target)
    (hv : Readable value) : Readable (.assign note l target value) := by
  refine .of_whole rfl fun {n next} hnext => ?_
  cases n with
  | zero => exact .zero
  | succ n =>
    have hadmits : value.admits next = true := hnext
    rw [Expr.words]
    have hgroup : decide (target.tightness = 0) = decide (target.tightness ≤ 0) :=
      decide_eq_decide.2 Nat.le_zero.symm
    rw [hgroup]
    have hassign : (Word.operator assignSymbol).follows 0 = true := by decide
    refine .bind (ht.takes (Nat.zero_le _) hassign) fun target' ht' => .take? rfl fun t _ => ?_
    refine .bind_last (hv.whole hadmits |>.mono (by omega)) fun value' hv' => .pure ?_
    simp [Expr.alike, ht', hv']

/-! ### Open expressions -/

theorem admits_keyword (e : Expr) {word : Keyword} (h : word ≠ .elseWord) :
    e.admits (.keyword word) = true := by
  have hne : (Word.keyword word).kind ≠ .keyword .elseWord := fun he => h (TokenKind.keyword.inj he)
  refine Expr.admits_of_ne ?_ ?_ hne e <;> cases word <;> decide

/-- Behind the branch of a conditional that has an alternative. -/
theorem admits_else (h : e.capturesElse = false) : e.admits (.keyword .elseWord) = true := by
  simp only [Expr.admits, h, Bool.false_and, Bool.not_false, Bool.and_true]
  decide

theorem capturesElse_of_admits (h : e.capturesElse = true) (hnext : e.admits next = true) :
    next.kind ≠ .keyword .elseWord := by
  rintro hkind
  simp [Expr.admits, h, hkind] at hnext

theorem Readable.ifThen {note : Note} {c t : Expr} (hc : Readable c) (ht : Readable t) :
    Readable (.ifThen note c t) := by
  refine .of_open rfl (fun _ => rfl) fun {n next} hnext => ?_
  obtain ⟨hfollows, hassign⟩ := Expr.follows_of_admits hnext
  have helse := capturesElse_of_admits (e := .ifThen note c t) rfl hnext
  have hadmits : t.admits next = true := Expr.admits_of_ne hfollows hassign helse t
  refine .peek fun token htoken => ?_
  have hkind : token.kind = .keyword .ifWord := congrArg Word.kind htoken
  simp only [hkind]
  refine .expectKeyword fun _ _ => .bind (hc.whole (admits_keyword c (by decide))) fun c' hc' => ?_
  refine .expectKeyword fun _ _ => .bind_last (.mono (ht.whole hadmits) (by omega)) fun t' ht' => ?_
  refine .peek fun token' htoken' => ?_
  have hno : token'.isKeyword .elseWord = false := by
    rw [Token.isKeyword, beq_eq_false_iff_ne]
    exact fun h => helse ((congrArg Word.kind htoken').symm.trans h)
  rw [hno]
  exact .pure (by simp [Expr.alike, hc', ht'])

/-- A branch that could take the alternative for its own is in parentheses. -/
theorem Readable.thenBranch (h : Readable e) :
    Takes n (expressionWithin n) (Writing.full.group e.capturesElse (e.words .full))
      (.keyword .elseWord) (·.alike e = true) := by
  cases hcaptures : e.capturesElse with
  | false => exact h.whole (admits_else hcaptures)
  | true =>
    cases n with
    | zero => exact .zero
    | succ n =>
      have hlevel : Takes (n + 1) (Parser.atLevel n 0) _ (.keyword .elseWord) (·.alike e = true) :=
        .atLevel_of_operand (.grouped h.whole) rfl (Nat.zero_le _) (by decide)
      exact .expression hlevel (by decide)

theorem Readable.ifElse {note : Note} {c t e : Expr} (hc : Readable c) (ht : Readable t)
    (he : Readable e) : Readable (.ifElse note c t e) := by
  refine .of_open rfl (fun _ => rfl) fun {n next} hnext => ?_
  have hadmits : e.admits next = true := hnext
  refine .peek fun token htoken => ?_
  have hkind : token.kind = .keyword .ifWord := congrArg Word.kind htoken
  simp only [hkind]
  rw [Expr.words, List.append_assoc, List.cons_append]
  refine .expectKeyword fun _ _ => .bind (hc.whole (admits_keyword c (by decide))) fun c' hc' => ?_
  refine .expectKeyword fun _ _ => .bind (.mono ht.thenBranch (by omega)) fun t' ht' => ?_
  refine .peek fun token' htoken' => ?_
  have hyes : token'.isKeyword .elseWord = true := by
    rw [Token.isKeyword, beq_iff_eq]
    exact congrArg Word.kind htoken'
  rw [hyes]
  refine .take fun _ _ => .bind_last (.mono (he.whole hadmits) (by omega)) fun e' he' => .pure ?_
  simp [Expr.alike, hc', ht', he']

theorem Readable.loop {note : Note} {c b : Expr} (hc : Readable c) (hb : Readable b) :
    Readable (.loop note c b) := by
  refine .of_open rfl (fun _ => rfl) fun {n next} hnext => ?_
  have hadmits : b.admits next = true := hnext
  refine .peek fun token htoken => ?_
  have hkind : token.kind = .keyword .whileWord := congrArg Word.kind htoken
  simp only [hkind]
  refine .expectKeyword fun _ _ => .bind (hc.whole (admits_keyword c (by decide))) fun c' hc' => ?_
  refine .expectKeyword fun _ _ => .bind_last (.mono (hb.whole hadmits) (by omega)) fun b' hb' => .pure ?_
  simp [Expr.alike, hc', hb']

theorem annotation_takes {name : TypeName} : Takes n (some <$> writtenType) [name.word] next
    fun written? => written?.map (·.name) = some name := by
  rw [map_eq_pure_bind]
  exact .writtenType fun written hwritten => .pure (congrArg some hwritten)

theorem Readable.declare {note : Note} {x : Name} {written? : Option WrittenType}
    (he : Readable e) : Readable (.declare note x written? e) := by
  refine .of_open rfl (fun _ => rfl) fun {n next} hnext => ?_
  have hadmits : e.admits next = true := hnext
  refine .peek fun token htoken => ?_
  have hkind : token.kind = .keyword .varWord := congrArg Word.kind htoken
  simp only [hkind]
  refine .expectKeyword fun _ _ => .identifier fun name hname => ?_
  cases written? with
  | none =>
    refine .take?_none rfl (.bind_nil (g := (· = none)) (.pure rfl) ?_)
    rintro _ rfl
    refine .expect rfl fun _ _ => .bind_last (.mono (he.whole hadmits) (by omega)) fun e' he' => .pure ?_
    simp [Expr.alike, hname, he']
  | some a =>
    refine .take? rfl fun _ _ => .bind annotation_takes fun written? hwritten => ?_
    refine .expect rfl fun _ _ => .bind_last (.mono (he.whole hadmits) (by omega)) fun e' he' => .pure ?_
    simp [Expr.alike, hname, hwritten, he']

/-! ### Items -/

section Items

variable {α β : Type} {item : Parser α} {render : β → List Word} {agree : α → β → Prop}
  {most : Nat}

/-- What is read behind an item: items with a comma before each one, up to the closing parenthesis. -/
theorem moreItems_takes {xs : List β}
    (h : ∀ x ∈ xs, ∀ {n next}, n ≤ most → next ∈ [Word.punctuation ",", .parenthesis ")"] →
      Takes n item (render x) next (agree · x)) :
    ∀ {n bound : Nat}, n ≤ bound → n ≤ most → Takes n (moreItems item bound)
      (xs.flatMap fun x => .punctuation "," :: render x) (.parenthesis ")")
      (List.Forall₂ agree · xs) := by
  induction xs with
  | nil =>
    intro n bound hn _
    cases bound with
    | zero => exact .pure .nil
    | succ bound => exact .take?_none rfl (.pure .nil)
  | cons x xs ih =>
    intro n bound hn hmost
    obtain ⟨hx, hxs⟩ := List.forall_mem_cons.1 h
    cases bound with
    | zero =>
      obtain rfl := Nat.le_zero.1 hn
      exact .zero
    | succ bound =>
      refine .take? rfl fun _ _ => .bind (hx (by omega) ?_) fun x' hx' => ?_
      · cases xs <;> simp
      · exact .bind_last (ih hxs (by omega) (by omega)) fun xs' hxs' => .pure (.cons hx' hxs')

theorem itemsInParentheses_takes {xs : List β}
    (h : ∀ x ∈ xs, ∀ {n next}, n ≤ most → next ∈ [Word.punctuation ",", .parenthesis ")"] →
      Takes n item (render x) next (agree · x))
    (hfirst : ∀ x ∈ xs, ∀ next, ((render x).headD next).is ")" = false) {n bound : Nat} (hn : n ≤ bound)
    (hmost : n ≤ most) :
    Takes n (itemsInParentheses item bound) (Word.commaed (xs.map render) ++ [.parenthesis ")"]) next
      (List.Forall₂ agree · xs) := by
  cases xs with
  | nil =>
    refine .peek fun t ht => ?_
    have hclosing : t.is ")" = true := congrArg (Word.is · ")") ht
    rw [if_pos hclosing]
    exact .take fun _ _ => .pure .nil
  | cons x xs =>
    obtain ⟨hx, hxs⟩ := List.forall_mem_cons.1 h
    rw [List.map_cons, Word.commaed_cons, List.flatMap_map, List.append_assoc]
    refine .peek fun t ht => ?_
    have hopen : t.is ")" = false := by
      rw [← Token.is_word, ht, headD_append]
      exact hfirst x List.mem_cons_self _
    rw [hopen]
    refine .bind (hx hmost ?_) fun x' hx' => .bind (moreItems_takes hxs ?_ ?_) fun xs' hxs' => ?_
    · cases xs <;> simp
    · omega
    · omega
    · exact .expect rfl fun _ _ => .pure (.cons hx' hxs')

end Items

/-! ### What cannot fall apart -/

theorem Readable.name {note : Note} {x : String} (hx : isIdentifier x = true) :
    Readable (.name note x) := by
  refine .of_operand (Nat.lt_succ_self _) (fun _ => Word.isUnary_name hx) fun {n next} hnext => ?_
  refine .peek fun token htoken => ?_
  have hkind : token.kind = .identifier := congrArg Word.kind htoken
  simp only [hkind]
  have hopening : next.is "(" = false := by
    rw [Word.follows, Bool.and_eq_true, Bool.not_eq_true'] at hnext
    exact hnext.1
  exact .identifier fun name hname => .take?_none hopening (.pure (by simp [Expr.alike, hname]))

theorem allAlike_of_forall₂ {es es' : List Expr}
    (h : List.Forall₂ (fun e e' => e.alike e' = true) es es') : Expr.allAlike es es' = true := by
  induction h with
  | nil => rfl
  | cons he _ ih => simp [Expr.allAlike, he, ih]

theorem Readable.call {note : Note} {f : String} {es : List Expr} (hf : isIdentifier f = true)
    (hes : ∀ e ∈ es, Readable e)
    (hfirst : ∀ e ∈ es, ∀ next, ((e.words .full).headD next).is ")" = false) :
    Readable (.call note f es) := by
  refine .of_operand (Nat.lt_succ_self _) (fun _ => Word.isUnary_name hf) fun {n next} hnext => ?_
  rw [Expr.words, Expr.eachWords_eq, List.cons_append, List.cons_append]
  refine .peek fun token htoken => ?_
  have hkind : token.kind = .identifier := congrArg Word.kind htoken
  simp only [hkind]
  have hitems : ∀ e ∈ es, ∀ {m next}, m ≤ n → next ∈ [Word.punctuation ",", .parenthesis ")"] →
      Takes m (expressionWithin n) (e.words .full) next (·.alike e = true) := by
    intro e he m next hm hnext
    have hadmits : e.admits next = true := by
      simp only [List.mem_cons, List.not_mem_nil, or_false] at hnext
      obtain rfl | rfl := hnext <;> exact Expr.admits_of_ne (by decide) (by decide) (by decide) e
    exact .mono ((hes e he).whole hadmits) hm
  refine .identifier fun name hname => .take? rfl fun _ _ => ?_
  refine .bind_last (itemsInParentheses_takes hitems hfirst (by omega) (by omega)) fun es' hes' => .pure ?_
  simp [Expr.alike, hname, allAlike_of_forall₂ hes']

theorem Readable.int {note : Note} {value : Int64} (hvalue : 0 ≤ value.toInt) :
    Readable (.int note value) := by
  have hunary : (Word.int value).isUnary = false := by
    rw [Word.isUnary, Word.is_int_eq_false hvalue (by decide), Word.is_int_eq_false hvalue (by decide)]
    rfl
  refine .of_operand (Nat.lt_succ_self _) (fun _ => hunary) fun {n next} hnext => ?_
  refine .peek fun token htoken => ?_
  have hkind : token.kind = .int := congrArg Word.kind htoken
  simp only [hkind]
  refine .take fun t ht => ?_
  have htext : t.text = toString value := congrArg Word.text ht
  rw [htext, int64?_toString hvalue]
  exact .pure (by simp [Expr.alike])

theorem Readable.bool {note : Note} {value : Bool} : Readable (.bool note value) := by
  have hunary : (Word.bool value).isUnary = false := by cases value <;> decide
  refine .of_operand (Nat.lt_succ_self _) (fun _ => hunary) fun {n next} hnext => ?_
  refine .peek fun token htoken => ?_
  have hkind : token.kind = .bool := congrArg Word.kind htoken
  simp only [hkind]
  refine .take fun t ht => .pure ?_
  have his : t.is "true" = value := by
    rw [← Token.is_word, ht]
    cases value <;> decide
  simp [Expr.alike, his]

theorem Readable.control {note : Note} {c : LoopControl} : Readable (.control note c) := by
  refine .of_operand (Nat.lt_succ_self _) (fun _ => by cases c <;> rfl) fun {n next} hnext => ?_
  refine .peek fun token htoken => ?_
  have hkind : token.kind = .keyword c.keyword := congrArg Word.kind htoken
  rw [hkind]
  cases c <;> exact .take fun _ _ => .pure rfl

end

end Parser

end Exprc.Syntax

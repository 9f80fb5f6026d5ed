/-
Whole trees are read back: blocks, the definitions of functions and modules. In a sequence of statements a
semicolon stands between two of them; one behind the last statement stands for the unit literal.
-/
import Exprc.Proofs.Syntax.Printing

namespace Exprc.Syntax

open Text

/-- The word that ends a sequence. -/
def Enclosure.closingWord : Enclosure → Word
  | braces => .parenthesis "\x7d"
  | text => .stop

theorem Expr.isReturn_of_alike {e e' : Expr} (h : e.alike e' = true) : e.isReturn = e'.isReturn := by
  cases e <;> cases e' <;> first | rfl | cases h

namespace Parser

variable {n m bound : Nat} {next : Word} {e : Expr}

/-! ## Statements -/

/-- How a statement is read back: it is followed by a semicolon or by the end of the sequence. -/
structure StatementRead (e : Expr) : Prop where
  takes : ∀ {n m : Nat} {next : Word}, m ≤ n →
    next ∈ [.punctuation ";", .parenthesis "\x7d", .stop] →
    Takes m (statement (expressionWithin n)) (e.words .full) next (·.alike e = true)

theorem admits_of_mem (e : Expr) (h : next ∈ [.punctuation ";", .parenthesis "\x7d", .stop]) :
    e.admits next = true := by
  simp only [List.mem_cons, List.not_mem_nil, or_false] at h
  obtain rfl | rfl | rfl := h <;> exact Expr.admits_of_ne (by decide) (by decide) (by decide) e

/-- What the first word of an expression is not. -/
theorem begins_ne {w : Word} (h : w.begins = true) {t : Token} (ht : t.word = w) :
    t.isKeyword .returnWord = false ∧ t.is ";" = false ∧ t.is "\x7d" = false ∧ t.isStop = false := by
  subst ht
  simp only [Word.begins, Bool.and_eq_true, Bool.not_eq_true', List.contains_cons, Bool.or_eq_false_iff,
    Token.is_word] at h
  exact ⟨h.2.2.2.1, h.1.2, h.1.1.2, h.2.1⟩

theorem StatementRead.expression (h : Readable e) (hproducible : e.producible .inner = true) :
    StatementRead e := by
  refine ⟨fun {n m next} hm hnext => ?_⟩
  refine .peek fun t ht => ?_
  rw [(begins_ne (Expr.words_begin hproducible next) ht).1]
  exact .mono (h.whole (admits_of_mem e hnext)) hm

theorem StatementRead.leave {note : Note} : StatementRead (.leave note) := by
  refine ⟨fun {n m next} hm hnext => ?_⟩
  refine .peek fun t ht => ?_
  have hreturn : t.isKeyword .returnWord = true := by
    rw [Token.isKeyword, beq_iff_eq]
    exact congrArg Word.kind ht
  rw [hreturn]
  refine .take fun _ _ => .peek fun t ht => ?_
  have hends : (t.is ";" || t.is "\x7d" || t.isStop) = true := by
    rw [← Token.is_word, ← Token.is_word, Token.isStop]
    have hkind : t.kind = next.kind := congrArg Word.kind ht
    rw [ht, hkind]
    simp only [List.mem_cons, List.not_mem_nil, or_false] at hnext
    obtain rfl | rfl | rfl := hnext <;> decide
  rw [if_pos hends]
  exact .pure rfl

theorem StatementRead.leaveWith {note : Note} (h : Readable e) (hproducible : e.producible .inner = true) :
    StatementRead (.leaveWith note e) := by
  refine ⟨fun {n m next} hm hnext => ?_⟩
  refine .peek fun t ht => ?_
  have hreturn : t.isKeyword .returnWord = true := by
    rw [Token.isKeyword, beq_iff_eq]
    exact congrArg Word.kind ht
  rw [hreturn]
  refine .take fun _ _ => .peek fun t ht => ?_
  obtain ⟨-, hsemicolon, hbrace, hstop⟩ := begins_ne (Expr.words_begin hproducible next) ht
  rw [hsemicolon, hbrace, hstop]
  refine .bind_last (.mono (h.whole (admits_of_mem e hnext)) (by omega)) fun e' he' => .pure ?_
  simpa [Expr.alike] using he'

/-- What may stand last: what may stand anywhere, a unit literal and a return. -/
theorem producible_last_cases {follows : Bool} (h : e.producible (.last follows) = true) :
    e.producible .inner = true ∨ (∃ note, e = .unit note) ∨ (∃ note, e = .leave note) ∨
      ∃ note value, e = .leaveWith note value ∧ value.producible .inner = true := by
  cases e <;> simp_all [Expr.producible]

theorem Word.opens_of_begins {w : Word} (h : w.begins = true) (enclosure : Enclosure) :
    w.closes enclosure = false ∧ w.defines enclosure = false := by
  simp only [Word.begins, Bool.and_eq_true, Bool.not_eq_true', List.contains_cons,
    Bool.or_eq_false_iff] at h
  obtain ⟨⟨⟨-, hbrace⟩, -⟩, hstop, hfun, -⟩ := h
  cases enclosure with
  | braces => exact ⟨hbrace, rfl⟩
  | text => exact ⟨hstop, hfun⟩

/-- The first word of a statement neither ends a sequence nor defines a function. -/
theorem statement_first {follows : Bool} (h : e.producible (.last follows) = true)
    (hunit : ∀ note, e ≠ .unit note) (enclosure : Enclosure) (next : Word) :
    ((e.words .full).headD next).closes enclosure = false ∧
      ((e.words .full).headD next).defines enclosure = false := by
  obtain h | ⟨note, rfl⟩ | ⟨note, rfl⟩ | ⟨note, value, rfl, -⟩ := producible_last_cases h
  · exact Word.opens_of_begins (Expr.words_begin h next) enclosure
  · exact absurd rfl (hunit note)
  · cases enclosure <;> exact ⟨rfl, rfl⟩
  · cases enclosure <;> exact ⟨rfl, rfl⟩

section

variable {enclosure : Enclosure} {definition : Parser FunctionDefinition} {nested : Parser Expr}
  {m bound : Nat} {semicolon? : Option Location}

theorem sequence_closed :
    Takes m (sequence enclosure definition nested bound semicolon?) [] enclosure.closingWord
      (· = { statements := (semicolon?.map fun l => .unit ⟨l, none⟩).toList }) := by
  unfold sequence
  refine .atClosing ?_
  have hclosing : ([].headD enclosure.closingWord).closes enclosure = true := by cases enclosure <;> rfl
  rw [if_pos hclosing]
  exact .pure rfl

theorem sequence_open {ws : List Word} {good : Sequence → Prop}
    (hopen : (ws.headD next).closes enclosure = false) (hdefines : (ws.headD next).defines enclosure = false)
    (h : Takes m (do
      let s ← statement nested
      let semicolon? ← statementEnd enclosure s.isReturn
      let rest ← sequence enclosure definition nested bound semicolon?
      return { rest with statements := s :: rest.statements }) ws next good) :
    Takes m (sequence enclosure definition nested (bound + 1) semicolon?) ws next good := by
  unfold sequence
  refine .atClosing ?_
  rw [hopen]
  refine .atDefinition ?_
  rw [hdefines]
  exact h

end

theorem words_single (e : Expr) : Writing.full.statements (Expr.eachWords .full [e]) = e.words .full := by
  simp [Writing.statements, Expr.eachWords, List.intercalate]

theorem words_cons (e e' : Expr) (es : List Expr) :
    Writing.full.statements (Expr.eachWords .full (e :: e' :: es)) =
      e.words .full ++ .punctuation ";" :: Writing.full.statements (Expr.eachWords .full (e' :: es)) := by
  simp only [Writing.statements, Expr.eachWords, Word.intercalate_cons, List.flatMap_cons]
  simp

/-- Statements are read back: in front of them a semicolon has been read just if another statement has. -/
theorem statements_take {enclosure : Enclosure} {definition : Parser FunctionDefinition} {n : Nat} :
    ∀ {es : List Expr} {follows : Bool} {m bound : Nat} {semicolon? : Option Location},
      Expr.allProducible follows es = true →
      (∀ e ∈ es, (∀ note, e ≠ .unit note) → StatementRead e) →
      semicolon?.isSome = follows → (es = [] → follows = false) → m ≤ n → m ≤ bound →
      Takes m (sequence enclosure definition (expressionWithin n) bound semicolon?)
        (Writing.full.statements (Expr.eachWords .full es)) enclosure.closingWord
        fun inside => inside.functions = [] ∧ Expr.allAlike inside.statements es = true
  | [], follows, m, bound, semicolon?, _, _, hsemicolon, hnil, _, _ => by
    refine sequence_closed.imp ?_
    rintro _ rfl
    rw [hnil rfl, Option.isSome_eq_false_iff, Option.isNone_iff_eq_none] at hsemicolon
    rw [hsemicolon]
    exact ⟨rfl, rfl⟩
  | [e], follows, m, bound, semicolon?, hproducible, hread, hsemicolon, _, hm, hbound => by
    rw [words_single]
    have hlast : e.producible (.last follows) = true := hproducible
    by_cases hunit : ∃ note, e = .unit note
    · obtain ⟨note, rfl⟩ := hunit
      have hfollows : follows = true := by simpa [Expr.producible] using hlast
      obtain ⟨l, rfl⟩ := Option.isSome_iff_exists.1 (hsemicolon.trans hfollows)
      refine sequence_closed.imp ?_
      rintro _ rfl
      exact ⟨rfl, rfl⟩
    · have hunit := not_exists.1 hunit
      cases bound with
      | zero =>
        obtain rfl := Nat.le_zero.1 hbound
        exact .zero
      | succ bound =>
        obtain ⟨hopen, hdefines⟩ := statement_first hlast hunit enclosure enclosure.closingWord
        have hread := hread e List.mem_cons_self hunit
        refine sequence_open hopen hdefines (.bind_last (hread.takes hm ?_) fun e' he' => ?_)
        · cases enclosure <;> simp [Enclosure.closingWord]
        · refine .lastStatement (by cases enclosure <;> rfl) (by cases enclosure <;> rfl) ?_
          refine .bind_last sequence_closed ?_
          rintro _ rfl
          exact .pure ⟨rfl, by simp [Expr.allAlike, he']⟩
  | e :: e' :: es, follows, m, bound, semicolon?, hproducible, hread, hsemicolon, _, hm, hbound => by
    rw [words_cons]
    obtain ⟨hinner, hrest⟩ := Bool.and_eq_true_iff.1 hproducible
    obtain ⟨hreade, hread⟩ := List.forall_mem_cons.1 hread
    have hunit : ∀ note, e ≠ .unit note := by
      rintro note rfl
      cases hinner
    have hreturn : e.isReturn = false := by cases e <;> first | rfl | cases hinner
    cases bound with
    | zero =>
      obtain rfl := Nat.le_zero.1 hbound
      exact .zero
    | succ bound =>
      obtain ⟨hopen, hdefines⟩ := statement_first (Expr.producible_last hinner true) hunit enclosure
        (.punctuation ";")
      refine sequence_open (by rwa [headD_append]) (by rwa [headD_append]) ?_
      refine .bind ((hreade hunit).takes hm (by simp)) fun e₁ he₁ => ?_
      rw [Expr.isReturn_of_alike he₁, hreturn]
      refine .semicolon fun l => .bind_last (statements_take hrest hread rfl (by simp) (by omega) ?_) ?_
      · omega
      · rintro inside ⟨hfunctions, hstatements⟩
        exact .pure ⟨hfunctions, by simp [Expr.allAlike, he₁, hstatements]⟩

theorem block_takes {es : List Expr} {note : Note} {m bound : Nat}
    (hproducible : Expr.allProducible false es = true)
    (hread : ∀ e ∈ es, (∀ note, e ≠ .unit note) → StatementRead e) (hm : m ≤ n + 1) (hbound : m ≤ bound) :
    Takes m (block (expressionWithin n) bound) ((Expr.block note es).words .full) next
      (·.alike (.block note es) = true) := by
  rw [Expr.words, List.cons_append]
  refine .expect rfl fun _ _ => ?_
  refine .bind (statements_take hproducible hread rfl (fun _ => rfl) (by omega) (by omega)) ?_
  rintro inside ⟨-, hinside⟩
  exact .expect rfl fun _ _ => .pure hinside

theorem Readable.block {es : List Expr} {note : Note} (hproducible : Expr.allProducible false es = true)
    (hread : ∀ e ∈ es, (∀ note, e ≠ .unit note) → StatementRead e) : Readable (.block note es) := by
  refine .of_operand (Nat.lt_succ_self _) (fun _ => rfl) fun {n next} hnext => ?_
  refine .peek fun token htoken => ?_
  have hkind : token.kind = .parenthesis := congrArg Word.kind htoken
  have hgroup : token.is "(" = false := congrArg (Word.is · "(") htoken
  have hopening : token.is "\x7b" = true := congrArg (Word.is · "\x7b") htoken
  simp only [hkind, hgroup, hopening]
  exact block_takes hproducible hread (Nat.le_refl _) (Nat.le_refl _)

/-! ## All trees -/

/-- An expression is read back wherever the parser can produce it. -/
structure ReadBack (e : Expr) : Prop where
  inner : e.producible .inner = true → Readable e
  last : ∀ {follows}, e.producible (.last follows) = true → (∀ note, e ≠ .unit note) → StatementRead e

theorem ReadBack.of_readable (h : e.producible .inner = true → Readable e) (hreturn : e.isReturn = false) :
    ReadBack e := by
  refine ⟨h, fun hlast hunit => ?_⟩
  obtain hinner | ⟨note, rfl⟩ | ⟨note, rfl⟩ | ⟨note, value, rfl, -⟩ := producible_last_cases hlast
  · exact .expression (h hinner) hinner
  · exact absurd rfl (hunit note)
  · cases hreturn
  · cases hreturn

theorem statementRead_of_readBack {es : List Expr} (h : ∀ e ∈ es, ReadBack e) {follows : Bool}
    (hproducible : Expr.allProducible follows es = true) :
    ∀ e ∈ es, (∀ note, e ≠ .unit note) → StatementRead e := by
  induction es generalizing follows with
  | nil => exact nofun
  | cons e es ih =>
    obtain ⟨he, hes⟩ := List.forall_mem_cons.1 h
    cases es with
    | nil => exact List.forall_mem_singleton.2 (he.last hproducible)
    | cons e' es =>
      obtain ⟨hinner, hrest⟩ := Bool.and_eq_true_iff.1 hproducible
      exact List.forall_mem_cons.2 ⟨fun _ => .expression (he.inner hinner) hinner, ih hes hrest⟩

theorem Readable.call_of_readBack {f : String} {es : List Expr} {note : Note} (h : ∀ e ∈ es, ReadBack e)
    (hproducible : (Expr.call note f es).producible .inner = true) : Readable (.call note f es) := by
  obtain ⟨hf, hes⟩ := Bool.and_eq_true_iff.1 hproducible
  have hes := Expr.eachProducible_iff.1 hes
  refine .call hf (fun e he => (h e he).inner (hes e he)) fun e he next => ?_
  have hbegins := Expr.words_begin (hes e he) next
  simp only [Word.begins, Bool.and_eq_true, Bool.not_eq_true'] at hbegins
  exact hbegins.1.1.1

mutual

/-- Every expression is read back wherever the parser can produce it. -/
theorem readBack : ∀ e : Expr, ReadBack e
  | .int .. => .of_readable (fun h => .int (of_decide_eq_true h)) rfl
  | .bool .. => .of_readable (fun _ => .bool) rfl
  | .unit _ => ⟨nofun, fun _ hunit => absurd rfl (hunit _)⟩
  | .name .. => .of_readable .name rfl
  | .unary _ _ e => .of_readable (fun h => .unary ((readBack e).inner h)) rfl
  | .binary _ _ _ lhs rhs => .of_readable (fun h =>
      have ⟨hl, hr⟩ := Bool.and_eq_true_iff.1 h
      .binary ((readBack lhs).inner hl) ((readBack rhs).inner hr)) rfl
  | .assign _ _ target value => .of_readable (fun h =>
      have ⟨ht, hv⟩ := Bool.and_eq_true_iff.1 h
      .assign ((readBack target).inner ht) ((readBack value).inner hv)) rfl
  | .ifThen _ c t => .of_readable (fun h =>
      have ⟨hc, ht⟩ := Bool.and_eq_true_iff.1 h
      .ifThen ((readBack c).inner hc) ((readBack t).inner ht)) rfl
  | .ifElse _ c t e => .of_readable (fun h =>
      have ⟨hct, he⟩ := Bool.and_eq_true_iff.1 h
      have ⟨hc, ht⟩ := Bool.and_eq_true_iff.1 hct
      .ifElse ((readBack c).inner hc) ((readBack t).inner ht) ((readBack e).inner he)) rfl
  | .loop _ c b => .of_readable (fun h =>
      have ⟨hc, hb⟩ := Bool.and_eq_true_iff.1 h
      .loop ((readBack c).inner hc) ((readBack b).inner hb)) rfl
  | .block _ es => .of_readable (fun h => .block h (statementRead_of_readBack (eachReadBack es) h)) rfl
  | .declare _ _ _ e => .of_readable (fun h =>
      .declare ((readBack e).inner (Bool.and_eq_true_iff.1 h).2)) rfl
  | .call _ _ es => .of_readable (.call_of_readBack (eachReadBack es)) rfl
  | .control .. => .of_readable (fun _ => .control) rfl
  | .leave _ => ⟨nofun, fun _ _ => .leave⟩
  | .leaveWith _ e => ⟨nofun, fun h _ => .leaveWith ((readBack e).inner h) h⟩

theorem eachReadBack : ∀ es : List Expr, ∀ e ∈ es, ReadBack e
  | [] => nofun
  | e :: es => List.forall_mem_cons.2 ⟨readBack e, eachReadBack es⟩

end

/-! ## Functions and modules -/

theorem parameter_takes (p : Parameter) : Takes n parameter p.words next (·.alike p = true) := by
  refine .identifier fun name hname => .expect rfl fun _ _ => .writtenType fun written hwritten => .pure ?_
  simp [Parameter.alike, hname, hwritten]

theorem all_alike_of_forall₂ {α : Type} {alike : α → α → Bool} {xs ys : List α}
    (h : List.Forall₂ (fun x y => alike x y = true) xs ys) :
    xs.length = ys.length ∧ (xs.zip ys).all (fun (x, y) => alike x y) = true := by
  induction h with
  | nil => exact ⟨rfl, rfl⟩
  | cons hx _ ih => simpa [hx] using ih

theorem definition_takes {f : FunctionDefinition} (hproducible : f.producible = true) (hn : n ≤ m)
    (hbound : n ≤ bound) :
    Takes n (definition (expressionWithin m) bound) (f.words .full) next (·.alike f = true) := by
  simp only [FunctionDefinition.producible, Bool.and_eq_true, List.all_eq_true] at hproducible
  obtain ⟨⟨-, hparameters⟩, hbody⟩ := hproducible
  have hwords : f.words .full = .keyword .funWord :: .name f.name.text :: .parenthesis "("
      :: ((Word.commaed (f.parameters.map (·.words)) ++ [.parenthesis ")"])
        ++ .punctuation ":" :: f.result.name.word :: f.body.words .full) := by
    simp [FunctionDefinition.words]
  have hfirst : ∀ p ∈ f.parameters, ∀ next, (p.words.headD next).is ")" = false := fun p hp _ =>
    Word.is_name_eq_false (hparameters p hp) (k := .parenthesis) (by decide) (by decide)
  have hitem : ∀ p ∈ f.parameters, ∀ {k next}, k ≤ n → next ∈ [Word.punctuation ",", .parenthesis ")"] →
      Takes k parameter p.words next (·.alike p = true) := fun p _ {_ _} _ _ => parameter_takes p
  rw [hwords]
  refine .expectKeyword fun word _ => .identifier fun name hname => .expect rfl fun _ _ => ?_
  refine .bind (itemsInParentheses_takes hitem hfirst (by omega) (by omega)) fun ps hps => ?_
  refine .expect rfl fun _ _ => .writtenType fun result hresult => ?_
  split at hbody
  · rename_i note es hes
    rw [hes]
    have hread := statementRead_of_readBack (eachReadBack es) hbody
    refine .bind_last (block_takes hbody hread (by omega) (by omega)) fun body hbody' => .pure ?_
    obtain ⟨hlength, hall⟩ := all_alike_of_forall₂ hps
    rw [← hes] at hbody'
    simp [FunctionDefinition.alike, hname, hlength, hall, hresult, hbody']
  · cases hbody

/-- The functions of a module are read back, and behind them its statements. -/
theorem functions_take {es : List Expr} (hes : Expr.allProducible false es = true) {n b : Nat} :
    ∀ {fs : List FunctionDefinition} {m bound : Nat}, (∀ f ∈ fs, f.producible = true) → m ≤ n → m ≤ b →
      m ≤ bound → Takes m (sequence .text (definition (expressionWithin n) b) (expressionWithin n) bound none)
        (fs.flatMap (·.words .full) ++ Writing.full.statements (Expr.eachWords .full es)) .stop
        fun inside => List.Forall₂ (fun f g => f.alike g = true) inside.functions fs ∧
          Expr.allAlike inside.statements es = true
  | [], m, bound, _, hm, _, hbound => by
    have hread := statementRead_of_readBack (eachReadBack es) hes
    refine (statements_take hes hread rfl (fun _ => rfl) hm hbound).imp ?_
    rintro inside ⟨hfunctions, hstatements⟩
    exact ⟨by rw [hfunctions]; exact .nil, hstatements⟩
  | f :: fs, m, bound, hfs, hm, hb, hbound => by
    obtain ⟨hf, hfs⟩ := List.forall_mem_cons.1 hfs
    cases bound with
    | zero =>
      obtain rfl := Nat.le_zero.1 hbound
      exact .zero
    | succ bound =>
      rw [List.flatMap_cons, List.append_assoc]
      unfold sequence
      refine .atClosing (.atDefinition ?_)
      refine .bind (definition_takes hf hm hb) fun f' hf' => ?_
      refine .bind_last (functions_take hes hfs (by omega) (by omega) ?_) ?_
      · have hlength : 0 < (f.words .full).length := by simp [FunctionDefinition.words]
        omega
      · rintro inside ⟨hfunctions, hstatements⟩
        exact .pure ⟨.cons hf' hfunctions, hstatements⟩

end Parser

/-- Printing and parsing are inverse: over tokens that are the words of a module the parser succeeds with
the same module but for places and types. -/
theorem module_round_trip {m : Module} (hm : m.producible = true) {tokens : List Token}
    (htokens : tokens.map (·.word) = m.words .full ++ [.stop]) :
    ∃ m' : Module, (Parser.module.run (.start tokens)).1 = .ok m' ∧ m'.alike m = true := by
  simp only [Module.producible, Bool.and_eq_true, List.all_eq_true] at hm
  obtain ⟨hfunctions, hbody⟩ := hm
  split at hbody
  · rename_i note es hes
    obtain ⟨used, last, rfl, hused, hlast⟩ := List.map_eq_append_iff.1 htokens
    have hwords : m.words .full = m.functions.flatMap (·.words .full)
        ++ Writing.full.statements (Expr.eachWords .full es) := by rw [Module.words, hes]
    rw [hwords] at hused
    have hnext : last.head?.map (·.word) = some .stop := by
      obtain ⟨t, rfl, ht⟩ := List.map_eq_singleton_iff.1 hlast
      exact congrArg some ht
    have hends : Parser.Ends Parser.module ⟨[], used ++ last⟩ (fun m' _ => m'.alike m = true)
        fun _ => False := by
      refine .bind (.peek (.bind (.remaining (.bind ?_))))
      refine (Parser.functions_take hbody hfunctions (Nat.le_refl _) (Nat.le_refl _)
        (Nat.le_refl _)).ends hused hnext (Nat.le_refl _) fun inside hinside => .pure ?_
      obtain ⟨hlength, hall⟩ := Parser.all_alike_of_forall₂ hinside.1
      simp [Module.alike, hlength, hall, hes, Expr.alike, hinside.2]
    obtain ⟨m', hm', halike⟩ := hends.exists_ok
    exact ⟨m', hm', halike⟩
  · cases hbody

theorem module_round_trip_grouping :
    ∃ m' : Module, (Parser.module.run (.start
        [⟨.identifier, "a", .start⟩, ⟨.operator, "-", .start⟩, ⟨.parenthesis, "(", .start⟩,
          ⟨.identifier, "b", .start⟩, ⟨.operator, "-", .start⟩, ⟨.int, "7", .start⟩,
          ⟨.parenthesis, ")", .start⟩, ⟨.punctuation, ";", .start⟩, .stop .start])).1 = .ok m' ∧
      m'.alike ⟨.start, [], .block ⟨.start, none⟩
        [.binary ⟨.start, none⟩ .subtract .start (.name ⟨.start, none⟩ "a")
          (.binary ⟨.start, none⟩ .subtract .start (.name ⟨.start, none⟩ "b") (.int ⟨.start, none⟩ 7)),
          .unit ⟨.start, none⟩]⟩ = true :=
  module_round_trip (by decide) (by decide)

end Exprc.Syntax

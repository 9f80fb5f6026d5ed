/-
The end of the text ends everything. What stands behind it plays no role, whether there is no token for it, one or
several, or one and other tokens behind; no token is taken from it on; every expression that is read has taken a
token; and so the parsers are just those that the grammar asks for, with no bound on how deep and how often
(`end_absorbs`).
-/
import Exprc.Proofs.Places.Compiler
import Exprc.Proofs.Syntax.Progress

namespace Exprc.Syntax.Parser

variable {α : Type} {tail tail' : Tail} {p q : Parser α} {c : Cursor} {m n b : Nat}

/-! ## One run -/

/-- Nothing stands behind the tokens. -/
def Tail.empty : Tail := ⟨[], nofun⟩

theorem followedBy_empty (c : Cursor) : c.followedBy Tail.empty = c := by
  rw [Cursor.followedBy, Tail.empty, List.append_nil]

namespace InStep

/-- Over the same tokens there is one way to end. -/
theorem run_eq (h : InStep tail tail p q c m) : p.run (c.followedBy tail) = q.run (c.followedBy tail) := by
  cases h with
  | ok a d hrun hrun' => rw [hrun, hrun']
  | error f g d hrun hrun' _ hsame =>
    obtain ⟨hcause, rfl | ⟨_, hf, hg⟩⟩ := hsame
    · rw [hrun, hrun']
    · obtain rfl : f = g := by
        rw [← hg] at hf
        cases f
        cases g
        simp_all
      rw [hrun, hrun']

theorem reaches (h : InStep Tail.empty Tail.empty p q c m) : c.Reaches (p.run c).2 := by
  cases h with
  | ok a d hrun _ hreaches =>
    rw [followedBy_empty, followedBy_empty] at hrun
    rw [hrun]
    exact hreaches
  | error f g d hrun _ hreaches =>
    rw [followedBy_empty, followedBy_empty] at hrun
    rw [hrun]
    exact hreaches

theorem length_lt {a : α} (h : InStep Tail.empty Tail.empty p q c m) (ha : (p.run c).1 = .ok a) :
    (p.run c).2.ahead.length < m := by
  cases h with
  | ok a d hrun _ _ hm =>
    rw [followedBy_empty, followedBy_empty] at hrun
    rw [hrun]
    exact hm
  | error f g d hrun =>
    rw [followedBy_empty, followedBy_empty] at hrun
    rw [hrun] at ha
    cases ha

end InStep

/-! ## Expressions -/

theorem expression_needsToken : NeedsToken expression :=
  fun c hstop => expressionWithin_needsToken c.ahead.length c hstop

theorem expression_matched (n : Nat) : Matched tail tail' expression expression n := by
  intro c _
  have hlength : ∀ tail : Tail, c.ahead.length ≤ (c.followedBy tail).ahead.length := by
    intro tail
    rw [Cursor.followedBy, List.length_append]
    omega
  exact (expressionWithin_matched (hlength tail) (hlength tail') c (Nat.le_refl _)).congr rfl rfl

/-- With a bound that is large enough an expression is read as without one. -/
theorem expressionWithin_run (hb : c.ahead.length ≤ b) : (expressionWithin b).run c = expression.run c := by
  have h : InStep Tail.empty Tail.empty (expressionWithin b) (expressionWithin c.ahead.length) c c.ahead.length :=
    expressionWithin_matched hb (Nat.le_refl _) c (Nat.le_refl _)
  have hrun := h.run_eq
  rwa [followedBy_empty] at hrun

/-- What reads the expressions inside as `expression` does wherever fewer tokens are ahead, and nothing at the end
of the text, will do for it. -/
theorem assignment_run_expression {nested : Parser Expr} (hn : c.ahead.length ≤ n + 1)
    (h : ∀ d : Cursor, d.ahead.length ≤ n → nested.run d = expression.run d) (hneeds : NeedsToken nested) :
    (assignment nested (n + 1)).run c = (assignment expression (n + 1)).run c := by
  have inside : Matched Tail.empty Tail.empty nested expression n := by
    intro d hd
    refine (expression_matched n d hd).congr ?_ rfl
    rw [followedBy_empty]
    exact h d hd
  have hrun := (assignment_matched inside hneeds expression_needsToken (Nat.le_refl _) (Nat.le_refl _) c hn).run_eq
  rwa [followedBy_empty] at hrun

/-- The grammar of expressions, whatever bound is put on repetitions. -/
theorem expression_run (hn : c.ahead.length ≤ n) : expression.run c = (assignment expression n).run c := by
  cases hstop : c.peek.isStop with
  | true => rw [expression_needsToken c hstop, assignment_run_of_isStop hstop]
  | false =>
    obtain ⟨n, rfl⟩ : ∃ k, n = k + 1 := ⟨n - 1, by have := length_advance hstop; omega⟩
    rw [← expressionWithin_run hn]
    exact assignment_run_expression hn (fun d hd => expressionWithin_run hd) (expressionWithin_needsToken n)

/-- No other parser meets the grammar of expressions. -/
theorem run_eq_expression {p : Parser Expr}
    (h : ∀ (c : Cursor) (n : Nat), c.ahead.length ≤ n → p.run c = (assignment p n).run c) (c : Cursor) :
    p.run c = expression.run c := by
  have hneeds : NeedsToken p := by
    intro d hd
    rw [h d _ (Nat.le_refl _), assignment_run_of_isStop hd]
  -- by induction on the number of tokens ahead: fewer are ahead of the expressions inside
  induction hk : c.ahead.length using Nat.strong_induction_on generalizing c with
  | h k ih =>
    cases hstop : c.peek.isStop with
    | true => rw [hneeds c hstop, expression_needsToken c hstop]
    | false =>
      have hlength := length_advance hstop
      have hn : c.ahead.length ≤ c.advance.ahead.length + 1 := by omega
      rw [h c _ hn, expression_run hn]
      exact assignment_run_expression hn (fun d hd => ih _ (by omega) d rfl) hneeds

theorem expression_inStep (c : Cursor) : InStep tail tail' expression expression c c.ahead.length :=
  expression_matched _ c (Nat.le_refl _)

theorem expression_reaches (c : Cursor) : c.Reaches (expression.run c).2 :=
  (expression_inStep c).reaches

theorem length_expression_lt {e : Expr} (h : (expression.run c).1 = .ok e) :
    (expression.run c).2.ahead.length < c.ahead.length :=
  (expression_inStep c).length_lt h

/-- Expressions are read one behind another, also from where reading one has failed. -/
theorem iterate_expression_reaches (c : Cursor) (k : Nat) :
    c.Reaches ((fun c => (expression.run c).2)^[k] c) := by
  induction k generalizing c with
  | zero => exact .refl c
  | succ k ih =>
    rw [Function.iterate_succ_apply]
    exact (expression_reaches c).trans (ih _)

/-! ## Whole texts -/

/-- The parser of modules over a parser of the expressions inside and a bound on repetitions. -/
def moduleOver (nested : Parser Expr) (bound : Nat) : Parser Module := do
  let location := (← peek).location
  let inside ← sequence .text (definition nested bound) nested bound none
  return ⟨location, inside.functions, .block ⟨location, none⟩ inside.statements⟩

theorem statements_inStep {nested nested' : Parser Expr} {b' : Nat}
    (h : Matched tail tail' nested nested' c.ahead.length)
    (hneeds : NeedsToken nested) (hneeds' : NeedsToken nested')
    (hb : c.ahead.length ≤ b) (hb' : c.ahead.length ≤ b') :
    InStep tail tail' (sequence .text (definition nested b) nested b none)
      (sequence .text (definition nested' b') nested' b' none) c (c.ahead.length + 1) := by
  have functions : Matched tail tail' (definition nested b) (definition nested' b') c.ahead.length := by
    intro d hd
    exact definition_inStep h hneeds hneeds' (by omega) (by omega) (by omega)
  exact sequence_inStep h hneeds hneeds' functions none (Nat.le_refl _) hb hb'

theorem moduleOver_run_ok {nested : Parser Expr} {inside : Sequence} {d : Cursor}
    (h : (sequence .text (definition nested b) nested b none).run c = (.ok inside, d)) :
    (moduleOver nested b).run c = (.ok ⟨c.peek.location, inside.functions,
      .block ⟨c.peek.location, none⟩ inside.statements⟩, d) :=
  (bind_run_ok (p := peek) rfl).trans (bind_run_ok h)

theorem moduleOver_run_error {nested : Parser Expr} {fault : Fault ParseError} {d : Cursor}
    (h : (sequence .text (definition nested b) nested b none).run c = (.error fault, d)) :
    (moduleOver nested b).run c = (.error fault, d) :=
  (bind_run_ok (p := peek) rfl).trans (bind_run_error h)

/-- Statements of whole texts, from two ends of the text on. -/
theorem textStatements_inStep (hb : c.ahead.length ≤ b) (hb' : c.ahead.length ≤ n) :
    InStep tail tail' (sequence .text (definition expression b) expression b none)
      (sequence .text (definition expression n) expression n none) c (c.ahead.length + 1) :=
  statements_inStep (expression_matched _) expression_needsToken expression_needsToken hb hb'

/-- The grammar of modules, whatever bound is put on repetitions. -/
theorem module_run (hn : c.ahead.length ≤ n) : module.run c = (moduleOver expression n).run c := by
  have inside : Matched Tail.empty Tail.empty (expressionWithin c.ahead.length) expression c.ahead.length := by
    intro d hd
    exact (expression_matched _ d hd).congr (expressionWithin_run (by rwa [followedBy_empty])) rfl
  have hrun := (statements_inStep inside (expressionWithin_needsToken _) expression_needsToken (Nat.le_refl _)
    hn).run_eq
  rw [followedBy_empty] at hrun
  have hmodule : module.run c = (moduleOver (expressionWithin c.ahead.length) c.ahead.length).run c := by
    unfold moduleOver
    rw [bind_run_ok (p := peek) rfl]
    exact (bind_run_ok (p := peek) rfl).trans (bind_run_ok (p := remaining) rfl)
  rw [hmodule]
  rcases hexpression : (sequence .text (definition expression n) expression n none).run c with
    ⟨fault | inside, d⟩
  · rw [moduleOver_run_error hexpression, moduleOver_run_error (hrun.trans hexpression)]
  · rw [moduleOver_run_ok hexpression, moduleOver_run_ok (hrun.trans hexpression)]

theorem module_reaches (c : Cursor) : c.Reaches (module.run c).2 := by
  have hreaches := (textStatements_inStep (Nat.le_refl c.ahead.length) (Nat.le_refl c.ahead.length)).reaches
  rw [module_run (Nat.le_refl _)]
  generalize hrun : (sequence .text _ expression c.ahead.length none).run c = reached at hreaches
  obtain ⟨fault | inside, d⟩ := reached
  · rw [moduleOver_run_error hrun]
    exact hreaches
  · rw [moduleOver_run_ok hrun]
    exact hreaches

theorem standaloneExpression_inStep (c : Cursor) :
    InStep tail tail' standaloneExpression standaloneExpression c c.ahead.length := by
  refine .bind (expression_matched _ c (Nat.le_refl _)) fun e d hd => ?_
  refine .peek (fun hstop => ?_) fun _ t t' ht ht' => ?_
  · rw [hstop, if_neg Bool.false_ne_true]
    exact .unexpected .endOfText
  · rw [ht, ht']
    exact .pure hd

/-! ## What stands behind the end -/

open Compiler in
/-- Runs in lockstep end alike. -/
theorem InStep.sameOutcome {same : α → α → Prop} (h : InStep tail tail' p q c m) (hsame : ∀ a, same a a) :
    SameOutcome same ((p.run (c.followedBy tail)).1.mapError Fault.diagnostic)
      ((q.run (c.followedBy tail')).1.mapError Fault.diagnostic) := by
  cases h with
  | ok a d hrun hrun' =>
    rw [hrun, hrun']
    exact hsame a
  | error f g d hrun hrun' _ hfault =>
    rw [hrun, hrun']
    exact ⟨congrArg Cause.kind hfault.1, congrArg Cause.message hfault.1⟩

open Compiler in
theorem module_sameOutcome (c : Cursor) (tail tail' : Tail) :
    SameOutcome (fun m n => m.alike n = true) ((module.run (c.followedBy tail)).1.mapError Fault.diagnostic)
      ((module.run (c.followedBy tail')).1.mapError Fault.diagnostic) := by
  have hlength : ∀ tail : Tail, c.ahead.length ≤ (c.followedBy tail).ahead.length := by
    intro tail
    rw [Cursor.followedBy, List.length_append]
    omega
  rw [module_run (Nat.le_refl _), module_run (Nat.le_refl _)]
  cases textStatements_inStep (hlength tail) (hlength tail') with
  | ok inside d hrun hrun' =>
    rw [moduleOver_run_ok hrun, moduleOver_run_ok hrun']
    exact Module.alike_of_eq rfl (Expr.allAlike_refl inside.statements)
  | error f g d hrun hrun' _ hfault =>
    rw [moduleOver_run_error hrun, moduleOver_run_error hrun']
    exact ⟨congrArg Cause.kind hfault.1, congrArg Cause.message hfault.1⟩

open Compiler in
/-- The end of the text absorbs whatever stands behind it. With no token for the end, with several, or with one and
any tokens behind it, the same trees are read, or it fails for the same cause. From no place a parser takes the end
of the text, however often expressions are read and whether reading them succeeds or fails; an expression that is
read has taken a token; and the grammar, in which nothing is bounded, has one parser only, so it comes to an end over
all tokens. -/
theorem end_absorbs (t behind behind' : List Token) (h : ∀ u ∈ behind.head?, u.isStop = true)
    (h' : ∀ u ∈ behind'.head?, u.isStop = true) :
    SameOutcome (fun m n => m.alike n = true)
        ((module.run (.start (t ++ behind))).1.mapError Fault.diagnostic)
        ((module.run (.start (t ++ behind'))).1.mapError Fault.diagnostic) ∧
      SameOutcome (· = ·)
        ((standaloneExpression.run (.start (t ++ behind))).1.mapError Fault.diagnostic)
        ((standaloneExpression.run (.start (t ++ behind'))).1.mapError Fault.diagnostic) ∧
      (∀ c : Cursor, c.Reaches (module.run c).2 ∧ c.Reaches (standaloneExpression.run c).2 ∧
        ∀ k : Nat, c.Reaches ((fun d => (expression.run d).2)^[k] c)) ∧
      (∀ (c : Cursor) (e : Expr), (expression.run c).1 = .ok e →
        (expression.run c).2.ahead.length < c.ahead.length) ∧
      (∀ p : Parser Expr, (∀ c, p.run c = expression.run c) ↔
        ∀ (c : Cursor) (n : Nat), c.ahead.length ≤ n → p.run c = (assignment p n).run c) ∧
      ∀ (c : Cursor) (n : Nat), c.ahead.length ≤ n → module.run c = (moduleOver expression n).run c := by
  refine ⟨?modules, ?expressions, fun c => ⟨module_reaches c, ?reaches, iterate_expression_reaches c⟩,
    fun c e he => length_expression_lt he, fun p => ⟨fun hp => ?grammar, run_eq_expression⟩,
    fun c n hn => module_run hn⟩
  case modules => exact module_sameOutcome (.start t) ⟨behind, h⟩ ⟨behind', h'⟩
  case expressions =>
    have hsteps : InStep ⟨behind, h⟩ ⟨behind', h'⟩ standaloneExpression standaloneExpression (.start t) _ :=
      standaloneExpression_inStep _
    exact hsteps.sameOutcome fun _ => rfl
  case reaches => exact (standaloneExpression_inStep c).reaches
  case grammar =>
    obtain rfl : p = expression := funext hp
    exact fun c n hn => expression_run hn

/-- Behind `f(1` a parenthesis is missing, also where there is one behind the end. -/
theorem end_absorbs_parenthesis :
    let t : List Token := [⟨.identifier, "f", .start⟩, ⟨.parenthesis, "(", .start⟩, ⟨.int, "1", .start⟩]
    let behind : List Token := [.stop .start, ⟨.parenthesis, ")", .start⟩]
    (∀ u ∈ behind.head?, u.isStop = true) ∧
      (module.run (.start t)).1 = .error (.at .start (.unexpected (.spelling ")") none)) ∧
      Compiler.SameOutcome (fun m n => m.alike n = true)
        ((module.run (.start (t ++ []))).1.mapError Fault.diagnostic)
        ((module.run (.start (t ++ behind))).1.mapError Fault.diagnostic) := by
  intro t behind
  have hstop : ∀ u ∈ behind.head?, u.isStop = true := by decide
  exact ⟨hstop, by cbv, (end_absorbs t [] behind nofun hstop).1⟩

end Exprc.Syntax.Parser

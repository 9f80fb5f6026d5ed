/-
A machine that recognises programs token by token. What is still to be read is a stack of goals. The next
token alone decides what becomes of the goal on top, apart from the look behind for a brace: the goal takes
the token and leaves other goals behind, it is left without taking it, or the token is refused.

So what the machine refuses it refuses whatever stands behind (`refuses`). And as long as it refuses
nothing, what it has read is the beginning of a program: a stack that can come up can be completed, goal by
goal (`completes`).
-/
import Exprc.Proofs.Syntax.Runs

namespace Exprc.Syntax

open Text

/-! ## Goals -/

/-- The two kinds of items that stand in lists. -/
inductive ItemKind where
  | argument
  | parameter
deriving DecidableEq, Repr

/-- What is to be read. -/
inductive Goal where
  | expression
  /-- What may stand behind an operand: operators with their operands, and an assignment. -/
  | operators
  /-- What may stand behind a name: arguments. -/
  | call
  /-- Items up to a closing parenthesis. -/
  | items (kind : ItemKind)
  /-- More items, behind one, up to a closing parenthesis. -/
  | moreItems (kind : ItemKind)
  /-- What may stand behind a branch: an alternative. -/
  | alternative
  | spelling (text : String)
  | keyword (word : Keyword)
  | identifier
  | typeName
  /-- What stands behind the name of a variable that is declared. -/
  | initial
  /-- What may stand behind the word for a return: a value. -/
  | returned
  | afterStatement (enclosure : Enclosure) (isReturn : Bool)
  /-- The end of a sequence, behind a return and a semicolon. -/
  | closing (enclosure : Enclosure)
  | statements (enclosure : Enclosure)
deriving DecidableEq, Repr

/-- What becomes of the goal on top. -/
inductive Reaction where
  /-- The token is taken, and these goals take the place of the one on top. -/
  | take (goals : List Goal)
  /-- The goal is done without the token. -/
  | leave
  | refuse (cause : ParseError)

/-- A reaction with further goals. -/
def Reaction.andThen : Reaction → List Goal → Reaction
  | take goals, more => take (goals ++ more)
  | leave, _ => leave
  | refuse cause, _ => refuse cause

namespace Token

/-- The reaction to a token that is not what is expected. -/
def unlike (t : Token) (expected : Expectation) : Reaction :=
  .refuse (.unexpected expected (if t.isStop then none else some t.text))

/-- The reaction to a token that has to begin an expression. -/
def beginExpression (t : Token) : Reaction :=
  match Parser.unaryOp? t with
  | some _ => .take [.expression]
  | none =>
    match t.kind with
    | .int =>
      match int64? t.text.toList with
      | some _ => .take [.operators]
      | none => .refuse (.literalTooLarge t.text)
    | .bool => .take [.operators]
    | .identifier => .take [.call, .operators]
    | .keyword .ifWord =>
      .take [.expression, .keyword .thenWord, .expression, .alternative, .operators]
    | .keyword .whileWord => .take [.expression, .keyword .doWord, .expression, .operators]
    | .keyword .varWord => .take [.identifier, .initial, .operators]
    | .keyword .breakWord => .take [.operators]
    | .keyword .continueWord => .take [.operators]
    | .parenthesis =>
      if t.is "(" then .take [.expression, .spelling ")", .operators]
      else if t.is "\x7b" then .take [.statements .braces, .spelling "\x7d", .operators]
      else t.unlike .expression
    | _ => t.unlike .expression

/-- The reaction to a token that has to be an identifier. -/
def asIdentifier (t : Token) : Reaction :=
  if t.kind = .identifier then .take [] else t.unlike .identifier

/-- Whether a token is a binary operator. -/
def isBinary (t : Token) : Bool := BinaryOp.levels.any fun ops => (Parser.binaryOp? ops t).isSome

end Token

namespace ItemKind

/-- The goals of an item. -/
def goals : ItemKind → List Goal
  | argument => [.expression]
  | parameter => [.identifier, .spelling ":", .typeName]

/-- The reaction to the first token of an item. -/
def begin : ItemKind → Token → Reaction
  | argument, t => t.beginExpression
  | parameter, t => t.asIdentifier.andThen [.spelling ":", .typeName]

end ItemKind

/-- What becomes of a goal on top. `behind?` is the token just behind. -/
def Goal.react (goal : Goal) (behind? : Option Token) (t : Token) : Reaction :=
  match goal with
  | expression => t.beginExpression
  | operators => if t.isBinary || t.is assignSymbol then .take [.expression] else .leave
  | call => if t.is "(" then .take [.items .argument] else .leave
  | items kind => if t.is ")" then .take [] else (kind.begin t).andThen [.moreItems kind]
  | moreItems kind =>
    if t.is "," then .take (kind.goals ++ [.moreItems kind])
    else if t.is ")" then .take []
    else t.unlike (.spelling ")")
  | alternative => if t.isKeyword .elseWord then .take [.expression] else .leave
  | spelling text => if t.is text then .take [] else t.unlike (.spelling text)
  | keyword word => if t.isKeyword word then .take [] else t.unlike (.spelling word.text)
  | identifier => t.asIdentifier
  | typeName =>
    if t.kind = .identifier then
      match TypeName.ofText? t.text with
      | some _ => .take []
      | none => .refuse (.unknownType t.text)
    else t.unlike .typeName
  | initial =>
    if t.is ":" then .take [.typeName, .spelling "=", .expression]
    else if t.is "=" then .take [.expression]
    else t.unlike (.spelling "=")
  | returned => if t.is ";" || t.is "\x7d" || t.isStop then .leave else t.beginExpression
  | afterStatement enclosure isReturn =>
    if t.is ";" then .take (if isReturn then [.closing enclosure] else [])
    else if enclosure.closedBy t || behind?.any (·.is "\x7d") || enclosure.defines t then
      if isReturn && !enclosure.closedBy t then .refuse .returnNotLast else .leave
    else t.unlike (.separator enclosure)
  | closing enclosure => if enclosure.closedBy t then .leave else .refuse .returnNotLast
  | statements enclosure =>
    if enclosure.closedBy t then .leave
    else if enclosure.defines t then
      .take [.identifier, .spelling "(", .items .parameter, .spelling ":", .typeName,
        .spelling "\x7b", .statements .braces, .spelling "\x7d", .statements enclosure]
    else if t.isKeyword .returnWord then
      .take [.returned, .afterStatement enclosure true, .statements enclosure]
    else t.beginExpression.andThen [.afterStatement enclosure false, .statements enclosure]

/-! ## Runs of the machine -/

/-- What becomes of a stack of goals: the token is refused, all goals are done without it, or it is taken. -/
def respond : List Goal → Option Token → Token → Except (Fault ParseError) (Option (List Goal))
  | [], _, _ => .ok none
  | goal :: goals, behind?, t =>
    match goal.react behind? t with
    | .take new => .ok (some (new ++ goals))
    | .leave => respond goals behind? t
    | .refuse cause => .error (.at t.location cause)

/-- Whether goals are met by the tokens ahead, or where they are not. -/
def recogniseFrom (goals : List Goal) (behind : List Token) :
    List Token → Except (Fault ParseError) Unit
  | [] => (respond goals behind.head? (Cursor.peek ⟨behind, []⟩)).map fun _ => ()
  | t :: ahead =>
    match respond goals behind.head? t with
    | .error fault => .error fault
    | .ok none => .ok ()
    | .ok (some goals) => recogniseFrom goals (t :: behind) ahead

/-- Whether goals are met from a cursor on. -/
def recognise (goals : List Goal) (c : Cursor) : Except (Fault ParseError) Unit :=
  recogniseFrom goals c.behind c.ahead

section

variable {goal : Goal} {goals new : List Goal} {c : Cursor}

theorem recognise_nil (c : Cursor) : recognise [] c = .ok () := by
  obtain ⟨behind, _ | ⟨t, ahead⟩⟩ := c <;> rfl

theorem recognise_take (h : goal.react c.behind.head? c.peek = .take new) (hstop : c.peek.isStop = false) :
    recognise (goal :: goals) c = recognise (new ++ goals) c.advance := by
  obtain ⟨behind, t, ahead, rfl⟩ := Cursor.exists_cons hstop
  rw [recognise, recogniseFrom, respond, show goal.react behind.head? t = .take new from h]
  rfl

theorem recognise_leave (h : goal.react c.behind.head? c.peek = .leave) :
    recognise (goal :: goals) c = recognise goals c := by
  obtain ⟨behind, _ | ⟨t, ahead⟩⟩ := c
  · rw [recognise, recogniseFrom, respond, h]
    rfl
  · rw [recognise, recogniseFrom, respond, show goal.react behind.head? t = .leave from h]
    rfl

theorem recognise_refuse {cause : ParseError} (h : goal.react c.behind.head? c.peek = .refuse cause) :
    recognise (goal :: goals) c = .error (.at c.peek.location cause) := by
  obtain ⟨behind, _ | ⟨t, ahead⟩⟩ := c
  · rw [recognise, recogniseFrom, respond, h]
    rfl
  · rw [recognise, recogniseFrom, respond, show goal.react behind.head? t = .refuse cause from h]
    rfl

end

/-! ## Stacks that can come up -/

/-- Whether a goal may stand right on top of another one. Where an operand may have ended, neither an
assignment nor arguments nor an alternative are to be read next: they would be taken for parts of it. -/
def Goal.precedes (goal next : Goal) : Bool :=
  match goal with
  | expression | operators | call | alternative | initial =>
    !([spelling assignSymbol, initial, spelling "(", keyword .elseWord].contains next)
  | returned => next = .afterStatement .braces true || next = .afterStatement .text true
  | afterStatement enclosure _ | closing enclosure => next = .statements enclosure
  | statements enclosure => enclosure = .braces && next = .spelling "\x7d"
  | _ => true

/-- A stack that can come up: at its bottom there are the statements of the whole text. -/
def Stacked : List Goal → Prop
  | [] => False
  | [goal] => goal = .statements .text
  | goal :: next :: goals => goal.precedes next = true ∧ Stacked (next :: goals)

theorem Stacked.tail {goal : Goal} {goals : List Goal} (h : Stacked (goal :: goals)) :
    goals = [] ∧ goal = .statements .text ∨ Stacked goals := by
  cases goals with
  | nil => exact .inl ⟨rfl, h⟩
  | cons next goals => exact .inr h.2

/-- Only the statements of the whole text have nothing below. -/
theorem Stacked.exists_next {goal : Goal} {goals : List Goal} (h : Stacked (goal :: goals))
    (hgoal : goal ≠ .statements .text) :
    ∃ next rest, goals = next :: rest ∧ goal.precedes next = true ∧ Stacked (next :: rest) := by
  cases goals with
  | nil => exact absurd h hgoal
  | cons next rest => exact ⟨next, rest, rfl, h⟩

/-- Whether each goal may stand on the next one. -/
def chained : List Goal → Bool
  | goal :: next :: goals => goal.precedes next && chained (next :: goals)
  | _ => true

/-- New goals may take the place of the one on top if they may stand on each other, and the last one on
whatever that one may stand on. -/
theorem Stacked.replace {goal last : Goal} {goals : List Goal} (h : Stacked (goal :: goals)) :
    ∀ {new : List Goal}, chained new = true → new.getLast? = some last →
      (∀ next, goal.precedes next = true → last.precedes next = true) →
      (goal = .statements .text → last = .statements .text) → Stacked (new ++ goals)
  | [g], _, hg, hlast, hbottom => by
    cases hg
    cases goals with
    | nil => exact hbottom h
    | cons next goals => exact ⟨hlast next h.1, h.2⟩
  | g :: g' :: new, hchain, hg, hlast, hbottom => by
    obtain ⟨hnext, hchain⟩ := Bool.and_eq_true_iff.1 hchain
    exact ⟨hnext, replace h hchain (by rwa [List.getLast?_cons_cons] at hg) hlast hbottom⟩

theorem chained_append {last : Goal} {more : List Goal} : ∀ {new : List Goal}, chained new = true →
    new.getLast? = some last → chained (last :: more) = true → chained (new ++ more) = true
  | [g], _, hg, hmore => by cases hg; exact hmore
  | g :: g' :: new, hchain, hg, hmore => by
    obtain ⟨hnext, hchain⟩ := Bool.and_eq_true_iff.1 hchain
    exact Bool.and_eq_true_iff.2
      ⟨hnext, chained_append hchain (by rwa [List.getLast?_cons_cons] at hg) hmore⟩

/-- Behind the first token of an expression there is more of it to be read, and then whatever may stand
behind an expression. -/
theorem Token.beginExpression_take {t : Token} {new : List Goal} (h : t.beginExpression = .take new) :
    t.isStop = false ∧ chained new = true ∧
      (new.getLast? = some .expression ∨ new.getLast? = some .operators) := by
  have hconclude : ∀ {goals : List Goal}, t.isStop = false → chained goals = true →
      (goals.getLast? = some .expression ∨ goals.getLast? = some .operators) →
      Reaction.take goals = .take new → t.isStop = false ∧ chained new = true ∧
        (new.getLast? = some .expression ∨ new.getLast? = some .operators) := by
    rintro goals hstop hchain hlast ⟨⟩
    exact ⟨hstop, hchain, hlast⟩
  unfold beginExpression at h
  split at h
  · rename_i op hop
    exact hconclude (isStop_of_is (Parser.is_of_unaryOp? hop)) (by decide) (by decide) h
  · have hstop : t.kind ≠ .stop → t.isStop = false := beq_eq_false_iff_ne.2
    split at h
    · rename_i hkind
      split at h
      · exact hconclude (hstop (by simp [hkind])) (by decide) (by decide) h
      · cases h
    · rename_i hkind; exact hconclude (hstop (by simp [hkind])) (by decide) (by decide) h
    · rename_i hkind; exact hconclude (hstop (by simp [hkind])) (by decide) (by decide) h
    · rename_i hkind; exact hconclude (hstop (by simp [hkind])) (by decide) (by decide) h
    · rename_i hkind; exact hconclude (hstop (by simp [hkind])) (by decide) (by decide) h
    · rename_i hkind; exact hconclude (hstop (by simp [hkind])) (by decide) (by decide) h
    · rename_i hkind; exact hconclude (hstop (by simp [hkind])) (by decide) (by decide) h
    · rename_i hkind; exact hconclude (hstop (by simp [hkind])) (by decide) (by decide) h
    · rename_i hkind
      split at h
      · exact hconclude (hstop (by simp [hkind])) (by decide) (by decide) h
      · split at h
        · exact hconclude (hstop (by simp [hkind])) (by decide) (by decide) h
        · cases h
    · cases h

theorem Token.beginExpression_andThen {t : Token} {first more : List Goal} {last : Goal}
    (h : t.beginExpression = .take first) (hmore : chained (.expression :: more) = true)
    (hlast : more.getLast? = some last) :
    t.isStop = false ∧ chained (first ++ more) = true ∧ (first ++ more).getLast? = some last := by
  obtain ⟨hstop, hchain, hfirst⟩ := beginExpression_take h
  have hoperators : chained (.operators :: more) = true := by cases more <;> exact hmore
  refine ⟨hstop, hfirst.elim (chained_append hchain · hmore) (chained_append hchain · hoperators), ?_⟩
  rw [List.getLast?_append, hlast]
  rfl

theorem Token.asIdentifier_take {t : Token} {new : List Goal} (h : t.asIdentifier = .take new) :
    t.isStop = false ∧ new = [] := by
  unfold asIdentifier at h
  split at h
  · rename_i hkind
    cases h
    exact ⟨beq_eq_false_iff_ne.2 (by simp [hkind]), rfl⟩
  · cases h

theorem Token.isStop_of_isBinary {t : Token} (h : t.isBinary = true) : t.isStop = false := by
  obtain ⟨ops, -, hop⟩ := List.any_eq_true.1 h
  obtain ⟨op, hop⟩ := Option.isSome_iff_exists.1 hop
  exact isStop_of_is (Parser.is_of_binaryOp? hop).2

theorem Reaction.andThen_take {r : Reaction} {more new : List Goal} (h : r.andThen more = .take new) :
    ∃ first, r = .take first ∧ new = first ++ more := by
  cases r with
  | take first => cases h; exact ⟨first, rfl, rfl⟩
  | leave => cases h
  | refuse => cases h

/-- A goal that takes a token leaves goals behind that may stand where it stood; and it takes no stop
token. -/
theorem Goal.react_take {goal : Goal} {goals new : List Goal} {behind? : Option Token} {t : Token}
    (h : goal.react behind? t = .take new) (hs : Stacked (goal :: goals)) :
    t.isStop = false ∧ Stacked (new ++ goals) := by
  -- Where the goal is done the next one is on top: the bottom is never done with a token.
  have hpop : goal ≠ .statements .text → Stacked goals := by
    intro hne
    obtain ⟨next, rest, rfl, -, hrest⟩ := hs.exists_next hne
    exact hrest
  unfold react at h
  cases goal with
  | expression =>
    obtain ⟨hstop, hchain, hlast | hlast⟩ := Token.beginExpression_take h
    · exact ⟨hstop, hs.replace hchain hlast (fun _ h => h) nofun⟩
    · exact ⟨hstop, hs.replace hchain hlast (fun _ h => h) nofun⟩
  | operators =>
    dsimp only at h
    split at h
    · rename_i ht
      cases h
      refine ⟨?_, hs.replace rfl rfl (fun _ h => h) nofun⟩
      obtain ht | ht := Bool.or_eq_true_iff.1 ht
      · exact Token.isStop_of_isBinary ht
      · exact Token.isStop_of_is ht
    · cases h
  | call =>
    dsimp only at h
    split at h
    · rename_i ht
      cases h
      exact ⟨Token.isStop_of_is ht, hs.replace rfl rfl (fun _ _ => rfl) nofun⟩
    · cases h
  | items kind =>
    dsimp only at h
    split at h
    · rename_i ht
      cases h
      exact ⟨Token.isStop_of_is ht, hpop nofun⟩
    · obtain ⟨first, hfirst, rfl⟩ := Reaction.andThen_take h
      cases kind with
      | argument =>
        have hmore : chained [.expression, .moreItems .argument] = true := rfl
        obtain ⟨hstop, hchain, hlast⟩ := Token.beginExpression_andThen hfirst hmore rfl
        exact ⟨hstop, hs.replace hchain hlast (fun _ _ => rfl) nofun⟩
      | parameter =>
        obtain ⟨first, hidentifier, rfl⟩ := Reaction.andThen_take hfirst
        obtain ⟨hstop, rfl⟩ := Token.asIdentifier_take hidentifier
        exact ⟨hstop, hs.replace rfl rfl (fun _ _ => rfl) nofun⟩
  | moreItems kind =>
    dsimp only at h
    split at h
    · rename_i ht
      cases h
      cases kind <;> exact ⟨Token.isStop_of_is ht, hs.replace rfl rfl (fun _ _ => rfl) nofun⟩
    · split at h
      · rename_i ht
        cases h
        exact ⟨Token.isStop_of_is ht, hpop nofun⟩
      · cases h
  | alternative =>
    dsimp only at h
    split at h
    · rename_i ht
      cases h
      exact ⟨Token.isStop_of_isKeyword ht, hs.replace rfl rfl (fun _ h => h) nofun⟩
    · cases h
  | spelling text =>
    dsimp only at h
    split at h
    · rename_i ht
      cases h
      exact ⟨Token.isStop_of_is ht, hpop nofun⟩
    · cases h
  | keyword word =>
    dsimp only at h
    split at h
    · rename_i ht
      cases h
      exact ⟨Token.isStop_of_isKeyword ht, hpop nofun⟩
    · cases h
  | identifier =>
    obtain ⟨hstop, rfl⟩ := Token.asIdentifier_take h
    exact ⟨hstop, hpop nofun⟩
  | typeName =>
    dsimp only at h
    split at h
    · rename_i hkind
      split at h
      · cases h
        exact ⟨beq_eq_false_iff_ne.2 (by simp [hkind]), hpop nofun⟩
      · cases h
    · cases h
  | initial =>
    dsimp only at h
    split at h
    · rename_i ht
      cases h
      exact ⟨Token.isStop_of_is ht, hs.replace rfl rfl (fun _ h => h) nofun⟩
    · split at h
      · rename_i ht
        cases h
        exact ⟨Token.isStop_of_is ht, hs.replace rfl rfl (fun _ h => h) nofun⟩
      · cases h
  | returned =>
    dsimp only at h
    split at h
    · cases h
    · have hafter : ∀ next, Goal.returned.precedes next = true → Goal.expression.precedes next = true := by
        intro next hnext
        simp only [precedes, Bool.or_eq_true, decide_eq_true_eq] at hnext
        obtain rfl | rfl := hnext <;> rfl
      obtain ⟨hstop, hchain, hlast | hlast⟩ := Token.beginExpression_take h
      · exact ⟨hstop, hs.replace hchain hlast hafter nofun⟩
      · exact ⟨hstop, hs.replace hchain hlast hafter nofun⟩
  | afterStatement enclosure isReturn =>
    dsimp only at h
    split at h
    · rename_i ht
      cases h
      refine ⟨Token.isStop_of_is ht, ?_⟩
      cases isReturn with
      | true => exact hs.replace rfl rfl (fun _ h => h) nofun
      | false => exact hpop nofun
    · split at h
      · split at h <;> cases h
      · cases h
  | closing enclosure =>
    dsimp only at h
    split at h <;> cases h
  | statements enclosure =>
    dsimp only at h
    split at h
    · cases h
    · split at h
      · rename_i ht
        cases h
        have hword := (Bool.and_eq_true_iff.1 ht).2
        refine ⟨Token.isStop_of_isKeyword hword, hs.replace ?_ rfl (fun _ h => h) id⟩
        cases enclosure <;> rfl
      · split at h
        · rename_i ht
          cases h
          refine ⟨Token.isStop_of_isKeyword ht, hs.replace ?_ rfl (fun _ h => h) id⟩
          cases enclosure <;> rfl
        · obtain ⟨first, hfirst, rfl⟩ := Reaction.andThen_take h
          have hmore : chained [.expression, .afterStatement enclosure false, .statements enclosure] := by
            cases enclosure <;> rfl
          obtain ⟨hstop, hchain, hlast⟩ := Token.beginExpression_andThen hfirst hmore rfl
          exact ⟨hstop, hs.replace hchain hlast (fun _ h => h) id⟩

/-- A token that is taken leaves a stack behind that can come up. -/
theorem respond_take {behind? : Option Token} {t : Token} {new : List Goal} : ∀ {goals : List Goal},
    Stacked goals → respond goals behind? t = .ok (some new) → t.isStop = false ∧ Stacked new
  | goal :: goals, hs, h => by
    rw [respond] at h
    split at h
    · rename_i first hreact
      cases h
      exact Goal.react_take hreact hs
    · obtain ⟨rfl, -⟩ | hs := hs.tail
      · cases h
      · exact respond_take hs h
    · cases h

theorem respond_refuse {behind? : Option Token} {t : Token} {fault : Fault ParseError} :
    ∀ {goals : List Goal}, respond goals behind? t = .error fault → fault.location? = some t.location
  | [], h => by cases h
  | goal :: goals, h => by
    rw [respond] at h
    split at h
    · cases h
    · exact respond_refuse h
    · cases h; rfl

/-! ## Completions -/

/-- The fewest tokens with which a goal is done. -/
def Goal.completion : Goal → List Token
  | expression => [⟨.int, "0", .start⟩]
  | operators | call | alternative | returned | closing _ | statements _ => []
  | items _ | moreItems _ => [⟨.parenthesis, ")", .start⟩]
  | spelling text => [⟨.punctuation, text, .start⟩]
  | keyword word => [⟨.keyword word, word.text, .start⟩]
  | identifier => [⟨.identifier, "x", .start⟩]
  | typeName => [⟨.identifier, "Int", .start⟩]
  | initial => [⟨.operator, "=", .start⟩, ⟨.int, "0", .start⟩]
  | afterStatement .. => [⟨.punctuation, ";", .start⟩]

theorem Goal.isStop_of_mem_completion {goal : Goal} : ∀ t ∈ goal.completion, t.isStop = false := by
  cases goal <;> simp [completion, Token.isStop]

/-- The fewest tokens with which all goals are done. -/
def completion (goals : List Goal) : List Token := goals.flatMap (·.completion) ++ [.stop .start]

/-- The first token of a completion. -/
def firstToken (goals : List Goal) : Token := (completion goals).headD (.stop .start)

theorem completion_cons (goal : Goal) (goals : List Goal) :
    completion (goal :: goals) = goal.completion ++ completion goals := by
  simp [completion]

theorem peek_completion (behind : List Token) (goals : List Goal) :
    Cursor.peek ⟨behind, completion goals⟩ = firstToken goals := by
  unfold firstToken
  cases hgoals : completion goals with
  | nil => simp [completion] at hgoals
  | cons t ts => rfl

theorem firstToken_cons {goal : Goal} (goals : List Goal) (h : goal.completion = []) :
    firstToken (goal :: goals) = firstToken goals := by
  rw [firstToken, completion_cons, h]
  rfl

/-- Whether a token continues nothing that may have ended with an operand. -/
def Token.ends (t : Token) : Bool :=
  !t.isBinary && !t.is assignSymbol && !t.is "(" && !t.isKeyword .elseWord

/-- A completion does not begin with a token that would be taken for a part of an operand before it. -/
theorem ends_firstToken : ∀ {goal : Goal} {goals : List Goal}, Stacked (goal :: goals) →
    Goal.expression.precedes goal = true → (firstToken (goal :: goals)).ends = true
  | .operators, next :: goals, hs, _ | .call, next :: goals, hs, _ | .alternative, next :: goals, hs, _ => by
    rw [firstToken_cons _ rfl]
    exact ends_firstToken hs.2 hs.1
  | .returned, next :: goals, hs, _ => by
    obtain hnext | hnext := Bool.or_eq_true_iff.1 hs.1 <;> cases of_decide_eq_true hnext <;> rfl
  | .closing enclosure, next :: goals, hs, _ => by
    rw [firstToken_cons _ rfl]
    obtain rfl := of_decide_eq_true hs.1
    exact ends_firstToken hs.2 rfl
  | .statements enclosure, [], _, _ => rfl
  | .statements enclosure, next :: goals, hs, _ => by
    rw [firstToken_cons _ rfl]
    obtain rfl := of_decide_eq_true (Bool.and_eq_true_iff.1 hs.1).2
    exact ends_firstToken hs.2 rfl
  | .expression, _, _, _ | .items _, _, _, _ | .moreItems _, _, _, _ | .identifier, _, _, _
  | .typeName, _, _, _ | .afterStatement .., _, _, _ => rfl
  | .spelling text, goals, _, h => by
    simp [Goal.precedes] at h
    simp [firstToken, completion_cons, Goal.completion, Token.ends, Token.isBinary, Parser.binaryOp?,
      Token.is, Token.isKeyword, h]
  | .keyword word, goals, _, h => by
    simp [Goal.precedes] at h
    simp [firstToken, completion_cons, Goal.completion, Token.ends, Token.isBinary, Parser.binaryOp?,
      Token.is, Token.isKeyword, h]
    cases word <;> decide

/-- Behind statements a completion begins with what ends them. -/
theorem closed_firstToken {enclosure : Enclosure} {goals : List Goal}
    (hs : Stacked (.statements enclosure :: goals)) :
    enclosure.closedBy (firstToken (.statements enclosure :: goals)) = true := by
  cases goals with
  | nil => cases hs; rfl
  | cons next goals =>
    obtain ⟨henclosure, hnext⟩ := Bool.and_eq_true_iff.1 hs.1
    cases of_decide_eq_true henclosure
    cases of_decide_eq_true hnext
    rfl

/-- Where an operand may have ended, the goal is done when a completion of the others begins. -/
theorem leave_operand {goal : Goal} {goals : List Goal} (h : goal ∈ [.operators, .call, .alternative])
    (hs : Stacked (goal :: goals)) (behind : List Token) :
    recognise (goal :: goals) ⟨behind, completion goals⟩ = recognise goals ⟨behind, completion goals⟩ := by
  have hprecedes : ∀ next, goal.precedes next = true → Goal.expression.precedes next = true := by
    simp only [List.mem_cons, List.not_mem_nil, or_false] at h
    obtain rfl | rfl | rfl := h <;> exact fun _ h => h
  cases goals with
  | nil =>
    cases hs
    simp at h
  | cons next goals =>
    have hends := ends_firstToken hs.2 (hprecedes next hs.1)
    rw [← peek_completion behind] at hends
    simp only [Token.ends, Bool.and_eq_true, Bool.not_eq_true'] at hends
    obtain ⟨⟨⟨hbinary, hassign⟩, hopening⟩, helse⟩ := hends
    apply recognise_leave
    simp only [List.mem_cons, List.not_mem_nil, or_false] at h
    obtain rfl | rfl | rfl := h <;> simp [Goal.react, hbinary, hassign, hopening, helse]

theorem leave_closing {enclosure : Enclosure} {goals : List Goal}
    (hs : Stacked (.statements enclosure :: goals)) (behind : List Token) :
    recognise (.closing enclosure :: .statements enclosure :: goals)
        ⟨behind, completion (.statements enclosure :: goals)⟩ =
      recognise (.statements enclosure :: goals) ⟨behind, completion (.statements enclosure :: goals)⟩ := by
  have hclosed := closed_firstToken hs
  rw [← peek_completion behind] at hclosed
  exact recognise_leave (if_pos hclosed)

/-- A goal that takes its own completion. -/
theorem recognise_completion {goal : Goal} {goals new : List Goal} {t : Token} {behind : List Token}
    (h : goal.completion = [t]) (hreact : goal.react behind.head? t = .take new) (hstop : t.isStop = false)
    (hrest : recognise (new ++ goals) ⟨t :: behind, completion goals⟩ = .ok ()) :
    recognise (goal :: goals) ⟨behind, goal.completion ++ completion goals⟩ = .ok () := by
  rw [h]
  exact (recognise_take (c := ⟨behind, t :: completion goals⟩) hreact hstop).trans hrest

/-- A stack that can come up can be completed. -/
theorem completes : ∀ {goals : List Goal}, Stacked goals → ∀ behind,
    recognise goals ⟨behind, completion goals⟩ = .ok ()
  | goal :: goals, hs, behind => by
    -- By induction on the stack; nothing is below the statements of the whole text.
    have ih : ∀ behind, recognise goals ⟨behind, completion goals⟩ = .ok () := by
      obtain ⟨rfl, -⟩ | hs := hs.tail
      · exact fun _ => recognise_nil _
      · exact completes hs
    -- Both end with the zero of an expression, behind which operators might follow but none do.
    have hoperators : goal = .expression ∨ goal = .initial → ∀ behind,
        recognise (.operators :: goals) ⟨behind, completion goals⟩ = .ok () := by
      intro hgoal behind
      obtain ⟨next, rest, rfl, hnext, hrest⟩ := hs.exists_next (by obtain rfl | rfl := hgoal <;> simp)
      have hoperators : Stacked (.operators :: next :: rest) := by
        obtain rfl | rfl := hgoal <;> exact ⟨hnext, hrest⟩
      exact (leave_operand (by simp) hoperators behind).trans (ih behind)
    rw [completion_cons]
    cases goal with
    | operators => exact (leave_operand (by simp) hs behind).trans (ih behind)
    | call => exact (leave_operand (by simp) hs behind).trans (ih behind)
    | alternative => exact (leave_operand (by simp) hs behind).trans (ih behind)
    | expression => exact recognise_completion rfl rfl rfl (hoperators (.inl rfl) _)
    | initial =>
      have hassign : recognise (.initial :: goals) ⟨behind, Goal.initial.completion ++ completion goals⟩ =
        recognise (.expression :: goals) ⟨⟨.operator, "=", .start⟩ :: behind,
          Goal.expression.completion ++ completion goals⟩ := rfl
      rw [hassign]
      exact recognise_completion rfl rfl rfl (hoperators (.inr rfl) _)
    | items kind => exact recognise_completion rfl rfl rfl (ih _)
    | moreItems kind => exact recognise_completion rfl rfl rfl (ih _)
    | spelling text =>
      have htext : Token.is ⟨.punctuation, text, .start⟩ text = true := by simp [Token.is]
      exact recognise_completion rfl (if_pos htext) rfl (ih _)
    | keyword word =>
      have hword : Token.isKeyword ⟨.keyword word, word.text, .start⟩ word = true := by
        simp [Token.isKeyword]
      exact recognise_completion rfl (if_pos hword) rfl (ih _)
    | identifier => exact recognise_completion rfl rfl rfl (ih _)
    | typeName => exact recognise_completion rfl rfl rfl (ih _)
    | returned =>
      have hsemicolon : (firstToken goals).is ";" = true := by
        obtain ⟨next, rest, rfl, hnext, -⟩ := hs.exists_next (by simp)
        obtain hnext | hnext := Bool.or_eq_true_iff.1 hnext <;> cases of_decide_eq_true hnext <;> rfl
      rw [← peek_completion behind] at hsemicolon
      have hreact : Goal.react .returned behind.head? (Cursor.peek ⟨behind, completion goals⟩) = .leave :=
        if_pos (by rw [hsemicolon]; rfl)
      exact (recognise_leave (c := ⟨behind, completion goals⟩) hreact).trans (ih behind)
    | afterStatement enclosure isReturn =>
      refine recognise_completion rfl rfl rfl ?_
      cases isReturn with
      | false => exact ih _
      | true =>
        obtain ⟨next, rest, rfl, hnext, hrest⟩ := hs.exists_next (by simp)
        cases of_decide_eq_true hnext
        exact (leave_closing hrest _).trans (ih _)
    | closing enclosure =>
      obtain ⟨next, rest, rfl, hnext, hrest⟩ := hs.exists_next (by simp)
      cases of_decide_eq_true hnext
      exact (leave_closing hrest _).trans (ih _)
    | statements enclosure =>
      have hclosed := closed_firstToken hs
      rw [firstToken_cons _ rfl, ← peek_completion behind] at hclosed
      have hreact : Goal.react (.statements enclosure) behind.head?
          (Cursor.peek ⟨behind, completion goals⟩) = .leave := if_pos hclosed
      exact (recognise_leave (c := ⟨behind, completion goals⟩) hreact).trans (ih behind)

/-! ## Refusals -/

/-- Where goals are not met there is a token that the machine refuses, whatever stands behind it, and the
tokens before it can be completed. -/
theorem refuses {fault : Fault ParseError} : ∀ {goals : List Goal} {behind ahead : List Token},
    Stacked goals → (∃ t ∈ ahead, t.isStop = true) → recogniseFrom goals behind ahead = .error fault →
      ∃ before t after, ahead = before ++ t :: after ∧ fault.location? = some t.location ∧
        (∃ rest : List Token, (∀ u ∈ before ++ rest, u.isStop = false) ∧
          recogniseFrom goals behind (before ++ rest ++ [.stop .start]) = .ok ()) ∧
        ∀ rest, recogniseFrom goals behind (before ++ t :: rest) = .error fault
  | goals, behind, t :: ahead, hs, hstop, h => by
    rw [recogniseFrom] at h
    split at h
    -- The first token is refused: what is stacked is completed in its place.
    · rename_i fault' hrespond
      cases h
      refine ⟨[], t, ahead, rfl, respond_refuse hrespond, ⟨goals.flatMap (·.completion), ?_, ?_⟩, ?_⟩
      · intro u hu
        obtain ⟨goal, -, hu⟩ := List.mem_flatMap.1 hu
        exact goal.isStop_of_mem_completion u hu
      · exact completes hs behind
      · intro rest
        rw [List.nil_append, recogniseFrom, hrespond]
    · cases h
    -- It is taken: a later token is refused.
    · rename_i new hrespond
      obtain ⟨ht, hnew⟩ := respond_take hs hrespond
      have hstop : ∃ t ∈ ahead, t.isStop = true := by
        obtain ⟨u, hu, hustop⟩ := hstop
        obtain rfl | hu := List.mem_cons.1 hu
        · rw [ht] at hustop; cases hustop
        · exact ⟨u, hu, hustop⟩
      obtain ⟨before, u, after, rfl, hlocation, ⟨rest, hrest, hok⟩, hall⟩ := refuses hnew hstop h
      refine ⟨t :: before, u, after, rfl, hlocation, ⟨rest, List.forall_mem_cons.2 ⟨ht, hrest⟩, ?_⟩,
        fun rest => ?_⟩
      · rw [List.cons_append, List.cons_append, recogniseFrom, hrespond]
        exact hok
      · rw [List.cons_append, recogniseFrom, hrespond]
        exact hall rest

end Exprc.Syntax

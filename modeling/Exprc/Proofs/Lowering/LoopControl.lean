/-
When lowering fails. The checker leaves one thing to the lowering: that a `break` or `continue` is in
the body of a loop. A module that was checked can be lowered if all of them are, and otherwise the first
one that is not is to blame. `misplaced?` finds it; here it is found in the list of all loop controls.
-/
import Exprc.Proofs.Lowering.Module

namespace Exprc

namespace Syntax

/-! ## The first misplaced loop control -/

/-- The first of some loop controls that is not in the body of a loop. -/
def firstOutside (cs : List ControlUse) : Option (Location × LoopControl) :=
  (cs.find? (!·.inLoop)).map fun c => (c.location, c.control)

theorem firstOutside_append (cs ds : List ControlUse) :
    firstOutside (cs ++ ds) = (firstOutside cs).or (firstOutside ds) := by
  rw [firstOutside, List.find?_append, Option.map_or]
  rfl

theorem firstOutside_eq_none {cs : List ControlUse} :
    firstOutside cs = none ↔ ∀ c ∈ cs, c.inLoop = true := by
  simp [firstOutside]

theorem firstOutside_eq_some {cs : List ControlUse} {p : Location × LoopControl}
    (h : firstOutside cs = some p) :
    ∃ before c after, cs = before ++ c :: after ∧ (∀ d ∈ before, d.inLoop = true) ∧
      c.inLoop = false ∧ p = (c.location, c.control) := by
  obtain ⟨c, hc, rfl⟩ := Option.map_eq_some_iff.1 h
  obtain ⟨hout, before, after, rfl, hbefore⟩ := List.find?_eq_some_iff_append.1 hc
  exact ⟨before, c, after, rfl, by simpa using hbefore, by simpa using hout, rfl⟩

/-- Whether all assignments in some expressions are to variables. -/
def AssignsVariables (es : List Expr) : Prop :=
  ∀ e ∈ es, ∀ n l target value, e = .assign n l target value → Typing.isVariable target = true

theorem AssignsVariables.append {es es' : List Expr} :
    AssignsVariables (es ++ es') ↔ AssignsVariables es ∧ AssignsVariables es' :=
  List.forall_mem_append

theorem AssignsVariables.tail {e : Expr} {es : List Expr} (h : AssignsVariables (e :: es)) :
    AssignsVariables es :=
  (List.forall_mem_cons.1 h).2

namespace Expr

mutual

/-- The first misplaced loop control of an expression is the first in the order of evaluation. -/
theorem misplaced?_eq : ∀ (l : Bool) (e : Expr), AssignsVariables e.subexpressions →
    e.misplaced? l = firstOutside (e.controls l)
  | _, int .., _ | _, bool .., _ | _, unit .., _ | _, name .., _ | _, leave .., _ => rfl
  | l, control n c, _ => by cases l <;> rfl
  | l, unary _ _ e, h | l, declare _ _ _ e, h | l, leaveWith _ e, h => misplaced?_eq l e h.tail
  | l, binary _ _ _ lhs rhs, h => by
    obtain ⟨hl, hr⟩ := AssignsVariables.append.1 h.tail
    rw [misplaced?, controls, firstOutside_append, misplaced?_eq l lhs hl, misplaced?_eq l rhs hr]
  | l, assign n pos target value, h => by
    obtain ⟨-, hv⟩ := AssignsVariables.append.1 h.tail
    -- a target that is a variable has no loop controls
    obtain ⟨n', x, rfl⟩ := Typing.isVariable_iff.1 (h _ List.mem_cons_self n pos target value rfl)
    exact misplaced?_eq l value hv
  | l, ifThen _ c t, h => by
    obtain ⟨hc, ht⟩ := AssignsVariables.append.1 h.tail
    rw [misplaced?, controls, firstOutside_append, misplaced?_eq l c hc, misplaced?_eq l t ht]
  | l, ifElse _ c t e, h => by
    obtain ⟨hc, hte⟩ := AssignsVariables.append.1 h.tail
    obtain ⟨ht, he⟩ := AssignsVariables.append.1 hte
    rw [misplaced?, controls, firstOutside_append, firstOutside_append, misplaced?_eq l c hc,
      misplaced?_eq l t ht, misplaced?_eq l e he]
  | l, loop _ c b, h => by
    obtain ⟨hc, hb⟩ := AssignsVariables.append.1 h.tail
    rw [misplaced?, controls, firstOutside_append, misplaced?_eq l c hc, misplaced?_eq true b hb]
  | l, block _ es, h | l, call _ _ es, h => misplacedAmong?_eq l es h.tail

theorem misplacedAmong?_eq : ∀ (l : Bool) (es : List Expr), AssignsVariables (allSubexpressions es) →
    misplacedAmong? l es = firstOutside (allControls l es)
  | _, [], _ => rfl
  | l, e :: es, h => by
    obtain ⟨he, hes⟩ := AssignsVariables.append.1 h
    rw [misplacedAmong?, allControls, firstOutside_append, misplaced?_eq l e he,
      misplacedAmong?_eq l es hes]

end

mutual

/-- Types in notes make no difference to loop controls. -/
theorem misplaced?_untyped : ∀ (l : Bool) (e : Expr), e.untyped.misplaced? l = e.misplaced? l
  | _, int .. | _, bool .. | _, unit .. | _, name .. | _, leave .. | _, control .. => rfl
  | l, unary _ _ e | l, declare _ _ _ e | l, leaveWith _ e | l, assign _ _ _ e => misplaced?_untyped l e
  | l, binary _ _ _ e e' | l, ifThen _ e e' => by
    rw [untyped, misplaced?, misplaced?, misplaced?_untyped l e, misplaced?_untyped l e']
  | l, ifElse _ c t e => by
    rw [untyped, misplaced?, misplaced?, misplaced?_untyped l c, misplaced?_untyped l t,
      misplaced?_untyped l e]
  | l, loop _ c b => by
    rw [untyped, misplaced?, misplaced?, misplaced?_untyped l c, misplaced?_untyped true b]
  | l, block _ es | l, call _ _ es => misplacedAmong?_untyped l es

theorem misplacedAmong?_untyped : ∀ (l : Bool) (es : List Expr),
    misplacedAmong? l (allUntyped es) = misplacedAmong? l es
  | _, [] => rfl
  | l, e :: es => by
    rw [allUntyped, misplacedAmong?, misplacedAmong?, misplaced?_untyped l e,
      misplacedAmong?_untyped l es]

end

end Expr

theorem Module.misplaced?_eq {m : Module} (h : AssignsVariables m.subexpressions) :
    m.misplaced? = firstOutside m.controls := by
  obtain ⟨hfs, hbody⟩ := AssignsVariables.append.1 h
  rw [misplaced?, controls, firstOutside_append, Expr.misplaced?_eq false m.body hbody]
  congr 1
  generalize m.functions = fs at hfs
  induction fs with
  | nil => rfl
  | cons f fs ih =>
    rw [List.flatMap_cons] at hfs
    obtain ⟨hf, hfs⟩ := AssignsVariables.append.1 hfs
    rw [List.flatMap_cons, firstOutside_append, ← ih hfs, Lowering.findSome?_cons,
      Expr.misplaced?_eq false f.body hf]

theorem Module.misplaced?_untyped (m : Module) : m.untyped.misplaced? = m.misplaced? := by
  unfold misplaced? untyped
  rw [Expr.misplaced?_untyped, List.findSome?_map]
  simp only [Function.comp_def, FunctionDefinition.untyped, Expr.misplaced?_untyped]

end Syntax

namespace Lowering

open Syntax Typing

/-! ## Checked modules -/

/-- Only variables can be assigned to. -/
theorem accepted_assignsVariables {es : List Expr} (h : ∀ e ∈ es, Accepted e) : AssignsVariables es := by
  rintro e he n l target value rfl
  obtain ⟨ρ?, s, τ, hok⟩ := h _ he
  rw [checkExpr] at hok
  split at hok
  · assumption
  · cases hok

/-- A program whose loop is left in its body, and that goes on in the condition of another one:
`while true do break; while continue do 1`. -/
def straying : Syntax.Module :=
  let n : Note := ⟨⟨1, 1⟩, none⟩
  ⟨⟨1, 1⟩, [], .block n
    [.loop n (.bool n true) (.control n .exit),
      .loop n (.block n [.control ⟨⟨1, 29⟩, none⟩ .next, .bool n true]) (.int n 1)]⟩

end Lowering

end Exprc

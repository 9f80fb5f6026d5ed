/-
Which variables have a value where control is. A `var` may stand where control need not come by: in a
branch, in a loop, or in a right operand that is skipped. The variable that it declares is in scope
behind it all the same, and has no value yet if control came another way. Here the ways through an
expression are followed, and each variable in scope is marked as long as it has a value on all ways.
-/
import Exprc.Proofs.Lowering.Module

namespace Exprc.Syntax

/-! ## Marks -/

/-- The variables in scope, the innermost first: the name of each, and whether it has a value. -/
abbrev Marks := List (String × Bool)

namespace Marks

/-- Whether the variable that a name stands for has a value. -/
def has (x : String) : Marks → Bool
  | [] => false
  | (y, value) :: rest => if y = x then value else has x rest

/-- The variable that a name stands for gets a value. -/
def assign (x : String) : Marks → Marks
  | [] => []
  | (y, value) :: rest => if y = x then (y, true) :: rest else (y, value) :: assign x rest

/-- The same for a name that was looked up before the innermost variables were declared. -/
def assignBelow (innermost : Nat) (x : String) (marks : Marks) : Marks :=
  marks.take innermost ++ assign x (marks.drop innermost)

/-- Control passes by the declarations of some names, the last of which comes first. -/
def skip (names : List String) (marks : Marks) : Marks := names.map (·, false) ++ marks

/-- What is so on both of two ways to a place. -/
def meet (a b : Marks) : Marks := List.zipWith (fun p q => (p.1, p.2 && q.2)) a b

/-- The names of variables. -/
def names (marks : Marks) : List String := marks.map (·.1)

@[simp] theorem names_assign (x : String) (marks : Marks) :
    names (assign x marks) = names marks := by
  induction marks with
  | nil => rfl
  | cons p rest ih =>
    obtain ⟨y, value⟩ := p
    by_cases h : y = x
    · rw [assign, if_pos h]; rfl
    · rw [assign, if_neg h]; exact congrArg (y :: ·) ih

@[simp] theorem names_assignBelow (innermost : Nat) (x : String) (marks : Marks) :
    names (assignBelow innermost x marks) = names marks := by
  have h := names_assign x (marks.drop innermost)
  simp only [names] at h ⊢
  rw [assignBelow, List.map_append, h, ← List.map_append, List.take_append_drop]

@[simp] theorem names_skip (xs : List String) (marks : Marks) :
    names (skip xs marks) = xs ++ names marks := by
  simp [names, skip, Function.comp_def]

theorem names_meet {a b : Marks} (h : a.names = b.names) : (a.meet b).names = a.names := by
  induction a generalizing b with
  | nil => rfl
  | cons p a ih =>
    cases b with
    | nil => cases h
    | cons q b => exact congrArg (p.1 :: ·) (ih (List.cons.inj h).2)

end Marks

/-- What is known where control is, or nothing at a place that control does not get to. -/
abbrev Flow := Option Marks

namespace Flow

/-- What is known at a place that two ways lead to. -/
def meet : Flow → Flow → Flow
  | none, ψ => ψ
  | φ, none => φ
  | some a, some b => some (a.meet b)

/-- What is known behind declarations that control passes by. -/
def skip (φ : Flow) (names : List String) : Flow := φ.map (·.skip names)

end Flow

/-! ## Expressions -/

namespace Expr

mutual

/-- The names that an expression declares in the block it stands in, the last one first. -/
def declares : Expr → List String
  | int .. | bool .. | unit .. | name .. | block .. | control .. | leave .. => []
  | unary _ _ e | assign _ _ _ e | leaveWith _ e => declares e
  | binary _ _ _ lhs rhs => declares rhs ++ declares lhs
  | ifThen _ c t => declares t ++ declares c
  | ifElse _ c t e => declares e ++ (declares t ++ declares c)
  | loop _ c b => declares b ++ declares c
  | declare _ x _ e => x.text :: declares e
  | call _ _ es => allDeclare es

/-- The names that expressions in order declare in the block they stand in, the last one first. -/
def allDeclare : List Expr → List String
  | [] => []
  | e :: es => allDeclare es ++ declares e

end

mutual

/-- What is known behind an expression. Behind a loop control or a return control is not. -/
def after : Expr → Flow → Flow
  | int .., φ | bool .., φ | unit .., φ | name .., φ => φ
  | unary _ _ e, φ => after e φ
  | binary _ op _ lhs rhs, φ =>
    let ψ := after lhs φ
    if op.isShortCircuit then (ψ.skip (declares rhs)).meet (after rhs ψ) else after rhs ψ
  | assign _ _ (name _ x) value, φ =>
    (after value φ).map (·.assignBelow (declares value).length x)
  | assign _ _ _ value, φ => after value φ
  | ifThen _ c t, φ => let ψ := after c φ; (ψ.skip (declares t)).meet (after t ψ)
  | ifElse _ c t e, φ =>
    let ψ := after c φ
    ((after t ψ).skip (declares e)).meet (after e (ψ.skip (declares t)))
  | loop _ c b, φ => (after c φ).skip (declares b)
  | block _ es, φ => (afterAll es φ).map (·.drop (allDeclare es).length)
  | declare _ x _ e, φ => (after e φ).map ((x.text, true) :: ·)
  | call _ _ es, φ => afterAll es φ
  | control .., _ | leave .., _ | leaveWith .., _ => none

/-- What is known behind expressions in order. -/
def afterAll : List Expr → Flow → Flow
  | [], φ => φ
  | e :: es, φ => afterAll es (after e φ)

end

mutual

/-- Whether each name in an expression stands for a variable that has a value on all ways there. -/
def readsAssigned : Expr → Flow → Bool
  | int .., _ | bool .., _ | unit .., _ | control .., _ | leave .., _ => true
  | name _ x, φ => φ.all (·.has x)
  | unary _ _ e, φ | assign _ _ _ e, φ | declare _ _ _ e, φ | leaveWith _ e, φ => readsAssigned e φ
  | binary _ _ _ lhs rhs, φ => readsAssigned lhs φ && readsAssigned rhs (after lhs φ)
  | ifThen _ c t, φ => readsAssigned c φ && readsAssigned t (after c φ)
  | ifElse _ c t e, φ =>
    readsAssigned c φ && readsAssigned t (after c φ) &&
      readsAssigned e ((after c φ).skip (declares t))
  | loop _ c b, φ => readsAssigned c φ && readsAssigned b (after c φ)
  | block _ es, φ | call _ _ es, φ => allReadAssigned es φ

/-- Whether this holds of expressions in order. -/
def allReadAssigned : List Expr → Flow → Bool
  | [], _ => true
  | e :: es, φ => readsAssigned e φ && allReadAssigned es (after e φ)

end

end Expr

/-! ## The variables in scope -/

namespace Flow

/-- Of which variables something is known, if control is there at all. -/
def Knows (φ : Flow) (xs : List String) : Prop := ∀ marks, φ = some marks → marks.names = xs

variable {φ ψ : Flow} {xs : List String}

theorem Knows.skip (h : φ.Knows xs) (names : List String) : (φ.skip names).Knows (names ++ xs) := by
  intro marks hm
  obtain ⟨a, rfl, rfl⟩ := Option.map_eq_some_iff.1 hm
  rw [Marks.names_skip, h a rfl]

theorem Knows.meet (h : φ.Knows xs) (h' : ψ.Knows xs) : (φ.meet ψ).Knows xs := by
  intro marks hm
  cases φ with
  | none => exact h' marks hm
  | some a =>
    cases ψ with
    | none => exact h marks hm
    | some b =>
      obtain rfl := Option.some.inj hm
      rw [Marks.names_meet ((h a rfl).trans (h' b rfl).symm), h a rfl]

end Flow

namespace Expr

mutual

/-- Behind an expression the variables that it declares are in scope besides those before it. -/
theorem after_knows : ∀ (e : Expr) {φ : Flow} {xs : List String}, φ.Knows xs →
    (e.after φ).Knows (e.declares ++ xs)
  | int .., _, _, h | bool .., _, _, h | unit .., _, _, h | name .., _, _, h => by
    simpa only [after, declares, List.nil_append] using h
  | unary _ _ e, _, _, h => by
    simpa only [after, declares] using after_knows e h
  | binary _ op _ lhs rhs, _, _, h => by
    have h₁ := after_knows lhs h
    have h₂ := after_knows rhs h₁
    simp only [after, declares, List.append_assoc]
    split
    · exact (h₁.skip _).meet h₂
    · exact h₂
  | assign _ _ target value, φ, xs, h => by
    have hv := after_knows value h
    cases target
    case name _ x =>
      simp only [after, declares]
      intro marks hm
      obtain ⟨a, ha, rfl⟩ := Option.map_eq_some_iff.1 hm
      rw [Marks.names_assignBelow, hv a ha]
    all_goals simpa only [after, declares] using hv
  | ifThen _ c t, _, _, h => by
    have h₁ := after_knows c h
    simp only [after, declares, List.append_assoc]
    exact (h₁.skip _).meet (after_knows t h₁)
  | ifElse _ c t e, _, _, h => by
    have h₁ := after_knows c h
    simp only [after, declares, List.append_assoc]
    exact ((after_knows t h₁).skip _).meet (after_knows e (h₁.skip _))
  | loop _ c b, _, _, h => by
    simp only [after, declares, List.append_assoc]
    exact (after_knows c h).skip _
  | block _ es, _, xs, h => by
    simp only [after, declares, List.nil_append]
    intro marks hm
    obtain ⟨a, ha, rfl⟩ := Option.map_eq_some_iff.1 hm
    have hs := afterAll_knows es h a ha
    rw [Marks.names] at hs ⊢
    rw [List.map_drop, hs, List.drop_left]
  | declare _ x _ e, _, _, h => by
    simp only [after, declares]
    intro marks hm
    obtain ⟨a, ha, rfl⟩ := Option.map_eq_some_iff.1 hm
    exact congrArg (x.text :: ·) (after_knows e h a ha)
  | call _ _ es, _, _, h => by
    simpa only [after, declares] using afterAll_knows es h
  | control .., _, _, _ | leave .., _, _, _ | leaveWith .., _, _, _ => by
    simp only [after]
    exact nofun

theorem afterAll_knows : ∀ (es : List Expr) {φ : Flow} {xs : List String}, φ.Knows xs →
    (afterAll es φ).Knows (allDeclare es ++ xs)
  | [], _, _, h => by simpa only [afterAll, allDeclare, List.nil_append] using h
  | e :: es, _, _, h => by
    simp only [afterAll, allDeclare, List.append_assoc]
    exact afterAll_knows es (after_knows e h)

end

end Expr

end Exprc.Syntax

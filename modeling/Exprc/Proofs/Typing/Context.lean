/-
What the scopes of the checker hold. The rules know the variables in scope as a context, and what else
can be called by its name; the checker has both in one chain of scopes. As long as the chain holds a
context (`Holds`), the questions that the checker asks about names have the answers of the rules.
-/
import Exprc.Proofs.Typing.Rules
import Exprc.Proofs.Typing.Success

namespace Exprc

namespace Typing

open Syntax

/-! ## Operators -/

theorem operatorResult_iff {b : Builtin} {σ : Signature} (h : b.signature? = some σ) {τs : List Ty}
    {υ : Ty} : operatorResult b τs = .ok υ ↔ τs = σ.parameters ∧ υ = σ.result := by
  simp only [operatorResult, h]
  split
  · rename_i hp; simp [hp, eq_comm]
  · rename_i hp; simp [Ne.symm hp]

theorem operatorResult_equality {b : Builtin} (h : b.signature? = none) {τ₁ τ₂ υ : Ty} :
    operatorResult b [τ₁, τ₂] = .ok υ ↔ τ₁ = τ₂ ∧ (τ₁ = .int ∨ τ₁ = .bool) ∧ υ = .bool := by
  have hsupports : τ₁.supportsEquality = true ↔ τ₁ = .int ∨ τ₁ = .bool := by
    cases τ₁ <;> simp [Ty.supportsEquality]
  simp only [operatorResult, h, hsupports]
  split
  · rename_i hp
    obtain ⟨rfl, hτ⟩ := hp
    simp [hτ, eq_comm]
  · rename_i hp
    constructor
    · intro he; cases he
    · rintro ⟨h₁, h₂, -⟩
      exact absurd ⟨h₁, h₂⟩ hp

/-- The checker knows the types of unary operators. -/
theorem operatorResult_unary {op : UnaryOp} {τ υ : Ty} :
    operatorResult op.builtin [τ] = .ok υ ↔ op.HasType τ υ := by
  constructor
  · intro h
    cases op with
    | negate =>
      obtain ⟨hτ, rfl⟩ := (operatorResult_iff rfl).1 h
      cases hτ
      exact .negate
    | logicalNot =>
      obtain ⟨hτ, rfl⟩ := (operatorResult_iff rfl).1 h
      cases hτ
      exact .logicalNot
  · rintro (_ | _) <;> rfl

/-- The checker knows the types of binary operators. -/
theorem operatorResult_binary {op : BinaryOp} {τ₁ τ₂ υ : Ty} :
    operatorResult op.builtin [τ₁, τ₂] = .ok υ ↔ op.HasType τ₁ τ₂ υ := by
  constructor
  · intro h
    cases op
    case equals | notEquals =>
      obtain ⟨rfl, hτ, rfl⟩ := (operatorResult_equality rfl).1 h
      exact .equality (by decide) hτ
    case add | subtract | multiply | divide | modulus =>
      obtain ⟨hτ, rfl⟩ := (operatorResult_iff rfl).1 h
      cases hτ
      exact .arithmetic (by decide)
    case logicalAnd | logicalOr =>
      obtain ⟨hτ, rfl⟩ := (operatorResult_iff rfl).1 h
      cases hτ
      exact .logical (by decide)
    case lessThan | lessThanOrEqual | greaterThan | greaterThanOrEqual =>
      obtain ⟨hτ, rfl⟩ := (operatorResult_iff rfl).1 h
      cases hτ
      exact .relational (by decide)
  · intro h
    cases h with
    | arithmetic hop | relational hop | logical hop =>
      simp only [List.mem_cons, List.not_mem_nil, or_false] at hop
      rcases hop with rfl | rfl | rfl | rfl | rfl <;> rfl
    | equality hop hτ =>
      simp only [List.mem_cons, List.not_mem_nil, or_false] at hop
      rcases hop with rfl | rfl <;> exact (operatorResult_equality rfl).2 ⟨rfl, hτ, rfl⟩

/-! ## Names -/

/-- What names stand for in the outermost scope, where functions are declared: they can be called as
`callable` says, and are no variables. -/
structure Root (callable : String → Signature → Prop) (root : List (String × Binding Ty)) : Prop where
  callee : ∀ x σ, calleeSignature x (root.lookup x) = .ok σ ↔ callable x σ
  not_variable : ∀ x τ, variableType x (root.lookup x) ≠ .ok τ
  result_isData : ∀ x σ, callable x σ → σ.result.isData = true

/-- Scopes hold a context, and below it what the outermost scope holds. -/
structure Holds (root : List (String × Binding Ty)) (Γ : Stack Ty) (s : Scopes) : Prop where
  stack : s.stack = (Γ.map fun frame => frame.map fun p => (p.1, .value p.2)) ++ [root]
  isData : ∀ frame ∈ Γ, ∀ p ∈ frame, p.2.isData = true

theorem lookup_map_value (frame : List (String × Ty)) (x : String) :
    (frame.map fun p => (p.1, Binding.value p.2)).lookup x = (frame.lookup x).map .value := by
  induction frame with
  | nil => rfl
  | cons p frame ih =>
    obtain ⟨y, τ⟩ := p
    simp only [List.map_cons, List.lookup_cons]
    cases x == y with
    | true => rfl
    | false => exact ih

namespace Holds

variable {callable : String → Signature → Prop} {root : List (String × Binding Ty)} {Γ : Stack Ty}
  {s : Scopes}

theorem resolve (h : Holds root Γ s) (x : String) :
    s.resolve? x = ((Γ.find? x).map .value).or (root.lookup x) := by
  rw [s.resolve?_eq, h.stack]
  clear h
  induction Γ with
  | nil => simp [Stack.find?_nil, Stack.find?_cons]
  | cons frame Γ ih =>
    rw [List.map_cons, List.cons_append, Stack.find?_cons, Stack.find?_cons, ih, lookup_map_value,
      Option.map_or, Option.or_assoc]

theorem find?_isData (h : Holds root Γ s) {x : String} {τ : Ty} (hx : Γ.find? x = some τ) :
    τ.isData = true := by
  obtain ⟨frame, hf, hl⟩ := List.exists_of_findSome?_eq_some hx
  obtain ⟨k, hk⟩ : ∃ k, (k, τ) ∈ frame := by
    obtain ⟨l₁, l₂, rfl, -⟩ := List.lookup_eq_some_iff.1 hl
    exact ⟨x, by simp⟩
  exact h.isData frame hf _ hk

/-- What the checker takes for a variable is one. -/
theorem variableType_iff (hR : Root callable root) (h : Holds root Γ s) {x : String} {τ : Ty} :
    variableType x (s.resolve? x) = .ok τ ↔ Γ.find? x = some τ := by
  rw [h.resolve]
  cases hx : Γ.find? x with
  | none =>
    rw [Option.map_none, Option.none_or]
    exact ⟨fun hτ => absurd hτ (hR.not_variable x τ), nofun⟩
  | some υ =>
    have hd := h.find?_isData hx
    rw [Option.map_some, Option.some_or, Option.some_inj]
    cases υ with
    | function => cases hd
    | _ => simp [variableType]

/-- What the checker takes for a callee can be called, and is no variable. -/
theorem calleeSignature_iff (hR : Root callable root) (h : Holds root Γ s) {x : String}
    {σ : Signature} :
    calleeSignature x (s.resolve? x) = .ok σ ↔ Γ.find? x = none ∧ callable x σ := by
  rw [h.resolve]
  cases hx : Γ.find? x with
  | none =>
    rw [Option.map_none, Option.none_or, hR.callee]
    exact ⟨fun hc => ⟨rfl, hc⟩, fun hc => hc.2⟩
  | some υ =>
    have hd := h.find?_isData hx
    rw [Option.map_some, Option.some_or]
    cases υ with
    | function => cases hd
    | _ => simp [calleeSignature]

/-! ## Blocks and declarations -/

theorem push (h : Holds root Γ s) : Holds root ([] :: Γ) s.push :=
  ⟨by rw [ScopeChain.stack_push, h.stack]; rfl, List.forall_mem_cons.2 ⟨nofun, h.isData⟩⟩

theorem close {frame : List (String × Ty)} (h : Holds root (frame :: Γ) s) : Holds root Γ s.close := by
  refine ⟨?_, (List.forall_mem_cons.1 h.isData).2⟩
  cases Γ with
  | nil => exact ScopeChain.stack_close h.stack
  | cons frame' Γ => exact ScopeChain.stack_close h.stack

/-- A name can be declared if its block does not have it yet. -/
theorem declare {frame : List (String × Ty)} {x : String} {τ : Ty} (h : Holds root (frame :: Γ) s)
    (hx : frame.lookup x = none) (hτ : τ.isData = true) :
    ∃ s', s.declare? x (.value τ) = some s' ∧ Holds root (((x, τ) :: frame) :: Γ) s' := by
  have hdata := List.forall_mem_cons.1 h.isData
  cases hd : s.declare? x (.value τ) with
  | none =>
    obtain ⟨f, below, hs, hf⟩ := ScopeChain.declare?_eq_none hd
    obtain ⟨rfl, -⟩ := List.cons.inj (hs.symm.trans h.stack)
    rw [lookup_map_value, hx] at hf
    cases hf
  | some s' =>
    obtain ⟨f, below, hs, -, hs'⟩ := ScopeChain.declare?_eq_some hd
    obtain ⟨rfl, rfl⟩ := List.cons.inj (hs.symm.trans h.stack)
    exact ⟨s', rfl, hs', List.forall_mem_cons.2 ⟨List.forall_mem_cons.2 ⟨hτ, hdata.1⟩, hdata.2⟩⟩

/-- A name that the checker declares is new in its block. -/
theorem declare_inv {frame : List (String × Ty)} {x : String} {τ : Ty} {s' : Scopes}
    (h : Holds root (frame :: Γ) s) (hτ : τ.isData = true)
    (hd : s.declare? x (.value τ) = some s') :
    frame.lookup x = none ∧ Holds root (((x, τ) :: frame) :: Γ) s' := by
  obtain ⟨f, below, hs, hf, -⟩ := ScopeChain.declare?_eq_some hd
  obtain ⟨rfl, -⟩ := List.cons.inj (hs.symm.trans h.stack)
  have hx : frame.lookup x = none := by rwa [lookup_map_value, Option.map_eq_none_iff] at hf
  obtain ⟨s'', hd', hs'⟩ := h.declare hx hτ
  obtain rfl : s' = s'' := Option.some.inj (hd.symm.trans hd')
  exact ⟨hx, hs'⟩

end Holds

end Typing

end Exprc

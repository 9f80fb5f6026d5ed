/-
The types of values, and what frames hold. An operator that the checker allows on the types of its
operands gives a value of the type that the checker says, or fails in one of the ways in which a
computation may fail.
-/
import Exprc.IR.Machine
import Exprc.Typing.Checker
import Mathlib

namespace Exprc.IR

open Typing

/-! ## Types of values -/

/-- The type of a value. -/
def Value.ty : Value → Ty
  | int _ => .int
  | bool _ => .bool
  | unit => .unit

namespace Value

variable {v : Value}

theorem ty_eq_int : v.ty = .int ↔ ∃ n, v = .int n := by
  cases v <;> simp [ty]

theorem ty_eq_bool : v.ty = .bool ↔ ∃ b, v = .bool b := by
  cases v <;> simp [ty]

theorem ty_eq_unit : v.ty = .unit ↔ v = .unit := by
  cases v <;> simp [ty]

end Value

/-! ## Failures -/

/-- Whether a failure is one of a computation and not of the program: a division by zero, too many
calls, something wrong with what is read or written, or a variable without a value. -/
def RuntimeError.isComputational : RuntimeError → Bool
  | divisionByZero | stackOverflow _ | endOfInput | unreadable | notInteger _ | writeFailed _
  | flushFailed _ | unassigned _ => true
  | noEntryPoint | notBool .. | undefinedLabel _ | notFunction _ | unknownFunction _ | wrongCount ..
  | inapplicable .. => false

theorem integerOfLine_error {line : List UInt8} {cause : RuntimeError}
    (h : integerOfLine line = .error cause) : cause.isComputational = true := by
  unfold integerOfLine at h
  split at h
  · cases h; rfl
  · split at h
    · cases h; rfl
    · dsimp only at h
      split at h
      · cases h
      · cases h; rfl

/-! ## Built-in functions -/

/-- A result of some type, or a failure of the computation. -/
def Sound (τ : Ty) : Except RuntimeError Value → Prop
  | .ok v => v.ty = τ
  | .error cause => cause.isComputational = true

theorem World.print_sound (w : World) (sink : Sink) (v : Value) :
    Sound .unit (w.print sink v).1 := by
  unfold print
  dsimp only
  split <;> rfl

theorem World.readInt_sound (w : World) : Sound .int (w.readInt.1.map .int) := by
  unfold readInt
  dsimp only
  cases h : integerOfLine (splitLine w.input).1 with
  | ok n => exact Value.ty_eq_int.2 ⟨n, rfl⟩
  | error cause => exact integerOfLine_error h

theorem operatorResult_ok {b : Builtin} {τs : List Ty} {τ : Ty}
    (h : operatorResult b τs = .ok τ) :
    b.signature? = some ⟨τs, τ⟩ ∨
      (b = .equals ∨ b = .notEquals) ∧ τ = .bool ∧ ∃ υ : Ty, τs = [υ, υ] ∧ υ.supportsEquality := by
  unfold operatorResult at h
  split at h
  · rename_i σ hσ
    split at h
    · rename_i hp; cases h; exact .inl (hσ.trans (by rw [← hp]))
    · cases h
  · rename_i left right hσ
    split at h
    · rename_i hp
      cases h
      refine .inr ⟨?_, rfl, left, by rw [hp.1], hp.2⟩
      cases b <;> simp [Builtin.signature?, Builtin.kind] at hσ <;> simp
    · cases h
  · cases h

theorem operatorResult_of_signature {b : Builtin} {σ : Signature} (h : b.signature? = some σ) :
    operatorResult b σ.parameters = .ok σ.result := by
  unfold operatorResult
  rw [h]
  exact if_pos rfl

/-- A built-in function on operands that the checker allows. -/
theorem World.callBuiltin_sound {b : Builtin} {τs : List Ty} {τ : Ty}
    (h : operatorResult b τs = .ok τ) {vs : List Value} (hvs : vs.map Value.ty = τs) (w : World)
    (sink : Sink) : Sound τ (w.callBuiltin sink b vs).1 := by
  rcases operatorResult_ok h with hσ | ⟨hb, rfl, υ, rfl, -⟩
  · cases b <;> simp only [Builtin.signature?, Builtin.kind, Option.some.injEq, Signature.mk.injEq,
      reduceCtorEq] at hσ <;> obtain ⟨rfl, rfl⟩ := hσ <;>
      simp only [List.map_eq_cons_iff, List.map_eq_nil_iff, Value.ty_eq_int, Value.ty_eq_bool] at hvs
    case readInt => subst hvs; exact w.readInt_sound
    case printInt => obtain ⟨_, _, rfl, ⟨n, rfl⟩, rfl⟩ := hvs; exact w.print_sound sink _
    case printBool => obtain ⟨_, _, rfl, ⟨n, rfl⟩, rfl⟩ := hvs; exact w.print_sound sink _
    case negate => obtain ⟨_, _, rfl, ⟨n, rfl⟩, rfl⟩ := hvs; rfl
    case logicalNot => obtain ⟨_, _, rfl, ⟨n, rfl⟩, rfl⟩ := hvs; rfl
    case divide | modulus =>
      obtain ⟨_, _, rfl, ⟨a, rfl⟩, _, _, rfl, ⟨c, rfl⟩, rfl⟩ := hvs
      simp only [callBuiltin, operate]
      split <;> rfl
    all_goals obtain ⟨_, _, rfl, ⟨a, rfl⟩, _, _, rfl, ⟨c, rfl⟩, rfl⟩ := hvs; rfl
  · simp only [List.map_eq_cons_iff, List.map_eq_nil_iff] at hvs
    obtain ⟨_, _, rfl, -, _, _, rfl, -, rfl⟩ := hvs
    rcases hb with rfl | rfl <;> rfl

end Exprc.IR

/-
What a successful check has done. Each combinator of the checker, and each thing that the checker
demands, has an inversion lemma: from the success of the whole it gives the success of the parts, and
with them the tree and the scopes that the whole leaves behind.
-/
import Exprc.Typing.Checker
import Mathlib

namespace Exprc

/-! ## Types of values -/

/-- Whether a type is one that values can have. -/
def Ty.isData : Ty → Bool
  | .function .. => false
  | _ => true

theorem Syntax.TypeName.isData (t : Syntax.TypeName) : t.ty.isData = true := by cases t <;> rfl

namespace Typing

open Syntax

/-! ## Combinators -/

namespace Checker

variable {α β γ δ : Type}

theorem andThen_ok {part : Checker α γ} {rebuild : α → β} {rest : α → γ → Checker β δ}
    {s : Scopes} {d : δ} (h : (part.andThen rebuild rest s).outcome = .ok d) :
    ∃ found, (part s).outcome = .ok found ∧
      part.andThen rebuild rest s = rest (part s).tree found (part s).scopes := by
  unfold andThen at h ⊢
  cases ho : (part s).outcome with
  | error fault => simp [ho] at h
  | ok found => exact ⟨found, rfl, by simp [ho]⟩

theorem ask_ok {tree : α} {question : Scopes → Except (Fault TypeError) δ}
    {rest : δ → Checker α γ} {s : Scopes} {found : γ}
    (h : (ask tree question rest s).outcome = .ok found) :
    ∃ answer, question s = .ok answer ∧ ask tree question rest s = rest answer s := by
  unfold ask at h ⊢
  cases hq : question s with
  | error fault => simp [hq, fail] at h
  | ok answer => exact ⟨answer, rfl, by simp⟩

theorem declaring_ok {tree : α} {name : String} {τ : Ty} {fault : Fault TypeError}
    {rest : Checker α γ} {s : Scopes} {found : γ}
    (h : (declaring tree name τ fault rest s).outcome = .ok found) :
    ∃ s', s.declare? name (.value τ) = some s' ∧
      declaring tree name τ fault rest s = rest s' := by
  unfold declaring at h ⊢
  cases hd : s.declare? name (.value τ) with
  | none => simp [hd, fail] at h
  | some s' => exact ⟨s', rfl, by simp⟩

theorem ensure_ok {c : Checker α γ} {demand : α → γ → Except (Fault TypeError) Unit}
    {s : Scopes} {found : γ} (h : (c.ensure demand s).outcome = .ok found) :
    (c s).outcome = .ok found ∧ demand (c s).tree found = .ok () ∧
      (c.ensure demand s).tree = (c s).tree ∧ (c.ensure demand s).scopes = (c s).scopes := by
  unfold ensure at h ⊢
  cases ho : (c s).outcome with
  | error fault => simp [ho, bind, Except.bind] at h
  | ok g =>
    cases hd : demand (c s).tree g with
    | error fault => simp [ho, hd, bind, Except.bind] at h
    | ok _ =>
      simp only [ho, hd, bind, Except.bind, pure, Except.pure, Except.ok.injEq] at h
      subst h
      exact ⟨rfl, hd, rfl, rfl⟩

theorem inScope_ok {c : Checker α γ} {s : Scopes} {found : γ}
    (h : (inScope c s).outcome = .ok found) :
    (c s.push).outcome = .ok found ∧
      inScope c s = ⟨(c s.push).tree, .ok found, (c s.push).scopes.close⟩ := by
  unfold inScope at h ⊢
  cases ho : (c s.push).outcome with
  | error fault => simp [ho] at h
  | ok g =>
    simp only [ho] at h ⊢
    exact ⟨h, by simp [h]⟩

/-! A check succeeds if its parts do. -/

theorem andThen_run {part : Checker α γ} {rebuild : α → β} {rest : α → γ → Checker β δ} {s : Scopes}
    {found : γ} (h : (part s).outcome = .ok found) :
    part.andThen rebuild rest s = rest (part s).tree found (part s).scopes := by
  simp only [andThen, h]

theorem ask_run {tree : α} {question : Scopes → Except (Fault TypeError) δ} {rest : δ → Checker α γ}
    {s : Scopes} {answer : δ} (h : question s = .ok answer) :
    ask tree question rest s = rest answer s := by
  simp only [ask, h]

theorem declaring_run {tree : α} {name : String} {τ : Ty} {fault : Fault TypeError}
    {rest : Checker α γ} {s s' : Scopes} (h : s.declare? name (.value τ) = some s') :
    declaring tree name τ fault rest s = rest s' := by
  simp only [declaring, h]

theorem ensure_run {c : Checker α γ} {demand : α → γ → Except (Fault TypeError) Unit} {s : Scopes}
    {found : γ} (h : (c s).outcome = .ok found) (hd : demand (c s).tree found = .ok ()) :
    c.ensure demand s = c s := by
  simp only [ensure, h, hd, bind, Except.bind, pure, Except.pure]
  rw [← h]

theorem inScope_run {c : Checker α γ} {s : Scopes} {found : γ} (h : (c s.push).outcome = .ok found) :
    inScope c s = ⟨(c s.push).tree, .ok found, (c s.push).scopes.close⟩ := by
  simp only [inScope, h]

end Checker

open Checker

/-- An expression whose check succeeds carries the type that was found. -/
theorem conclude_ok {build : Note → Expr} {note : Note} {τ υ : Ty} {s : Scopes}
    (h : (conclude build note τ s).outcome = .ok υ) :
    υ = τ ∧ ∃ n : Note, n.ty? = some τ ∧ n.location = note.location ∧
      conclude build note τ s = ⟨build n, .ok τ, s⟩ := by
  unfold conclude at h ⊢
  cases hk : note.ty? with
  | none =>
    simp only [hk, done, Except.ok.injEq] at h ⊢
    exact ⟨h.symm, { note with ty? := some τ }, rfl, rfl, rfl⟩
  | some known =>
    simp only [hk] at h ⊢
    split at h
    · rename_i he
      simp only [done, Except.ok.injEq] at h
      exact ⟨h.symm, note, he ▸ hk, rfl, by simp [done, he]⟩
    · simp [fail] at h

/-- A type is noted if the expression has none, or has the same. -/
theorem conclude_run (build : Note → Expr) {note : Note} {τ : Ty}
    (h : ∀ υ, note.ty? = some υ → υ = τ) (s : Scopes) :
    ∃ n : Note, n.ty? = some τ ∧ conclude build note τ s = ⟨build n, .ok τ, s⟩ := by
  unfold conclude
  cases hk : note.ty? with
  | none => exact ⟨{ note with ty? := some τ }, rfl, rfl⟩
  | some known =>
    obtain rfl := h known hk
    exact ⟨note, hk, by simp [done]⟩

theorem conclude_permits {build : Note → Expr} {note : Note} {τ υ : Ty} {s : Scopes}
    (h : (conclude build note τ s).outcome = .ok υ) : ∀ known, note.ty? = some known → known = τ := by
  intro known hk
  unfold conclude at h
  rw [hk] at h
  dsimp only at h
  split at h
  · assumption
  · cases h

theorem isVariable_iff {e : Expr} : isVariable e = true ↔ ∃ n x, e = .name n x := by
  cases e <;> simp [isVariable]

theorem blame_ok {γ : Type} {location : Location} {r : Except TypeError γ} {found : γ}
    (h : blame location r = .ok found) : r = .ok found := by
  cases r <;> simp_all [blame]

theorem demandCondition_ok {c : Expr} {τ : Ty} (h : demandCondition c τ = .ok ()) : τ = .bool := by
  unfold demandCondition at h
  split at h
  · assumption
  · cases h

theorem demandArgument_ok {expected : Ty} {e : Expr} {τ : Ty}
    (h : demandArgument expected e τ = .ok ()) : τ = expected := by
  unfold demandArgument at h
  split at h
  · assumption
  · cases h

theorem returnType_ok {ρ? : Option Ty} {τ υ : Ty} (h : returnType ρ? τ = .ok υ) :
    υ = τ ∧ ρ? = some τ := by
  unfold returnType at h
  split at h
  · cases h
  · split at h
    · rename_i hτ; cases h; exact ⟨hτ.symm, by rw [hτ]⟩
    · cases h

theorem initialType_ok {x : String} {declared? : Option Ty} {τ υ : Ty}
    (h : initialType x declared? τ = .ok υ) : υ = τ := by
  unfold initialType at h
  split at h
  · cases h; rfl
  · split at h
    · cases h; rfl
    · cases h

theorem callSignature_ok {f : String} {given : Nat} {b? : Option (Binding Ty)} {σ : Signature}
    (h : callSignature f given b? = .ok σ) :
    calleeSignature f b? = .ok σ ∧ σ.parameters.length = given := by
  unfold callSignature at h
  cases hc : calleeSignature f b? with
  | error e => simp [hc, bind, Except.bind] at h
  | ok σ' =>
    simp only [hc, bind, Except.bind] at h
    split at h
    · cases h; exact ⟨rfl, by assumption⟩
    · cases h

theorem callSignature_run {f : String} {given : Nat} {b? : Option (Binding Ty)} {σ : Signature}
    (h : calleeSignature f b? = .ok σ) (hlen : σ.parameters.length = given) :
    callSignature f given b? = .ok σ := by
  simp only [callSignature, h, bind, Except.bind, if_pos hlen]
  rfl

theorem operatorResult_isData {b : Builtin} {τs : List Ty} {τ : Ty}
    (h : operatorResult b τs = .ok τ) : τ.isData = true := by
  unfold operatorResult at h
  split at h
  · rename_i σ hσ
    split at h
    · cases h
      cases b <;> simp [Builtin.signature?, Builtin.kind] at hσ <;> subst hσ <;> rfl
    · cases h
  · split at h
    · cases h; rfl
    · cases h
  · cases h

end Typing

end Exprc

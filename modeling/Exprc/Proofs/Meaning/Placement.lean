/-
Where assignments, declarations and values stand. Lowering keeps the meaning of programs that declare
variables only as statements of blocks and that assign nothing while operands wait for an operator or a
call; here is what that means for a tree, and what it means for the stages of its lowering. And the
value of an expression is in a variable of the program or in a temporary of its own.
-/
import Exprc.Proofs.Lowering.Module

namespace Exprc.Syntax

namespace Expr

/-! ## Assignments -/

mutual

/-- Whether an assignment stands in an expression. -/
def assigns : Expr → Bool
  | int .. | bool .. | unit .. | name .. | control .. | leave .. => false
  | unary _ _ e | declare _ _ _ e | leaveWith _ e => assigns e
  | binary _ _ _ lhs rhs => assigns lhs || assigns rhs
  | assign .. => true
  | ifThen _ c t => assigns c || assigns t
  | ifElse _ c t e => assigns c || assigns t || assigns e
  | loop _ c b => assigns c || assigns b
  | block _ es | call _ _ es => anyAssigns es

/-- Whether an assignment stands in one of some expressions. -/
def anyAssigns : List Expr → Bool
  | [] => false
  | e :: es => assigns e || anyAssigns es

end

mutual

/-- Whether no assignment stands in the right operand of an operator that has evaluated its left one by
then, nor in an argument of a call behind the first. -/
def operandsSettled : Expr → Bool
  | int .. | bool .. | unit .. | name .. | control .. | leave .. => true
  | unary _ _ e | declare _ _ _ e | leaveWith _ e => operandsSettled e
  | binary _ op _ lhs rhs =>
    operandsSettled lhs && operandsSettled rhs && (op.isShortCircuit || !assigns rhs)
  | assign _ _ _ value => operandsSettled value
  | ifThen _ c t => operandsSettled c && operandsSettled t
  | ifElse _ c t e => operandsSettled c && operandsSettled t && operandsSettled e
  | loop _ c b => operandsSettled c && operandsSettled b
  | block _ es => allOperandsSettled es
  | call _ _ es => allOperandsSettled es && !anyAssigns es.tail

/-- Whether this holds in each of some expressions. -/
def allOperandsSettled : List Expr → Bool
  | [] => true
  | e :: es => operandsSettled e && allOperandsSettled es

end

/-! ## Declarations -/

mutual

/-- Whether each variable is declared in a statement of a block; the expression itself is no such
statement. -/
def declaresInBlocks : Expr → Bool
  | int .. | bool .. | unit .. | name .. | control .. | leave .. => true
  | declare .. => false
  | unary _ _ e | leaveWith _ e => declaresInBlocks e
  | binary _ _ _ lhs rhs => declaresInBlocks lhs && declaresInBlocks rhs
  | assign _ _ _ value => declaresInBlocks value
  | ifThen _ c t => declaresInBlocks c && declaresInBlocks t
  | ifElse _ c t e => declaresInBlocks c && declaresInBlocks t && declaresInBlocks e
  | loop _ c b => declaresInBlocks c && declaresInBlocks b
  | block _ es => statementsDeclareInBlocks es
  | call _ _ es => allDeclareInBlocks es

/-- Whether this holds in the statements of a block. -/
def statementsDeclareInBlocks : List Expr → Bool
  | [] => true
  | declare _ _ _ e :: es => declaresInBlocks e && statementsDeclareInBlocks es
  | e :: es => declaresInBlocks e && statementsDeclareInBlocks es

/-- Whether this holds in each of some expressions. -/
def allDeclareInBlocks : List Expr → Bool
  | [] => true
  | e :: es => declaresInBlocks e && allDeclareInBlocks es

end

/-- An expression that declares nothing itself is fine as a statement. -/
theorem statementsDeclareInBlocks_singleton {e : Expr} (h : e.declaresInBlocks = true) :
    statementsDeclareInBlocks [e] = true := by
  cases e <;> simp_all [statementsDeclareInBlocks, declaresInBlocks]

theorem statementsDeclareInBlocks_cons {e : Expr} {es : List Expr} :
    statementsDeclareInBlocks (e :: es) = true ↔
      statementsDeclareInBlocks [e] = true ∧ statementsDeclareInBlocks es = true := by
  cases e <;> simp [statementsDeclareInBlocks]

end Expr

namespace Module

/-- Whether something holds of the bodies of all functions and of the top-level statements. -/
def allBodies (m : Module) (p : Expr → Bool) : Bool := m.functions.all (fun f => p f.body) && p m.body

end Module

end Exprc.Syntax

namespace Exprc.Lowering

open Syntax IR Typing

section

variable {sig : String → Option Signature} {ρ? : Option Ty}

mutual

/-- An expression that declares variables in blocks only leaves what is in scope as it was. -/
theorem Lowers.locals_eq :
    ∀ {loop? : Option LoopLabels} {s s' : Stage} {e : Expr} {τ : Ty} {f : Fragment},
      Lowers sig ρ? loop? s e τ f s' → e.declaresInBlocks = true → s'.locals = s.locals
  | _, _, _, _, _, _, .int, _ | _, _, _, _, _, _, .bool, _ | _, _, _, _, _, _, .unit, _
  | _, _, _, _, _, _, .name _, _ | _, _, _, _, _, _, .control, _ | _, _, _, _, _, _, .leave _, _ =>
    rfl
  | _, _, _, _, _, _, .unary h _, hd => by
    rw [Expr.declaresInBlocks] at hd
    exact h.locals_eq (by simpa [Expr.allDeclareInBlocks] using hd)
  | _, _, _, _, _, _, .binary _ h _, hd => by
    rw [Expr.declaresInBlocks, Bool.and_eq_true] at hd
    exact h.locals_eq (by simpa [Expr.allDeclareInBlocks] using hd)
  | _, _, _, _, _, _, .call _ _ h, hd => by
    rw [Expr.declaresInBlocks] at hd
    exact h.locals_eq hd
  | _, _, _, _, _, _, .shortCircuit _ h₁ h₂, hd => by
    rw [Expr.declaresInBlocks, Bool.and_eq_true] at hd
    exact (h₂.locals_eq hd.2).trans (h₁.locals_eq hd.1)
  | _, _, _, _, _, _, .assign _ h, hd | _, _, _, _, _, _, .leaveWith _ h, hd => by
    rw [Expr.declaresInBlocks] at hd
    exact h.locals_eq hd
  | _, _, _, _, _, _, .ifThen h₁ h₂, hd | _, _, _, _, _, _, .loop h₁ h₂, hd => by
    rw [Expr.declaresInBlocks, Bool.and_eq_true] at hd
    exact (h₂.locals_eq hd.2).trans (h₁.locals_eq hd.1)
  | _, _, _, _, _, _, .ifElseUnit _ h₁ h₂ h₃, hd => by
    rw [Expr.declaresInBlocks, Bool.and_eq_true, Bool.and_eq_true] at hd
    exact (h₃.locals_eq hd.2).trans ((h₂.locals_eq hd.1.2).trans (h₁.locals_eq hd.1.1))
  | _, _, _, _, _, _, .ifElse _ _ h₁ h₂ hm h₃, hd => by
    rw [Expr.declaresInBlocks, Bool.and_eq_true, Bool.and_eq_true] at hd
    exact (h₃.locals_eq hd.2).trans (hm.locals_eq.trans
      ((h₂.locals_eq hd.1.2).trans (h₁.locals_eq hd.1.1)))
  | _, _, _, _, _, _, .block h, _ => h.extends.leave.1
  | _, _, _, _, _, _, .declare _, hd => by rw [Expr.declaresInBlocks] at hd; cases hd

theorem LowersArguments.locals_eq :
    ∀ {loop? : Option LoopLabels} {s s' : Stage} {es : List Expr} {τs : List Ty}
      {fs : List Fragment}, LowersArguments sig ρ? loop? s es τs fs s' →
      Expr.allDeclareInBlocks es = true → s'.locals = s.locals
  | _, _, _, _, _, _, .nil, _ => rfl
  | _, _, _, _, _, _, .cons h hs, hd => by
    rw [Expr.allDeclareInBlocks, Bool.and_eq_true] at hd
    exact (hs.locals_eq hd.2).trans (h.locals_eq hd.1)

end

/-! ## Values -/

/-- Where the value of an expression can be, if `low` was the number to give out next before: in the unit
variable, in a variable that a declared name owns, or in a temporary that was given out since. -/
def Stage.Locates (s : Stage) (low : Nat) (v : Var) : Prop :=
  v = .unit ∨ v ∈ s.owned ∨ ∃ k, low ≤ k ∧ k < s.nextTemp ∧ v = .temp k

theorem Stage.Locates.mono {s s' : Stage} {low low' : Nat} {v : Var} (h : s.Locates low' v)
    (hs : s.Extends s') (hlow : low ≤ low') : s'.Locates low v := by
  obtain ⟨new, hnew, -⟩ := hs.owned
  have hle := hs.temp_le
  rcases h with rfl | h | ⟨k, h₁, h₂, rfl⟩
  · exact .inl rfl
  · exact .inr (.inl (hnew ▸ List.mem_append_right _ h))
  · exact .inr (.inr ⟨k, by omega, by omega, rfl⟩)

/-- A value is not where the next one will be. -/
theorem Stage.Locates.ne {s : Stage} {low : Nat} {v : Var} (h : s.Locates low v) (hs : s.WF) :
    v ≠ .temp s.nextTemp := by
  rcases h with rfl | h | ⟨k, -, hk, rfl⟩
  · exact Var.noConfusion
  · obtain ⟨k, hk, rfl⟩ := hs.owned_lt v h
    exact fun he => Nat.ne_of_lt hk (Var.temp.inj he)
  · exact fun he => Nat.ne_of_lt hk (Var.temp.inj he)

/-- The temporary that is given out last. -/
theorem Stage.Locates.withTemp {s : Stage} {low : Nat} (h : low ≤ s.nextTemp) (τ : Ty) :
    (s.withTemp τ).Locates low (.temp s.nextTemp) :=
  .inr (.inr ⟨s.nextTemp, h, Nat.lt_succ_self _, rfl⟩)

/-- The variable that branches merge into is no variable of the program. -/
theorem Merges.target {location : Location} {τ : Ty} {s s' : Stage} {low : Nat} {v : Var}
    {m : Fragment} (h : Merges location τ s v m s') (hs : s.WF) (hv : s.Locates low v)
    (hlow : low ≤ s.nextTemp) :
    ∃ k, low ≤ k ∧ k < s'.nextTemp ∧ m.value = .temp k ∧ .temp k ∉ s.owned := by
  cases h with
  | reuse ht ho =>
    rcases hv with rfl | hv | ⟨k, h₁, h₂, rfl⟩
    · cases ht
    · exact absurd hv ho
    · exact ⟨k, h₁, h₂, rfl, ho⟩
  | copy =>
    refine ⟨s.nextTemp, hlow, Nat.lt_succ_self _, rfl, fun hm => ?_⟩
    obtain ⟨n, hn, he⟩ := hs.owned_lt _ hm
    cases he
    exact absurd hn (Nat.lt_irrefl _)

mutual

/-- The value of an expression is in a variable of the program or in a temporary of its own. -/
theorem Lowers.locates :
    ∀ {loop? : Option LoopLabels} {s s' : Stage} {e : Expr} {τ : Ty} {f : Fragment},
      Lowers sig ρ? loop? s e τ f s' → s.WF → s'.Locates s.nextTemp f.value
  | _, _, _, _, _, _, .int, _ | _, _, _, _, _, _, .bool, _ => .withTemp (Nat.le_refl _) _
  | _, _, _, _, _, _, .unary h _, _ | _, _, _, _, _, _, .binary _ h _, _
  | _, _, _, _, _, _, .call _ _ h, _ => .withTemp h.extends.temp_le _
  | _, s, _, _, _, _, .shortCircuit _ h₁ h₂, _ =>
    .withTemp (Nat.le_trans h₁.extends.temp_le h₂.extends.temp_le) _
  | _, _, _, _, _, _, .unit, _ | _, _, _, _, _, _, .ifThen .., _
  | _, _, _, _, _, _, .ifElseUnit .., _ | _, _, _, _, _, _, .loop .., _
  | _, _, _, _, _, _, .declare .., _ | _, _, _, _, _, _, .control, _
  | _, _, _, _, _, _, .leave _, _ | _, _, _, _, _, _, .leaveWith .., _ => .inl rfl
  | _, _, _, _, _, _, .name hl, hs => by
    obtain ⟨-, frame, hf, hm⟩ := Locals.mem_of_find? hl
    exact .inr (.inl (hs.locals_owned frame hf _ hm))
  | _, _, _, _, _, _, .assign _ h, hs => h.locates hs
  | _, _, _, _, _, _, .block h, hs => h.locates hs.enter (.inl rfl) (Nat.le_refl _)
  | _, s, _, _, _, _, .ifElse _ _ h₁ h₂ hm h₃, hs => by
    have hs₁ := h₁.wf (hs.withLabels 3)
    have hle := h₁.extends.temp_le
    obtain ⟨k, hk, hk', he, -⟩ :=
      hm.target (h₂.wf hs₁) (h₂.locates hs₁) h₂.extends.temp_le
    have := h₃.extends.temp_le
    exact .inr (.inr ⟨k, Nat.le_trans hle hk, by omega, he⟩)

theorem LowersStatements.locates :
    ∀ {loop? : Option LoopLabels} {s s' : Stage} {es : List Expr} {τ₀ : Ty} {last : Var} {τ : Ty}
      {f : Fragment} {low : Nat}, LowersStatements sig ρ? loop? s es τ₀ last τ f s' → s.WF →
      s.Locates low last → low ≤ s.nextTemp → s'.Locates low f.value
  | _, _, _, _, _, _, _, _, _, .nil, _, hlast, _ => hlast
  | _, _, _, _, _, _, _, _, _, .cons h hs', hs, _, hlow =>
    hs'.locates (h.wf hs) ((h.locates hs).mono (.refl _) hlow)
      (Nat.le_trans hlow h.extends.temp_le)

end

end

end Exprc.Lowering

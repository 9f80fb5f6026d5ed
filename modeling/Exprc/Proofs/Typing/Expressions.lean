/-
The checker decides the rules, for expressions. If a check succeeds then the expression obeys the rules
and the tree that the check leaves is annotated by them; and an expression that obeys the rules is
accepted, with the type that the rules give it.
-/
import Exprc.Proofs.Typing.Context

namespace Exprc.Typing

open Syntax
open Checker (andThen_ok ask_ok declaring_ok ensure_ok inScope_ok)
open Checker (andThen_run ask_run declaring_run ensure_run inScope_run)

section

variable {callable : String → Signature → Prop} {root : List (String × Binding Ty)} {ρ? : Option Ty}

/-! ## Soundness -/

/-- What the success of noting a type shows of the note before and behind. -/
theorem conclude_sound {build : Note → Expr} {note : Note} {τ υ : Ty} {s : Scopes}
    (h : (conclude build note τ s).outcome = .ok υ) :
    υ = τ ∧ Permits note τ ∧ ∃ n, Carries n τ ∧ conclude build note τ s = ⟨build n, .ok τ, s⟩ := by
  obtain ⟨hυ, n, hn, -, he⟩ := conclude_ok h
  exact ⟨hυ, conclude_permits h, n, hn, he⟩

/-- A block obeys the rules if its statements do, whether or not it stands in another block. -/
theorem checkBlock_sound {Γ : Stack Ty} {s : Scopes} {n : Note} {es : List Expr} {τ : Ty}
    (h : (checkExpr ρ? (.block n es) s).outcome = .ok τ)
    (hes : ∀ {υ : Ty}, (checkStatements ρ? es .unit s.push).outcome = .ok υ → ∃ frame,
      Holds root (frame :: Γ) (checkStatements ρ? es .unit s.push).scopes ∧ υ.isData = true ∧
      StatementsHaveType Permits callable ρ? ([] :: Γ) es .unit υ (frame :: Γ) ∧
      StatementsHaveType Carries callable ρ? ([] :: Γ) (checkStatements ρ? es .unit s.push).tree .unit υ
        (frame :: Γ)) :
    Holds root Γ (checkExpr ρ? (.block n es) s).scopes ∧ τ.isData = true ∧
      HasType Permits callable ρ? Γ (.block n es) τ Γ ∧
      HasType Carries callable ρ? Γ (checkExpr ρ? (.block n es) s).tree τ Γ := by
  rw [checkExpr] at h ⊢
  obtain ⟨υ, h₁, he⟩ := andThen_ok h
  obtain ⟨h₁, hin⟩ := inScope_ok h₁
  rw [he, hin] at h ⊢
  obtain ⟨rfl, hp, n', hn, he⟩ := conclude_sound h
  obtain ⟨frame, hΓ', hd, ht, ht'⟩ := hes h₁
  rw [he]
  exact ⟨hΓ'.close, hd, .block ht hp, .block ht' hn⟩

mutual

/-- What the checker accepts obeys the rules, and gets the types of the rules in its notes. -/
theorem checkExpr_sound (hR : Root callable root) :
    ∀ (e : Expr) {frame : List (String × Ty)} {Γ : Stack Ty} {s : Scopes} {τ : Ty},
      Holds root (frame :: Γ) s → (checkExpr ρ? e s).outcome = .ok τ → ∃ frame',
        Holds root (frame' :: Γ) (checkExpr ρ? e s).scopes ∧ τ.isData = true ∧
        HasType Permits callable ρ? (frame :: Γ) e τ (frame' :: Γ) ∧
        HasType Carries callable ρ? (frame :: Γ) (checkExpr ρ? e s).tree τ (frame' :: Γ)
  | .int n value, frame, Γ, s, τ, hΓ, h => by
    rw [checkExpr] at h ⊢
    obtain ⟨rfl, hp, n', hn, he⟩ := conclude_sound h
    rw [he]
    exact ⟨frame, hΓ, rfl, .int hp, .int hn⟩
  | .bool n value, frame, Γ, s, τ, hΓ, h => by
    rw [checkExpr] at h ⊢
    obtain ⟨rfl, hp, n', hn, he⟩ := conclude_sound h
    rw [he]
    exact ⟨frame, hΓ, rfl, .bool hp, .bool hn⟩
  | .unit n, frame, Γ, s, τ, hΓ, h => by
    rw [checkExpr] at h ⊢
    obtain ⟨rfl, hp, n', hn, he⟩ := conclude_sound h
    rw [he]
    exact ⟨frame, hΓ, rfl, .unit hp, .unit hn⟩
  | .name n x, frame, Γ, s, τ, hΓ, h => by
    rw [checkExpr] at h ⊢
    obtain ⟨υ, hq, he⟩ := ask_ok h
    rw [he] at h ⊢
    obtain ⟨rfl, hp, n', hn, he⟩ := conclude_sound h
    have hx := (hΓ.variableType_iff hR).1 (blame_ok hq)
    rw [he]
    exact ⟨frame, hΓ, hΓ.find?_isData hx, .name hx hp, .name hx hn⟩
  | .unary n op e, frame, Γ, s, τ, hΓ, h => by
    rw [checkExpr] at h ⊢
    obtain ⟨υ, h₁, he⟩ := andThen_ok h
    rw [he] at h ⊢
    obtain ⟨ρ, hq, he⟩ := ask_ok h
    rw [he] at h ⊢
    obtain ⟨rfl, hp, n', hn, he⟩ := conclude_sound h
    obtain ⟨f₁, hΓ₁, -, ht₁, ht₁'⟩ := checkExpr_sound hR e hΓ h₁
    have hop := operatorResult_unary.1 (blame_ok hq)
    rw [he]
    exact ⟨f₁, hΓ₁, operatorResult_isData (blame_ok hq), .unary ht₁ hop hp, .unary ht₁' hop hn⟩
  | .binary n op l lhs rhs, frame, Γ, s, τ, hΓ, h => by
    rw [checkExpr] at h ⊢
    obtain ⟨υ₁, h₁, he⟩ := andThen_ok h
    rw [he] at h ⊢
    obtain ⟨υ₂, h₂, he⟩ := andThen_ok h
    rw [he] at h ⊢
    obtain ⟨ρ, hq, he⟩ := ask_ok h
    rw [he] at h ⊢
    obtain ⟨rfl, hp, n', hn, he⟩ := conclude_sound h
    obtain ⟨f₁, hΓ₁, -, ht₁, ht₁'⟩ := checkExpr_sound hR lhs hΓ h₁
    obtain ⟨f₂, hΓ₂, -, ht₂, ht₂'⟩ := checkExpr_sound hR rhs hΓ₁ h₂
    have hop := operatorResult_binary.1 (blame_ok hq)
    rw [he]
    exact ⟨f₂, hΓ₂, operatorResult_isData (blame_ok hq), .binary ht₁ ht₂ hop hp,
      .binary ht₁' ht₂' hop hn⟩
  | .assign n l target value, frame, Γ, s, τ, hΓ, h => by
    rw [checkExpr] at h ⊢
    split at h
    · rename_i htarget
      rw [if_pos htarget]
      obtain ⟨n₀, x, rfl⟩ := isVariable_iff.1 htarget
      obtain ⟨υ, h₁, he⟩ := andThen_ok h
      rw [he] at h ⊢
      rw [checkExpr] at h₁ h ⊢
      obtain ⟨υ', hq, he₁⟩ := ask_ok h₁
      rw [he₁] at h₁ h ⊢
      obtain ⟨rfl, hp₁, n₁, hn₁, he₁⟩ := conclude_sound h₁
      rw [he₁] at h ⊢
      obtain ⟨υ₂, h₂, he⟩ := andThen_ok h
      rw [he] at h ⊢
      split at h
      · rename_i hτ
        subst hτ
        rw [if_pos rfl]
        obtain ⟨rfl, hp, n', hn, he⟩ := conclude_sound h
        have hx := (hΓ.variableType_iff hR).1 (blame_ok hq)
        obtain ⟨f₂, hΓ₂, hd, ht₂, ht₂'⟩ := checkExpr_sound hR value hΓ h₂
        rw [he]
        exact ⟨f₂, hΓ₂, hd, .assign (.name hx hp₁) ht₂ hp, .assign (.name hx hn₁) ht₂' hn⟩
      · cases h
    · cases h
  | .ifThen n c t, frame, Γ, s, τ, hΓ, h => by
    rw [checkExpr] at h ⊢
    obtain ⟨υ, h₀, he⟩ := andThen_ok h
    obtain ⟨h₁, hd, htree, hscopes⟩ := ensure_ok h₀
    obtain rfl := demandCondition_ok hd
    rw [he, htree, hscopes] at h ⊢
    obtain ⟨υ₂, h₂, he⟩ := andThen_ok h
    rw [he] at h ⊢
    obtain ⟨rfl, hp, n', hn, he⟩ := conclude_sound h
    obtain ⟨f₁, hΓ₁, -, ht₁, ht₁'⟩ := checkExpr_sound hR c hΓ h₁
    obtain ⟨f₂, hΓ₂, -, ht₂, ht₂'⟩ := checkExpr_sound hR t hΓ₁ h₂
    rw [he]
    exact ⟨f₂, hΓ₂, rfl, .ifThen ht₁ ht₂ hp, .ifThen ht₁' ht₂' hn⟩
  | .ifElse n c t e, frame, Γ, s, τ, hΓ, h => by
    rw [checkExpr] at h ⊢
    obtain ⟨υ, h₀, he⟩ := andThen_ok h
    obtain ⟨h₁, hd, htree, hscopes⟩ := ensure_ok h₀
    obtain rfl := demandCondition_ok hd
    rw [he, htree, hscopes] at h ⊢
    obtain ⟨υ₂, h₂, he⟩ := andThen_ok h
    rw [he] at h ⊢
    obtain ⟨υ₃, h₃, he⟩ := andThen_ok h
    rw [he] at h ⊢
    split at h
    · rename_i hυ
      subst hυ
      rw [if_pos rfl]
      obtain ⟨rfl, hp, n', hn, he⟩ := conclude_sound h
      obtain ⟨f₁, hΓ₁, -, ht₁, ht₁'⟩ := checkExpr_sound hR c hΓ h₁
      obtain ⟨f₂, hΓ₂, -, ht₂, ht₂'⟩ := checkExpr_sound hR t hΓ₁ h₂
      obtain ⟨f₃, hΓ₃, hd, ht₃, ht₃'⟩ := checkExpr_sound hR e hΓ₂ h₃
      rw [he]
      exact ⟨f₃, hΓ₃, hd, .ifElse ht₁ ht₂ ht₃ hp, .ifElse ht₁' ht₂' ht₃' hn⟩
    · cases h
  | .loop n c b, frame, Γ, s, τ, hΓ, h => by
    rw [checkExpr] at h ⊢
    obtain ⟨υ, h₀, he⟩ := andThen_ok h
    obtain ⟨h₁, hd, htree, hscopes⟩ := ensure_ok h₀
    obtain rfl := demandCondition_ok hd
    rw [he, htree, hscopes] at h ⊢
    obtain ⟨υ₂, h₂, he⟩ := andThen_ok h
    rw [he] at h ⊢
    obtain ⟨rfl, hp, n', hn, he⟩ := conclude_sound h
    obtain ⟨f₁, hΓ₁, -, ht₁, ht₁'⟩ := checkExpr_sound hR c hΓ h₁
    obtain ⟨f₂, hΓ₂, -, ht₂, ht₂'⟩ := checkExpr_sound hR b hΓ₁ h₂
    rw [he]
    exact ⟨f₂, hΓ₂, rfl, .loop ht₁ ht₂ hp, .loop ht₁' ht₂' hn⟩
  | .block n es, frame, Γ, s, τ, hΓ, h =>
    ⟨frame, checkBlock_sound h (checkStatements_sound hR es hΓ.push rfl)⟩
  | .declare n x written? e, frame, Γ, s, τ, hΓ, h => by
    rw [checkExpr] at h ⊢
    obtain ⟨υ, h₁, he⟩ := andThen_ok h
    rw [he] at h ⊢
    obtain ⟨υ', hq, he⟩ := ask_ok h
    have hw : υ' = υ ∧ ∀ a ∈ written?, a.ty = υ := by
      have hq := blame_ok hq
      refine ⟨initialType_ok hq, fun a ha => ?_⟩
      rw [Option.mem_def.1 ha] at hq
      simp only [Option.map_some, initialType] at hq
      split at hq
      · assumption
      · cases hq
    obtain ⟨rfl, hw⟩ := hw
    rw [he] at h ⊢
    obtain ⟨s', hdecl, he⟩ := declaring_ok h
    rw [he] at h ⊢
    obtain ⟨rfl, hp, n', hn, he⟩ := conclude_sound h
    obtain ⟨f₁, hΓ₁, hd, ht₁, ht₁'⟩ := checkExpr_sound hR e hΓ h₁
    obtain ⟨hx, hΓ₂⟩ := hΓ₁.declare_inv hd hdecl
    rw [he]
    exact ⟨_, hΓ₂, rfl, .declare ht₁ hw hx hp, .declare ht₁' hw hx hn⟩
  | .call n f es, frame, Γ, s, τ, hΓ, h => by
    rw [checkExpr] at h ⊢
    obtain ⟨σ, hq, he⟩ := ask_ok h
    rw [he] at h ⊢
    obtain ⟨_, h₁, he⟩ := andThen_ok h
    rw [he] at h ⊢
    obtain ⟨rfl, hp, n', hn, he⟩ := conclude_sound h
    obtain ⟨hσ, hlen⟩ := callSignature_ok (blame_ok hq)
    obtain ⟨hfree, hcallable⟩ := (hΓ.calleeSignature_iff hR).1 hσ
    obtain ⟨f₁, hΓ₁, ht₁, ht₁'⟩ := checkArguments_sound hR es σ.parameters hlen.symm hΓ h₁
    rw [he]
    exact ⟨f₁, hΓ₁, hR.result_isData f σ hcallable, .call hfree hcallable ht₁ hp,
      .call hfree hcallable ht₁' hn⟩
  | .control n c, frame, Γ, s, τ, hΓ, h => by
    rw [checkExpr] at h ⊢
    obtain ⟨rfl, hp, n', hn, he⟩ := conclude_sound h
    rw [he]
    exact ⟨frame, hΓ, rfl, .control hp, .control hn⟩
  | .leave n, frame, Γ, s, τ, hΓ, h => by
    rw [checkExpr] at h ⊢
    obtain ⟨ρ, hq, he⟩ := ask_ok h
    obtain ⟨rfl, hρ⟩ := returnType_ok (blame_ok hq)
    rw [he] at h ⊢
    obtain ⟨rfl, hp, n', hn, he⟩ := conclude_sound h
    rw [he]
    exact ⟨frame, hΓ, rfl, .leave hρ hp, .leave hρ hn⟩
  | .leaveWith n e, frame, Γ, s, τ, hΓ, h => by
    rw [checkExpr] at h ⊢
    split at h
    · rename_i hsome
      rw [if_pos hsome]
      obtain ⟨υ, h₁, he⟩ := andThen_ok h
      rw [he] at h ⊢
      obtain ⟨ρ, hq, he⟩ := ask_ok h
      obtain ⟨rfl, hρ⟩ := returnType_ok (blame_ok hq)
      rw [he] at h ⊢
      obtain ⟨rfl, hp, n', hn, he⟩ := conclude_sound h
      obtain ⟨f₁, hΓ₁, hd, ht₁, ht₁'⟩ := checkExpr_sound hR e hΓ h₁
      rw [he]
      exact ⟨f₁, hΓ₁, hd, .leaveWith hρ ht₁ hp, .leaveWith hρ ht₁' hn⟩
    · cases h

theorem checkStatements_sound (hR : Root callable root) :
    ∀ (es : List Expr) {frame : List (String × Ty)} {Γ : Stack Ty} {s : Scopes} {τ₀ τ : Ty},
      Holds root (frame :: Γ) s → τ₀.isData = true → (checkStatements ρ? es τ₀ s).outcome = .ok τ →
      ∃ frame', Holds root (frame' :: Γ) (checkStatements ρ? es τ₀ s).scopes ∧ τ.isData = true ∧
        StatementsHaveType Permits callable ρ? (frame :: Γ) es τ₀ τ (frame' :: Γ) ∧
        StatementsHaveType Carries callable ρ? (frame :: Γ) (checkStatements ρ? es τ₀ s).tree τ₀ τ
          (frame' :: Γ)
  | [], frame, Γ, s, τ₀, τ, hΓ, hd, h => by
    rw [checkStatements] at h ⊢
    cases h
    exact ⟨frame, hΓ, hd, .nil, .nil⟩
  | e :: es, frame, Γ, s, τ₀, τ, hΓ, hd, h => by
    rw [checkStatements] at h ⊢
    obtain ⟨υ, h₁, he⟩ := andThen_ok h
    rw [he] at h ⊢
    obtain ⟨f₁, hΓ₁, hd₁, ht₁, ht₁'⟩ := checkExpr_sound hR e hΓ h₁
    obtain ⟨f₂, hΓ₂, hd₂, ht₂, ht₂'⟩ := checkStatements_sound hR es hΓ₁ hd₁ h
    exact ⟨f₂, hΓ₂, hd₂, .cons ht₁ ht₂, .cons ht₁' ht₂'⟩

theorem checkArguments_sound (hR : Root callable root) :
    ∀ (es : List Expr) (τs : List Ty) {frame : List (String × Ty)} {Γ : Stack Ty} {s : Scopes},
      es.length = τs.length → Holds root (frame :: Γ) s → (checkArguments ρ? es τs s).outcome = .ok () →
      ∃ frame', Holds root (frame' :: Γ) (checkArguments ρ? es τs s).scopes ∧
        ArgumentsHaveType Permits callable ρ? (frame :: Γ) es τs (frame' :: Γ) ∧
        ArgumentsHaveType Carries callable ρ? (frame :: Γ) (checkArguments ρ? es τs s).tree τs
          (frame' :: Γ)
  | [], [], frame, Γ, s, _, hΓ, h => ⟨frame, hΓ, .nil, .nil⟩
  | e :: es, τ :: τs, frame, Γ, s, hlen, hΓ, h => by
    rw [checkArguments] at h ⊢
    obtain ⟨υ, h₀, he⟩ := andThen_ok h
    obtain ⟨h₁, hd, htree, hscopes⟩ := ensure_ok h₀
    obtain rfl := demandArgument_ok hd
    rw [he, htree, hscopes] at h ⊢
    obtain ⟨f₁, hΓ₁, -, ht₁, ht₁'⟩ := checkExpr_sound hR e hΓ h₁
    obtain ⟨f₂, hΓ₂, ht₂, ht₂'⟩ := checkArguments_sound hR es τs (Nat.succ.inj hlen) hΓ₁ h
    exact ⟨f₂, hΓ₂, .cons ht₁ ht₂, .cons ht₁' ht₂'⟩

end

/-! ## Completeness -/

theorem ArgumentsHaveType.length_eq {noted : Note → Ty → Prop} :
    ∀ {Γ Γ' : Stack Ty} {es : List Expr} {τs : List Ty},
      ArgumentsHaveType noted callable ρ? Γ es τs Γ' → τs.length = es.length
  | _, _, _, _, .nil => rfl
  | _, _, _, _, .cons _ h => congrArg (· + 1) h.length_eq

theorem demandCondition_bool (c : Expr) : demandCondition c .bool = .ok () := rfl

theorem demandArgument_self (τ : Ty) (e : Expr) : demandArgument τ e τ = .ok () := if_pos rfl

theorem returnType_self {τ : Ty} (h : ρ? = some τ) : returnType ρ? τ = .ok τ := by
  subst h
  exact if_pos rfl

theorem initialType_of_written {written? : Option WrittenType} {τ : Ty} (x : String)
    (h : ∀ a ∈ written?, a.ty = τ) : initialType x (written?.map (·.ty)) τ = .ok τ := by
  cases written? with
  | none => rfl
  | some a => exact if_pos (h a rfl)

/-- That the checker accepts an expression as of a type, and then holds a context. -/
def Accepts (root : List (String × Binding Ty)) (Γ : Stack Ty) (τ : Ty) (c : Checked Expr Ty) : Prop :=
  c.outcome = .ok τ ∧ Holds root Γ c.scopes ∧ τ.isData = true

theorem Accepts.conclude {Γ : Stack Ty} {τ : Ty} {s : Scopes} {n : Note} (hp : Permits n τ)
    (hΓ : Holds root Γ s) (hd : τ.isData = true) (build : Note → Expr) :
    Accepts root Γ τ (conclude build n τ s) := by
  obtain ⟨n', -, he⟩ := conclude_run build hp s
  rw [he]
  exact ⟨rfl, hΓ, hd⟩

mutual

/-- What obeys the rules is accepted. -/
theorem HasType.accepted (hR : Root callable root) :
    ∀ {Γ Γ' : Stack Ty} {e : Expr} {τ : Ty}, HasType Permits callable ρ? Γ e τ Γ' →
      ∀ {s : Scopes}, Holds root Γ s → Accepts root Γ' τ (checkExpr ρ? e s)
  | _, _, _, _, .int hp, s, hΓ => by rw [checkExpr]; exact .conclude hp hΓ rfl _
  | _, _, _, _, .bool hp, s, hΓ => by rw [checkExpr]; exact .conclude hp hΓ rfl _
  | _, _, _, _, .unit hp, s, hΓ => by rw [checkExpr]; exact .conclude hp hΓ rfl _
  | _, _, _, _, .control hp, s, hΓ => by rw [checkExpr]; exact .conclude hp hΓ rfl _
  | _, _, _, _, .name hx hp, s, hΓ => by
    have hq := (hΓ.variableType_iff hR).2 hx
    rw [checkExpr, ask_run (by rw [hq]; rfl)]
    exact .conclude hp hΓ (hΓ.find?_isData hx) _
  | _, _, _, _, .unary ht hop hp, s, hΓ => by
    obtain ⟨h₁, hΓ₁, -⟩ := ht.accepted hR hΓ
    have hq := operatorResult_unary.2 hop
    rw [checkExpr, andThen_run h₁, ask_run (by rw [hq]; rfl)]
    exact .conclude hp hΓ₁ (operatorResult_isData hq) _
  | _, _, _, _, .binary ht₁ ht₂ hop hp, s, hΓ => by
    obtain ⟨h₁, hΓ₁, -⟩ := ht₁.accepted hR hΓ
    obtain ⟨h₂, hΓ₂, -⟩ := ht₂.accepted hR hΓ₁
    have hq := operatorResult_binary.2 hop
    rw [checkExpr, andThen_run h₁, andThen_run h₂, ask_run (by rw [hq]; rfl)]
    exact .conclude hp hΓ₂ (operatorResult_isData hq) _
  | _, _, _, _, .assign ht₁ ht₂ hp, s, hΓ => by
    obtain ⟨h₁, hΓ₁, -⟩ := ht₁.accepted hR hΓ
    obtain ⟨h₂, hΓ₂, hd⟩ := ht₂.accepted hR hΓ₁
    rw [checkExpr, if_pos (isVariable_iff.2 ⟨_, _, rfl⟩), andThen_run h₁, andThen_run h₂, if_pos rfl]
    exact .conclude hp hΓ₂ hd _
  | _, _, _, _, .ifThen ht₁ ht₂ hp, s, hΓ => by
    obtain ⟨h₁, hΓ₁, -⟩ := ht₁.accepted hR hΓ
    obtain ⟨h₂, hΓ₂, -⟩ := ht₂.accepted hR hΓ₁
    have hc := ensure_run h₁ (demandCondition_bool _)
    rw [checkExpr, andThen_run (hc ▸ h₁), hc, andThen_run h₂]
    exact .conclude hp hΓ₂ rfl _
  | _, _, _, _, .ifElse ht₁ ht₂ ht₃ hp, s, hΓ => by
    obtain ⟨h₁, hΓ₁, -⟩ := ht₁.accepted hR hΓ
    obtain ⟨h₂, hΓ₂, -⟩ := ht₂.accepted hR hΓ₁
    obtain ⟨h₃, hΓ₃, hd⟩ := ht₃.accepted hR hΓ₂
    have hc := ensure_run h₁ (demandCondition_bool _)
    rw [checkExpr, andThen_run (hc ▸ h₁), hc, andThen_run h₂, andThen_run h₃, if_pos rfl]
    exact .conclude hp hΓ₃ hd _
  | _, _, _, _, .loop ht₁ ht₂ hp, s, hΓ => by
    obtain ⟨h₁, hΓ₁, -⟩ := ht₁.accepted hR hΓ
    obtain ⟨h₂, hΓ₂, -⟩ := ht₂.accepted hR hΓ₁
    have hc := ensure_run h₁ (demandCondition_bool _)
    rw [checkExpr, andThen_run (hc ▸ h₁), hc, andThen_run h₂]
    exact .conclude hp hΓ₂ rfl _
  | _, _, _, _, .block ht hp, s, hΓ => by
    obtain ⟨h₁, hΓ₁, hd⟩ := ht.accepted hR hΓ.push rfl
    have hin := inScope_run h₁
    rw [checkExpr, andThen_run (by rw [hin]), hin]
    exact .conclude hp hΓ₁.close hd _
  | _, _, _, _, .declare (x := x) ht hw hx hp, s, hΓ => by
    obtain ⟨h₁, hΓ₁, hd⟩ := ht.accepted hR hΓ
    obtain ⟨s', hdecl, hΓ₂⟩ := hΓ₁.declare hx hd
    rw [checkExpr, andThen_run h₁, ask_run (by rw [initialType_of_written x.text hw]; rfl),
      declaring_run hdecl]
    exact .conclude hp hΓ₂ rfl _
  | _, _, _, _, .call (f := f) hx hc ht hp, s, hΓ => by
    obtain ⟨h₁, hΓ₁⟩ := ht.accepted hR hΓ
    have hq := callSignature_run ((hΓ.calleeSignature_iff hR).2 ⟨hx, hc⟩) ht.length_eq
    rw [checkExpr, ask_run (by rw [hq]; rfl), andThen_run h₁]
    exact .conclude hp hΓ₁ (hR.result_isData f _ hc) _
  | _, _, _, _, .leave hρ hp, s, hΓ => by
    rw [checkExpr, ask_run (by rw [returnType_self hρ]; rfl)]
    exact .conclude hp hΓ rfl _
  | _, _, _, _, .leaveWith hρ ht hp, s, hΓ => by
    obtain ⟨h₁, hΓ₁, hd⟩ := ht.accepted hR hΓ
    rw [checkExpr, if_pos (by rw [hρ]; rfl), andThen_run h₁,
      ask_run (by rw [returnType_self hρ]; rfl)]
    exact .conclude hp hΓ₁ hd _

theorem StatementsHaveType.accepted (hR : Root callable root) :
    ∀ {Γ Γ' : Stack Ty} {es : List Expr} {τ₀ τ : Ty}, StatementsHaveType Permits callable ρ? Γ es τ₀ τ Γ' →
      ∀ {s : Scopes}, Holds root Γ s → τ₀.isData = true →
        (checkStatements ρ? es τ₀ s).outcome = .ok τ ∧
        Holds root Γ' (checkStatements ρ? es τ₀ s).scopes ∧ τ.isData = true
  | _, _, _, _, _, .nil, s, hΓ, hd => by rw [checkStatements]; exact ⟨rfl, hΓ, hd⟩
  | _, _, _, _, _, .cons ht hts, s, hΓ, _ => by
    obtain ⟨h₁, hΓ₁, hd₁⟩ := ht.accepted hR hΓ
    rw [checkStatements, andThen_run h₁]
    exact hts.accepted hR hΓ₁ hd₁

theorem ArgumentsHaveType.accepted (hR : Root callable root) :
    ∀ {Γ Γ' : Stack Ty} {es : List Expr} {τs : List Ty}, ArgumentsHaveType Permits callable ρ? Γ es τs Γ' →
      ∀ {s : Scopes}, Holds root Γ s →
        (checkArguments ρ? es τs s).outcome = .ok () ∧ Holds root Γ' (checkArguments ρ? es τs s).scopes
  | _, _, _, _, .nil, s, hΓ => by rw [checkArguments]; exact ⟨rfl, hΓ⟩; simp
  | _, _, _, _, .cons ht hts, s, hΓ => by
    obtain ⟨h₁, hΓ₁, -⟩ := ht.accepted hR hΓ
    have hc := ensure_run h₁ (demandArgument_self _ _)
    rw [checkArguments, andThen_run (hc ▸ h₁), hc]
    exact hts.accepted hR hΓ₁

end

end

end Exprc.Typing

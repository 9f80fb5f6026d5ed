/-
Checking and lowering agree. The checker and the lowering keep scopes of their own; as long as both
hold the same variables (`Agrees`), a tree that the checker accepts lowers to a fragment by the rules
of `Lowers`, and both hold the same variables again. The one thing that can go wrong is a loop
control outside of every loop, and then the first one is to blame.
-/
import Exprc.Proofs.Lowering.Derivation
import Exprc.Proofs.Scope.Stack

namespace Exprc.Syntax.Expr

mutual

/-- The first loop control in the order of evaluation that is not in the body of a loop; its place
and what it is. `inLoop` tells whether the expression itself is in the body of a loop. -/
def misplaced? (inLoop : Bool) : Expr → Option (Location × LoopControl)
  | int .. | bool .. | unit .. | name .. | leave .. => none
  | unary _ _ e | declare _ _ _ e | leaveWith _ e => misplaced? inLoop e
  | assign _ _ _ value => misplaced? inLoop value
  | binary _ _ _ lhs rhs => (misplaced? inLoop lhs).or (misplaced? inLoop rhs)
  | ifThen _ c t => (misplaced? inLoop c).or (misplaced? inLoop t)
  | ifElse _ c t e =>
    ((misplaced? inLoop c).or (misplaced? inLoop t)).or (misplaced? inLoop e)
  | loop _ c b => (misplaced? inLoop c).or (misplaced? true b)
  | block _ es | call _ _ es => misplacedAmong? inLoop es
  | control n c => if inLoop then none else some (n.location, c)

/-- The first misplaced loop control in a list of expressions. -/
def misplacedAmong? (inLoop : Bool) : List Expr → Option (Location × LoopControl)
  | [] => none
  | e :: es => (misplaced? inLoop e).or (misplacedAmong? inLoop es)

end

end Exprc.Syntax.Expr

namespace Exprc.Lowering

open Syntax IR Typing
open Checker (andThen_ok ask_ok declaring_ok ensure_ok inScope_ok)

/-! ## Steps of lowering -/

section Steps

variable {α β : Type}

theorem run_throw (fault : Fault LowerError) (L : State) :
    (throw fault : Lower α) L = .error fault := rfl

theorem run_bind_ok {x : Lower α} {next : α → Lower β} {L L' : State} {a : α}
    (h : x L = .ok (a, L')) : (x >>= next) L = next a L' := by
  simp only [bind, StateT.bind, h, Except.bind]

theorem run_bind_error {x : Lower α} {next : α → Lower β} {L : State} {fault : Fault LowerError}
    (h : x L = .error fault) : (x >>= next) L = .error fault := by
  simp only [bind, StateT.bind, h, Except.bind]

theorem run_get (next : State → Lower α) (L : State) : (get >>= next) L = next L L := rfl

theorem run_modify (f : State → State) (next : Unit → Lower α) (L : State) :
    (modify f >>= next) L = next () (f L) := rfl

theorem run_freshTemp (L : State) :
    freshTemp L = .ok (.temp L.nextTemp, { L with nextTemp := L.nextTemp + 1 }) := rfl

theorem run_freshLabel (L : State) :
    freshLabel L = .ok (⟨L.nextLabel⟩, { L with nextLabel := L.nextLabel + 1 }) := rfl

theorem run_typeOf {n : Note} {τ : Ty} (h : n.ty? = some τ) (L : State) :
    typeOf n L = .ok (τ, L) := by
  unfold typeOf; rw [h]; rfl

theorem run_resolve_value {x : String} {v : Var} {L : State} (l : Location)
    (h : L.scopes.resolve? x = some (.value v)) : resolve x l L = .ok (v, L) := by
  unfold resolve
  rw [run_get, h]; rfl

theorem run_resolve_builtin {x : String} {b : Builtin} {L : State} (l : Location)
    (h : L.scopes.resolve? x = some (.builtin b)) : resolve x l L = .ok (.named b.name, L) := by
  unfold resolve
  rw [run_get, h]; rfl

theorem run_declare {x : String} {v : Var} {fault : Fault LowerError} {L : State}
    {scopes : ScopeChain (Binding Var)} (h : L.scopes.declare? x (.value v) = some scopes) :
    declare x v fault L = .ok ((), { L with scopes }) := by
  unfold declare
  rw [run_get, h]; rfl

theorem run_declareOwned {x : Name} {v : Var} {L : State} {scopes : ScopeChain (Binding Var)}
    (h : L.scopes.declare? x.text (.value v) = some scopes) :
    declareOwned x v L = .ok ((), { L with scopes, owned := v :: L.owned }) := by
  unfold declareOwned
  rw [run_bind_ok (run_declare h)]; rfl

theorem run_inScope_ok {lower : Lower α} {L L' : State} {a : α}
    (h : lower { L with scopes := L.scopes.push } = .ok (a, L')) :
    inScope lower L = .ok (a, { L' with scopes := L'.scopes.close }) := by
  unfold inScope
  rw [run_modify, run_bind_ok h]; rfl

theorem run_inScope_error {lower : Lower α} {L : State} {fault : Fault LowerError}
    (h : lower { L with scopes := L.scopes.push } = .error fault) :
    inScope lower L = .error fault := by
  unfold inScope
  rw [run_modify, run_bind_error h]

theorem run_applyOperator (location : Location) (b : Builtin) (fs : List Fragment) (L : State) :
    applyOperator location b fs L =
      .ok (⟨fs.flatMap (·.code)
        ++ emit location [.call (.named b.name) (fs.map (·.value)) (.temp L.nextTemp)],
        .temp L.nextTemp⟩, { L with nextTemp := L.nextTemp + 1 }) := rfl

end Steps

/-! ## Scopes that agree -/

/-- What names mean where no variable is in scope: the checker and the lowering know the same
functions and built-in functions. -/
structure Roots (sig : String → Option Signature) (types : List (String × Binding Ty))
    (vars : List (String × Binding Var)) : Prop where
  agree : ∀ x : String,
    (types.lookup x = none ∧ vars.lookup x = none) ∨
    (∃ b : Builtin, b.name = x ∧ types.lookup x = some (.builtin b) ∧
      vars.lookup x = some (.builtin b) ∧ sig x = b.signature?) ∨
    ∃ σ : Signature, types.lookup x = some (.value σ.ty) ∧ vars.lookup x = some (.value (.named x)) ∧
      sig x = some σ
  result_isData : ∀ x σ, sig x = some σ → σ.result.isData = true

/-- The stack of a chain that holds given variables, each bound as `f` says. What the innermost scope
of all holds besides is `root`. -/
def Locals.stack {β : Type} (f : Local → β) (root : List (String × β)) : Locals → Stack β
  | [] => [root]
  | [frame] => [frame.map (fun l => (l.name, f l)) ++ root]
  | frame :: below => frame.map (fun l => (l.name, f l)) :: Locals.stack f root below

section Locals

variable {β : Type} (f : Local → β) (root : List (String × β))

theorem Locals.stack_cons {Δ : Locals} (h : Δ ≠ []) (frame : List Local) :
    Locals.stack f root (frame :: Δ) =
      frame.map (fun l => (l.name, f l)) :: Locals.stack f root Δ := by
  cases Δ with
  | nil => exact absurd rfl h
  | cons => rfl

/-- Each variable is bound in its own block. -/
theorem Locals.stack_bind {Δ : Locals} (h : Δ ≠ []) {top : List (String × β)} {below : Stack β}
    (hs : Locals.stack f root Δ = top :: below) (l : Local) :
    Locals.stack f root (Δ.bind l) = ((l.name, f l) :: top) :: below := by
  obtain ⟨frame, rest, rfl⟩ := List.exists_cons_of_ne_nil h
  cases rest with
  | nil => simp_all [Locals.stack, Locals.bind]
  | cons => simp_all [Locals.stack, Locals.bind]

/-- A name means the variable that it stands for, or else what it means in the root. -/
theorem Locals.find?_stack (x : String) :
    ∀ Δ : Locals, (Locals.stack f root Δ).find? x = ((Δ.find? x).map f).or (root.lookup x)
  | [] => by simp [Locals.stack, Stack.find?_cons, Stack.find?_nil, Locals.find?_nil]
  | [frame] => by
    rw [Locals.stack, Stack.find?_cons, Stack.find?_nil, lookup_map_append, Locals.find?_cons,
      Locals.find?_nil, Option.or_none, Option.or_none]
  | frame :: frame' :: below => by
    have h := lookup_map_append Local.name f frame [] x
    rw [List.append_nil, List.lookup_nil, Option.or_none] at h
    rw [Locals.stack_cons f root (List.cons_ne_nil _ _), Stack.find?_cons,
      Locals.find?_stack x (frame' :: below), h, Locals.find?_cons frame (frame' :: below),
      Option.map_or, Option.or_assoc]

end Locals

/-- The checker, the lowering and a stage hold the same variables. -/
structure Agrees (types : List (String × Binding Ty)) (vars : List (String × Binding Var))
    (s : Stage) (Γ : Scopes) (L : State) : Prop where
  isOpen : s.locals ≠ []
  types : Γ.stack = s.locals.stack (fun l => .value l.ty) types
  vars : L.scopes.stack = s.locals.stack (fun l => .value (.temp l.temp)) vars
  data : ∀ frame ∈ s.locals, ∀ l ∈ frame, l.ty.isData = true
  owned : L.owned = s.owned
  nextTemp : L.nextTemp = s.nextTemp
  nextLabel : L.nextLabel = s.nextLabel

section Names

variable {sig : String → Option Signature} {types : List (String × Binding Ty)}
  {vars : List (String × Binding Var)} {s : Stage} {Γ : Scopes} {L : State}

theorem Agrees.resolve_type (h : Agrees types vars s Γ L) (x : String) :
    Γ.resolve? x = ((s.locals.find? x).map fun l => .value l.ty).or (types.lookup x) := by
  rw [Γ.resolve?_eq, h.types, Locals.find?_stack]

theorem Agrees.resolve_var (h : Agrees types vars s Γ L) (x : String) :
    L.scopes.resolve? x =
      ((s.locals.find? x).map fun l => .value (.temp l.temp)).or (vars.lookup x) := by
  rw [L.scopes.resolve?_eq, h.vars, Locals.find?_stack]

theorem Locals.mem_of_find? {Δ : Locals} {x : String} {l : Local} (h : Δ.find? x = some l) :
    l.name = x ∧ ∃ frame ∈ Δ, l ∈ frame := by
  obtain ⟨frame, hf, hl⟩ := List.exists_of_findSome?_eq_some h
  have hx := List.find?_some hl
  exact ⟨by simpa using hx, frame, hf, List.mem_of_find?_eq_some hl⟩

/-- What the checker takes for a variable is one in scope, and lowering finds its temporary. -/
theorem Agrees.variable (hR : Roots sig types vars) (h : Agrees types vars s Γ L) {x : String}
    {τ : Ty} (hτ : variableType x (Γ.resolve? x) = .ok τ) (location : Location) :
    ∃ l : Local, s.locals.find? x = some l ∧ l.ty = τ ∧ τ.isData = true ∧
      resolve x location L = .ok (.temp l.temp, L) := by
  rw [h.resolve_type] at hτ
  cases hl : s.locals.find? x with
  | some l =>
    obtain ⟨-, frame, hf, hm⟩ := Locals.mem_of_find? hl
    have hd := h.data frame hf l hm
    rw [hl] at hτ
    have hτ' : l.ty = τ := by
      cases ht : l.ty with
      | function => rw [ht] at hd; cases hd
      | _ => simpa [variableType, ht] using hτ
    refine ⟨l, rfl, hτ', hτ' ▸ hd, run_resolve_value location ?_⟩
    rw [h.resolve_var, hl]; rfl
  | none =>
    rw [hl, Option.map_none, Option.none_or] at hτ
    rcases hR.agree x with ⟨ht, -⟩ | ⟨b, -, ht, -⟩ | ⟨σ, ht, -⟩ <;>
      simp [ht, variableType, Signature.ty] at hτ

/-- What the checker takes for a callee is no variable in scope, and lowering finds its name. -/
theorem Agrees.callee (hR : Roots sig types vars) (h : Agrees types vars s Γ L) {x : String}
    {σ : Signature} (hσ : calleeSignature x (Γ.resolve? x) = .ok σ) (location : Location) :
    s.locals.find? x = none ∧ sig x = some σ ∧ resolve x location L = .ok (.named x, L) := by
  rw [h.resolve_type] at hσ
  cases hl : s.locals.find? x with
  | some l =>
    obtain ⟨-, frame, hf, hm⟩ := Locals.mem_of_find? hl
    have hd := h.data frame hf l hm
    rw [hl] at hσ
    cases ht : l.ty with
    | function => rw [ht] at hd; cases hd
    | _ => simp [calleeSignature, ht] at hσ
  | none =>
    rw [hl, Option.map_none, Option.none_or] at hσ
    have hv := h.resolve_var x
    rw [hl, Option.map_none, Option.none_or] at hv
    rcases hR.agree x with ⟨ht, -⟩ | ⟨b, rfl, ht, hvar, hs⟩ | ⟨σ', ht, hvar, hs⟩
    · simp [ht, calleeSignature] at hσ
    · have hb : b.signature? = some σ := by
        rw [ht] at hσ
        simp only [calleeSignature] at hσ
        split at hσ
        · rename_i hb; cases hσ; exact hb
        · cases hσ
      exact ⟨rfl, hs.trans hb, run_resolve_builtin location (hv.trans hvar)⟩
    · rw [ht] at hσ
      cases hσ
      exact ⟨rfl, hs, run_resolve_value location (hv.trans hvar)⟩

theorem Agrees.withTemp (h : Agrees types vars s Γ L) (τ : Ty) :
    Agrees types vars (s.withTemp τ) Γ { L with nextTemp := L.nextTemp + 1 } :=
  { h with nextTemp := congrArg (· + 1) h.nextTemp }

theorem Agrees.withLabels (h : Agrees types vars s Γ L) (count : Nat) :
    Agrees types vars (s.withLabels count) Γ { L with nextLabel := L.nextLabel + count } :=
  { h with nextLabel := congrArg (· + count) h.nextLabel }

theorem Agrees.push (h : Agrees types vars s Γ L) :
    Agrees types vars s.enter Γ.push { L with scopes := L.scopes.push } where
  isOpen := List.cons_ne_nil _ _
  types := by
    rw [Γ.stack_push, h.types, Stage.enter, Locals.stack_cons _ _ h.isOpen]; rfl
  vars := by
    rw [L.scopes.stack_push, h.vars, Stage.enter, Locals.stack_cons _ _ h.isOpen]; rfl
  data := by
    intro frame hf l hl
    rcases List.mem_cons.1 hf with rfl | hf
    · cases hl
    · exact h.data frame hf l hl
  owned := h.owned
  nextTemp := h.nextTemp
  nextLabel := h.nextLabel

/-- A block that is not the outermost one can be closed. -/
theorem Agrees.close (h : Agrees types vars s Γ L) {frame : List Local} {below : Locals}
    (hs : s.locals = frame :: below) (hb : below ≠ []) :
    Agrees types vars s.leave Γ.close { L with scopes := L.scopes.close } := by
  have hl : s.leave.locals = below := by rw [Stage.leave, hs]; rfl
  obtain ⟨frame', below', rfl⟩ := List.exists_cons_of_ne_nil hb
  have ht := h.types
  have hv := h.vars
  rw [hs, Locals.stack_cons _ _ hb] at ht hv
  refine ⟨by rw [hl]; exact hb, ?_, ?_, ?_, h.owned, h.nextTemp, h.nextLabel⟩
  · rw [hl]
    cases below' with
    | nil => exact ScopeChain.stack_close ht
    | cons => exact ScopeChain.stack_close ht
  · rw [hl]
    cases below' with
    | nil => exact ScopeChain.stack_close hv
    | cons => exact ScopeChain.stack_close hv
  · rw [hl]
    exact fun fr hfr l hm => h.data fr (by rw [hs]; exact List.mem_cons_of_mem _ hfr) l hm

/-- Where a name is free for the checker it is free for lowering. -/
theorem Agrees.free_iff (hR : Roots sig types vars) (h : Agrees types vars s Γ L) {x : String}
    {top : List (String × Binding Ty)} {below : Stack (Binding Ty)}
    {top' : List (String × Binding Var)} {below' : Stack (Binding Var)}
    (ht : Γ.stack = top :: below) (hv : L.scopes.stack = top' :: below') :
    top.lookup x = none ↔ top'.lookup x = none := by
  obtain ⟨frame, rest, hs⟩ := List.exists_cons_of_ne_nil h.isOpen
  have ht' := ht.symm.trans h.types
  have hv' := hv.symm.trans h.vars
  rw [hs] at ht' hv'
  cases rest with
  | nil =>
    obtain rfl := (List.cons.inj ht').1
    obtain rfl := (List.cons.inj hv').1
    rw [lookup_map_append, lookup_map_append]
    have hroot : types.lookup x = none ↔ vars.lookup x = none := by
      rcases hR.agree x with ⟨h₁, h₂⟩ | ⟨_, -, h₁, h₂, -⟩ | ⟨_, h₁, h₂, -⟩ <;> simp [h₁, h₂]
    simp [hroot]
  | cons =>
    rw [Locals.stack_cons _ _ (List.cons_ne_nil _ _)] at ht' hv'
    obtain rfl := (List.cons.inj ht').1
    obtain rfl := (List.cons.inj hv').1
    have h₁ := lookup_map_append Local.name (fun l => (.value l.ty : Binding Ty)) frame [] x
    have h₂ := lookup_map_append Local.name (fun l => (.value (.temp l.temp) : Binding Var)) frame [] x
    rw [List.append_nil] at h₁ h₂
    rw [h₁, h₂]
    simp

/-- What the checker declares, lowering can declare, and both hold it then. -/
theorem Agrees.declare (hR : Roots sig types vars) (h : Agrees types vars s Γ L) {x : String}
    {τ : Ty} {Γ' : Scopes} (hd : Γ.declare? x (.value τ) = some Γ') (hτ : τ.isData = true) :
    ∃ scopes, L.scopes.declare? x (.value (.temp L.nextTemp)) = some scopes ∧
      Agrees types vars (s.declare x τ) Γ'
        { L with nextTemp := L.nextTemp + 1, scopes, owned := .temp L.nextTemp :: L.owned } := by
  obtain ⟨top, below, ht, hfree, ht'⟩ := ScopeChain.declare?_eq_some hd
  cases hv : L.scopes.declare? x (.value (.temp L.nextTemp)) with
  | none =>
    obtain ⟨top', below', hv', hbound⟩ := ScopeChain.declare?_eq_none hv
    rw [(h.free_iff hR ht hv').1 hfree] at hbound
    cases hbound
  | some scopes =>
    obtain ⟨top', below', hvs, -, hvs'⟩ := ScopeChain.declare?_eq_some hv
    refine ⟨scopes, rfl, ?_⟩
    constructor
    · obtain ⟨frame, rest, hs⟩ := List.exists_cons_of_ne_nil h.isOpen
      simp [Stage.declare, hs, Locals.bind]
    · exact ht'.trans (Locals.stack_bind _ _ h.isOpen (h.types.symm.trans ht) ⟨x, s.nextTemp, τ⟩).symm
    · rw [hvs', h.nextTemp]
      exact (Locals.stack_bind _ _ h.isOpen (h.vars.symm.trans hvs) ⟨x, s.nextTemp, τ⟩).symm
    · obtain ⟨frame, rest, hs⟩ := List.exists_cons_of_ne_nil h.isOpen
      have hdata := h.data
      simp only [Stage.declare, hs, Locals.bind, List.forall_mem_cons] at hdata ⊢
      exact ⟨⟨hτ, hdata.1⟩, hdata.2⟩
    · exact congrArg₂ (fun n o => Var.temp n :: o) h.nextTemp h.owned
    · exact congrArg (· + 1) h.nextTemp
    · exact h.nextLabel

theorem Agrees.mergeTarget (h : Agrees types vars s Γ L) (location : Location) (τ : Ty) (v : Var) :
    ∃ f L' s', mergeTarget location v L = .ok (f, L') ∧ Merges location τ s v f s' ∧
      Agrees types vars s' Γ L' := by
  unfold Lowering.mergeTarget
  by_cases hv : v.isTemp = true ∧ v ∉ s.owned
  · refine ⟨⟨[], v⟩, L, s, ?_, .reuse hv.1 hv.2, h⟩
    rw [run_get, if_pos (by simpa [h.owned] using hv)]; rfl
  · refine ⟨_, _, s.withTemp τ, ?_, .copy hv, h.withTemp τ⟩
    rw [run_get, if_neg (by simpa [h.owned] using hv),
      run_bind_ok (run_freshTemp L), h.nextTemp]; rfl

end Names

/-! ## Expressions -/

/-- How lowering something that was checked can go: it blames a misplaced loop control, or if there
is none it succeeds with something good. -/
def Elaborated {α : Type} (misplaced? : Option (Location × LoopControl))
    (run : Except (Fault LowerError) (α × State)) (good : α → State → Prop) : Prop :=
  match misplaced? with
  | some (location, c) => run = .error (.at location (.controlOutsideLoop c))
  | none => ∃ a L, run = .ok (a, L) ∧ good a L

namespace Elaborated

variable {α β : Type} {good : α → State → Prop} {good' : β → State → Prop}
  {m m' : Option (Location × LoopControl)} {x : Lower α} {next : α → Lower β} {L L' : State} {a : α}

theorem pure (h : good a L) : Elaborated none ((Pure.pure a : Lower α) L) good :=
  ⟨a, L, rfl, h⟩

/-- A step that lowers nothing. -/
theorem step (hx : x L = .ok (a, L')) (h : Elaborated m (next a L') good') :
    Elaborated m ((x >>= next) L) good' := by
  rw [run_bind_ok hx]; exact h

/-- What is lowered first is to blame first. -/
theorem bind (hx : Elaborated m (x L) good)
    (h : ∀ a L', good a L' → Elaborated m' (next a L') good') :
    Elaborated (m.or m') ((x >>= next) L) good' := by
  cases m with
  | some p => exact run_bind_error hx
  | none =>
    obtain ⟨a, L', ha, hg⟩ := hx
    exact step ha (h a L' hg)

/-- The last part that is lowered. -/
theorem last (hx : Elaborated m (x L) good)
    (h : ∀ a L', good a L' → ∃ b L'', next a L' = .ok (b, L'') ∧ good' b L'') :
    Elaborated m ((x >>= next) L) good' := by
  rw [← Option.or_none (o := m)]
  exact hx.bind h

theorem inScope {good' : α → State → Prop}
    (hx : Elaborated m (x { L with scopes := L.scopes.push }) good)
    (h : ∀ a L', good a L' → good' a { L' with scopes := L'.scopes.close }) :
    Elaborated m (Lowering.inScope x L) good' := by
  cases m with
  | some p => exact run_inScope_error hx
  | none =>
    obtain ⟨a, L', ha, hg⟩ := hx
    exact ⟨a, _, run_inScope_ok ha, h a L' hg⟩

end Elaborated

/-- The operators that skip their right operand are those on booleans. -/
theorem operatorResult_shortCircuit {op : BinaryOp} (hop : op.isShortCircuit = true)
    {τ₁ τ₂ τ : Ty} (h : operatorResult op.builtin [τ₁, τ₂] = .ok τ) :
    τ₁ = .bool ∧ τ₂ = .bool ∧ τ = .bool := by
  have hb : op.builtin.signature? = some ⟨[.bool, .bool], .bool⟩ := by
    cases op <;> first | rfl | cases hop
  simp only [operatorResult, hb] at h
  split at h
  · rename_i he
    cases h; cases he; exact ⟨rfl, rfl, rfl⟩
  · cases h

section Elaboration

variable {sig : String → Option Signature} {types : List (String × Binding Ty)}
  {vars : List (String × Binding Var)}

/-- What comes of lowering an expression that was checked. -/
def Made (sig : String → Option Signature) (types : List (String × Binding Ty))
    (vars : List (String × Binding Var)) (ρ? : Option Ty) (loop? : Option LoopLabels) (s : Stage)
    (c : Checked Expr Ty) (τ : Ty) (f : Fragment) (L : State) : Prop :=
  ∃ s', Lowers sig ρ? loop? s c.tree τ f s' ∧ Agrees types vars s' c.scopes L ∧ τ.isData = true ∧
    c.tree.ty? = some τ

mutual

/-- A checked expression lowers by the rules, or has a misplaced loop control. -/
theorem elaborateExpr (hR : Roots sig types vars) (ρ? : Option Ty) :
    ∀ (e : Expr) (loop? : Option LoopLabels) {s : Stage} {Γ : Scopes} {L : State} {τ : Ty},
      Agrees types vars s Γ L → (checkExpr ρ? e Γ).outcome = .ok τ →
      Elaborated ((checkExpr ρ? e Γ).tree.misplaced? loop?.isSome)
        (lowerExpr loop? (checkExpr ρ? e Γ).tree L)
        (Made sig types vars ρ? loop? s (checkExpr ρ? e Γ) τ)
  | .int n value, loop?, s, Γ, L, τ, hA, h => by
    rw [checkExpr] at h ⊢
    obtain ⟨rfl, n', hn, -, he⟩ := conclude_ok h
    rw [he, Expr.misplaced?, lowerExpr]
    refine .step (run_freshTemp L) (.pure ⟨s.withTemp .int, ?_, hA.withTemp .int, rfl, hn⟩)
    rw [hA.nextTemp]; exact .int
  | .bool n value, loop?, s, Γ, L, τ, hA, h => by
    rw [checkExpr] at h ⊢
    obtain ⟨rfl, n', hn, -, he⟩ := conclude_ok h
    rw [he, Expr.misplaced?, lowerExpr]
    refine .step (run_freshTemp L) (.pure ⟨s.withTemp .bool, ?_, hA.withTemp .bool, rfl, hn⟩)
    rw [hA.nextTemp]; exact .bool
  | .unit n, loop?, s, Γ, L, τ, hA, h => by
    rw [checkExpr] at h ⊢
    obtain ⟨rfl, n', hn, -, he⟩ := conclude_ok h
    rw [he, Expr.misplaced?, lowerExpr]
    exact .pure ⟨s, .unit, hA, rfl, hn⟩
  | .name n x, loop?, s, Γ, L, τ, hA, h => by
    rw [checkExpr] at h ⊢
    obtain ⟨υ, hq, he⟩ := ask_ok h
    rw [he] at h ⊢
    obtain ⟨rfl, n', hn, -, he⟩ := conclude_ok h
    rw [he, Expr.misplaced?, lowerExpr]
    obtain ⟨l, hl, rfl, hd, hr⟩ := hA.variable hR (blame_ok hq) n'.location
    exact .step hr (.pure ⟨s, .name hl, hA, hd, hn⟩)
  | .unary n op e, loop?, s, Γ, L, τ, hA, h => by
    rw [checkExpr] at h ⊢
    obtain ⟨υ, h₁, he⟩ := andThen_ok h
    rw [he] at h ⊢
    obtain ⟨ρ, hq, he⟩ := ask_ok h
    rw [he] at h ⊢
    obtain ⟨rfl, n', hn, -, he⟩ := conclude_ok h
    rw [he, Expr.misplaced?, lowerExpr]
    refine (elaborateExpr hR ρ? e loop? hA h₁).last fun f L₁ ⟨s₁, hl, hA₁, _⟩ => ?_
    refine ⟨_, _, run_applyOperator .., s₁.withTemp τ, ?_, hA₁.withTemp τ,
      operatorResult_isData (blame_ok hq), hn⟩
    rw [hA₁.nextTemp]
    exact .unary (.cons hl .nil) (blame_ok hq)
  | .binary n op l lhs rhs, loop?, s, Γ, L, τ, hA, h => by
    rw [checkExpr] at h ⊢
    obtain ⟨υ₁, h₁, he⟩ := andThen_ok h
    rw [he] at h ⊢
    obtain ⟨υ₂, h₂, he⟩ := andThen_ok h
    rw [he] at h ⊢
    obtain ⟨ρ, hq, he⟩ := ask_ok h
    rw [he] at h ⊢
    obtain ⟨rfl, n', hn, -, he⟩ := conclude_ok h
    rw [he, Expr.misplaced?, lowerExpr]
    have hq := blame_ok hq
    cases hop : op.isShortCircuit with
    | false =>
      rw [if_neg (by decide)]
      refine (elaborateExpr hR ρ? lhs loop? hA h₁).bind fun f L₁ ⟨s₁, hf, hA₁, _⟩ => ?_
      refine (elaborateExpr hR ρ? rhs loop? hA₁ h₂).last fun g L₂ ⟨s₂, hg, hA₂, _⟩ => ?_
      refine ⟨_, _, run_applyOperator .., s₂.withTemp τ, ?_, hA₂.withTemp τ, operatorResult_isData hq,
        hn⟩
      rw [hA₂.nextTemp]
      exact .binary hop (.cons hf (.cons hg .nil)) hq
    | true =>
      rw [if_pos rfl]
      obtain ⟨rfl, rfl, rfl⟩ : υ₁ = .bool ∧ υ₂ = .bool ∧ τ = .bool := operatorResult_shortCircuit hop hq
      refine .step (run_freshLabel _) (.step (run_freshLabel _) (.step (run_freshLabel _) ?_))
      refine (elaborateExpr hR ρ? lhs loop? (hA.withLabels 3) h₁).bind
        fun f L₁ ⟨s₁, hf, hA₁, _⟩ => ?_
      refine (elaborateExpr hR ρ? rhs loop? hA₁ h₂).last fun g L₂ ⟨s₂, hg, hA₂, _⟩ => ?_
      refine ⟨_, _, run_bind_ok (run_freshTemp L₂), s₂.withTemp .bool, ?_, hA₂.withTemp .bool, rfl, hn⟩
      rw [hA₂.nextTemp, hA.nextLabel]
      exact .shortCircuit hop hf hg
  | .assign n l target value, loop?, s, Γ, L, τ, hA, h => by
    rw [checkExpr] at h ⊢
    split at h
    · rename_i ht
      rw [if_pos ht]
      obtain ⟨n₀, x, rfl⟩ := isVariable_iff.1 ht
      obtain ⟨υ, h₁, he⟩ := andThen_ok h
      rw [he] at h ⊢
      rw [checkExpr] at h₁ h ⊢
      obtain ⟨υ', hq, he₁⟩ := ask_ok h₁
      rw [he₁] at h₁ h ⊢
      obtain ⟨rfl, n₁, -, -, he₁⟩ := conclude_ok h₁
      rw [he₁] at h ⊢
      obtain ⟨υ₂, h₂, he⟩ := andThen_ok h
      rw [he] at h ⊢
      split at h
      · rename_i hτ
        subst hτ
        rw [if_pos rfl]
        obtain ⟨rfl, n', hn, -, he⟩ := conclude_ok h
        rw [he, Expr.misplaced?, lowerExpr]
        obtain ⟨l, hl, rfl, hd, hr⟩ := hA.variable hR (blame_ok hq) n₁.location
        refine .step hr ?_
        refine (elaborateExpr hR ρ? value loop? hA h₂).last fun f L₁ ⟨s₁, hf, hA₁, _⟩ => ?_
        exact ⟨_, _, rfl, s₁, .assign hl hf, hA₁, hd, hn⟩
      · cases h
    · cases h
  | .ifThen n c t, loop?, s, Γ, L, τ, hA, h => by
    rw [checkExpr] at h ⊢
    obtain ⟨υ, h₀, he⟩ := andThen_ok h
    obtain ⟨h₁, hd, ht₁, hs₁⟩ := ensure_ok h₀
    obtain rfl := demandCondition_ok hd
    rw [he, ht₁, hs₁] at h ⊢
    obtain ⟨υ₂, h₂, he⟩ := andThen_ok h
    rw [he] at h ⊢
    obtain ⟨rfl, n', hn, -, he⟩ := conclude_ok h
    rw [he, Expr.misplaced?, lowerExpr]
    refine .step (run_freshLabel _) (.step (run_freshLabel _) ?_)
    refine (elaborateExpr hR ρ? c loop? (hA.withLabels 2) h₁).bind fun f L₁ ⟨s₁, hf, hA₁, _⟩ => ?_
    refine (elaborateExpr hR ρ? t loop? hA₁ h₂).last fun g L₂ ⟨s₂, hg, hA₂, _⟩ => ?_
    refine ⟨_, _, rfl, s₂, ?_, hA₂, rfl, hn⟩
    rw [hA.nextLabel]
    exact .ifThen hf hg
  | .ifElse n c t e, loop?, s, Γ, L, τ, hA, h => by
    rw [checkExpr] at h ⊢
    obtain ⟨υ, h₀, he⟩ := andThen_ok h
    obtain ⟨h₁, hd, ht₁, hs₁⟩ := ensure_ok h₀
    obtain rfl := demandCondition_ok hd
    rw [he, ht₁, hs₁] at h ⊢
    obtain ⟨υ₂, h₂, he⟩ := andThen_ok h
    rw [he] at h ⊢
    obtain ⟨υ₃, h₃, he⟩ := andThen_ok h
    rw [he] at h ⊢
    split at h
    · rename_i hυ
      subst hυ
      rw [if_pos rfl]
      obtain ⟨rfl, n', hn, -, he⟩ := conclude_ok h
      rw [he, Expr.misplaced?, lowerExpr]
      refine .step (run_typeOf hn _) ?_
      refine .step (run_freshLabel _) (.step (run_freshLabel _) (.step (run_freshLabel _) ?_))
      rw [Option.or_assoc]
      refine (elaborateExpr hR ρ? c loop? (hA.withLabels 3) h₁).bind
        fun f L₁ ⟨s₁, hf, hA₁, _⟩ => ?_
      refine (elaborateExpr hR ρ? t loop? hA₁ h₂).bind fun g L₂ ⟨s₂, hg, hA₂, hτ, _⟩ => ?_
      split
      · rename_i hunit
        obtain rfl := eq_of_beq hunit
        refine (elaborateExpr hR ρ? e loop? hA₂ h₃).last fun k L₃ ⟨s₃, hk, hA₃, _⟩ => ?_
        refine ⟨_, _, rfl, s₃, ?_, hA₃, rfl, hn⟩
        rw [hA.nextLabel]
        exact .ifElseUnit hn hf hg hk
      · rename_i hunit
        obtain ⟨m, L₃, s₃, hm, hMerge, hA₃⟩ := hA₂.mergeTarget n'.location _ g.value
        refine .step hm ?_
        refine (elaborateExpr hR ρ? e loop? hA₃ h₃).last fun k L₄ ⟨s₄, hk, hA₄, _⟩ => ?_
        refine ⟨_, _, rfl, s₄, ?_, hA₄, hτ, hn⟩
        rw [hA.nextLabel]
        exact .ifElse hn (fun h => hunit (by rw [h]; rfl)) hf hg hMerge hk
    · cases h
  | .loop n c b, loop?, s, Γ, L, τ, hA, h => by
    rw [checkExpr] at h ⊢
    obtain ⟨υ, h₀, he⟩ := andThen_ok h
    obtain ⟨h₁, hd, ht₁, hs₁⟩ := ensure_ok h₀
    obtain rfl := demandCondition_ok hd
    rw [he, ht₁, hs₁] at h ⊢
    obtain ⟨υ₂, h₂, he⟩ := andThen_ok h
    rw [he] at h ⊢
    obtain ⟨rfl, n', hn, -, he⟩ := conclude_ok h
    rw [he, Expr.misplaced?, lowerExpr]
    refine .step (run_freshLabel _) (.step (run_freshLabel _) (.step (run_freshLabel _) ?_))
    refine (elaborateExpr hR ρ? c loop? (hA.withLabels 3) h₁).bind fun f L₁ ⟨s₁, hf, hA₁, _⟩ => ?_
    refine (elaborateExpr hR ρ? b (some _) hA₁ h₂).last fun g L₂ ⟨s₂, hg, hA₂, _⟩ => ?_
    refine ⟨_, _, rfl, s₂, ?_, hA₂, rfl, hn⟩
    rw [hA.nextLabel] at hg ⊢
    exact .loop hf hg
  | .block n es, loop?, s, Γ, L, τ, hA, h => by
    rw [checkExpr] at h ⊢
    obtain ⟨υ, h₁, he⟩ := andThen_ok h
    obtain ⟨h₁, hin⟩ := inScope_ok h₁
    rw [he, hin] at h ⊢
    obtain ⟨rfl, n', hn, -, he⟩ := conclude_ok h
    rw [he, Expr.misplaced?, lowerExpr]
    refine .inScope (elaborateStatements hR ρ? es loop? hA.push .unit rfl h₁)
      fun f L₁ ⟨s₁, hf, hA₁, hd⟩ => ?_
    obtain ⟨new, hl⟩ := hf.extends.locals [] s.locals rfl
    exact ⟨s₁.leave, .block hf, hA₁.close hl hA.isOpen, hd, hn⟩
  | .declare n x written? e, loop?, s, Γ, L, τ, hA, h => by
    rw [checkExpr] at h ⊢
    obtain ⟨υ, h₁, he⟩ := andThen_ok h
    rw [he] at h ⊢
    obtain ⟨υ', hq, he⟩ := ask_ok h
    obtain rfl := initialType_ok (blame_ok hq)
    rw [he] at h ⊢
    obtain ⟨Γ', hd, he⟩ := declaring_ok h
    rw [he] at h ⊢
    obtain ⟨rfl, n', hn, -, he⟩ := conclude_ok h
    rw [he, Expr.misplaced?, lowerExpr]
    refine (elaborateExpr hR ρ? e loop? hA h₁).last fun f L₁ ⟨s₁, hf, hA₁, hυ, _⟩ => ?_
    obtain ⟨scopes, hs, hA₂⟩ := hA₁.declare hR hd hυ
    refine ⟨_, _, (run_bind_ok (run_freshTemp L₁)).trans (run_bind_ok (run_declareOwned hs)),
      s₁.declare x.text υ', ?_, hA₂, rfl, hn⟩
    rw [hA₁.nextTemp]
    exact .declare hf
  | .call n f es, loop?, s, Γ, L, τ, hA, h => by
    rw [checkExpr] at h ⊢
    obtain ⟨σ, hq, he⟩ := ask_ok h
    rw [he] at h ⊢
    obtain ⟨_, h₁, he⟩ := andThen_ok h
    rw [he] at h ⊢
    obtain ⟨rfl, n', hn, -, he⟩ := conclude_ok h
    rw [he, Expr.misplaced?, lowerExpr]
    obtain ⟨hσ, hlen⟩ := callSignature_ok (blame_ok hq)
    obtain ⟨hfree, hsig, hr⟩ := hA.callee hR hσ n'.location
    refine .step hr ?_
    refine (elaborateArguments hR ρ? es σ.parameters loop? hlen.symm hA h₁).last
      fun fs L₁ ⟨s₁, hfs, hA₁⟩ => ?_
    refine ⟨_, _, run_bind_ok (run_freshTemp L₁), s₁.withTemp σ.result, ?_, hA₁.withTemp σ.result,
      hR.result_isData f σ hsig, hn⟩
    rw [hA₁.nextTemp]
    exact .call hfree hsig hfs
  | .control n c, loop?, s, Γ, L, τ, hA, h => by
    rw [checkExpr] at h ⊢
    obtain ⟨rfl, n', hn, -, he⟩ := conclude_ok h
    rw [he, Expr.misplaced?]
    cases loop? with
    | none => rw [lowerExpr]; exact run_throw _ _
    | some labels => rw [lowerExpr]; exact .pure ⟨s, .control, hA, rfl, hn⟩
  | .leave n, loop?, s, Γ, L, τ, hA, h => by
    rw [checkExpr] at h ⊢
    obtain ⟨ρ, hq, he⟩ := ask_ok h
    obtain ⟨rfl, hρ⟩ := returnType_ok (blame_ok hq)
    rw [he] at h ⊢
    obtain ⟨rfl, n', hn, -, he⟩ := conclude_ok h
    rw [he, Expr.misplaced?, lowerExpr]
    exact .pure ⟨s, .leave hρ, hA, rfl, hn⟩
  | .leaveWith n e, loop?, s, Γ, L, τ, hA, h => by
    rw [checkExpr] at h ⊢
    split at h
    · rename_i hρ
      rw [if_pos hρ]
      obtain ⟨υ, h₁, he⟩ := andThen_ok h
      rw [he] at h ⊢
      obtain ⟨ρ, hq, he⟩ := ask_ok h
      obtain ⟨rfl, hρ⟩ := returnType_ok (blame_ok hq)
      rw [he] at h ⊢
      obtain ⟨rfl, n', hn, -, he⟩ := conclude_ok h
      rw [he, Expr.misplaced?, lowerExpr]
      refine (elaborateExpr hR ρ? e loop? hA h₁).last fun f L₁ ⟨s₁, hf, hA₁, hd, _⟩ => ?_
      exact ⟨_, _, rfl, s₁, .leaveWith hρ hf, hA₁, hd, hn⟩
    · cases h

theorem elaborateStatements (hR : Roots sig types vars) (ρ? : Option Ty) :
    ∀ (es : List Expr) (loop? : Option LoopLabels) {s : Stage} {Γ : Scopes} {L : State} {τ₀ τ : Ty},
      Agrees types vars s Γ L → (last : Var) → τ₀.isData = true →
      (checkStatements ρ? es τ₀ Γ).outcome = .ok τ →
      Elaborated (Expr.misplacedAmong? loop?.isSome (checkStatements ρ? es τ₀ Γ).tree)
        (lowerStatements loop? (checkStatements ρ? es τ₀ Γ).tree last L)
        (fun f L => ∃ s', LowersStatements sig ρ? loop? s (checkStatements ρ? es τ₀ Γ).tree τ₀ last τ f s' ∧
          Agrees types vars s' (checkStatements ρ? es τ₀ Γ).scopes L ∧ τ.isData = true)
  | [], loop?, s, Γ, L, τ₀, τ, hA, last, hd, h => by
    rw [checkStatements] at h ⊢
    cases h
    exact .pure ⟨s, .nil, hA, hd⟩
  | e :: es, loop?, s, Γ, L, τ₀, τ, hA, last, hd, h => by
    rw [checkStatements] at h ⊢
    obtain ⟨υ, h₁, he⟩ := andThen_ok h
    rw [he] at h ⊢
    change (checkStatements ρ? es υ _).outcome = .ok τ at h
    simp only [Checker.map, Expr.misplacedAmong?, lowerStatements]
    refine (elaborateExpr hR ρ? e loop? hA h₁).bind fun f L₁ ⟨s₁, hf, hA₁, hυ, _⟩ => ?_
    refine (elaborateStatements hR ρ? es loop? hA₁ f.value hυ h).last
      fun g L₂ ⟨s₂, hg, hA₂, hτ⟩ => ?_
    exact ⟨_, _, rfl, s₂, .cons hf hg, hA₂, hτ⟩

theorem elaborateArguments (hR : Roots sig types vars) (ρ? : Option Ty) :
    ∀ (es : List Expr) (τs : List Ty) (loop? : Option LoopLabels) {s : Stage} {Γ : Scopes} {L : State},
      es.length = τs.length → Agrees types vars s Γ L →
      (checkArguments ρ? es τs Γ).outcome = .ok () →
      Elaborated (Expr.misplacedAmong? loop?.isSome (checkArguments ρ? es τs Γ).tree)
        (lowerArguments loop? (checkArguments ρ? es τs Γ).tree L)
        (fun fs L => ∃ s', LowersArguments sig ρ? loop? s (checkArguments ρ? es τs Γ).tree τs fs s' ∧
          Agrees types vars s' (checkArguments ρ? es τs Γ).scopes L)
  | [], [], loop?, s, Γ, L, _, hA, h => .pure ⟨s, .nil, hA⟩
  | e :: es, τ :: τs, loop?, s, Γ, L, hlen, hA, h => by
    rw [checkArguments] at h ⊢
    obtain ⟨υ, h₀, he⟩ := andThen_ok h
    obtain ⟨h₁, hd, ht₁, hs₁⟩ := ensure_ok h₀
    obtain rfl := demandArgument_ok hd
    rw [he, ht₁, hs₁] at h ⊢
    change (checkArguments ρ? es τs _).outcome = .ok () at h
    simp only [Checker.map, Expr.misplacedAmong?, lowerArguments]
    refine (elaborateExpr hR ρ? e loop? hA h₁).bind fun f L₁ ⟨s₁, hf, hA₁, _⟩ => ?_
    refine (elaborateArguments hR ρ? es τs loop? (Nat.succ.inj hlen) hA₁ h).last
      fun fs L₂ ⟨s₂, hfs, hA₂⟩ => ?_
    exact ⟨_, _, rfl, s₂, .cons hf hfs, hA₂⟩

end

end Elaboration

end Exprc.Lowering

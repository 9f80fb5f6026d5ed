/-
Lowering as a traversal: in which scopes it lowers each expression of a module. What it does before the parts
of an expression and between them, it does to numbers, labels and copies, but for the scope that a block opens.
-/
import Exprc.Proofs.Lowering.Elaboration
import Exprc.Proofs.Resolution.Traversal

namespace Exprc

/-- How code refers to what a name is bound to. -/
def Binding.inCode : Binding IR.Var → IR.Var
  | .builtin b => .named b.name
  | .value v => v

namespace Lowering

open Syntax IR
open Traversal (Closing)

/-! ## What a successful step has done -/

section

variable {α β : Type} {L L' : State}

theorem bind_ok {x : Lower α} {next : α → Lower β} {b : β} (h : (x >>= next) L = .ok (b, L')) :
    ∃ a L₁, x L = .ok (a, L₁) ∧ next a L₁ = .ok (b, L') := by
  cases hx : x L with
  | error fault =>
    rw [run_bind_error hx] at h
    cases h
  | ok r =>
    exact ⟨r.1, r.2, rfl, (run_bind_ok hx).symm.trans h⟩

theorem pure_ok {a b : α} (h : (pure a : Lower α) L = .ok (b, L')) : a = b ∧ L = L' := by
  cases h
  exact ⟨rfl, rfl⟩

theorem typeOf_ok {n : Note} {τ : Ty} (h : typeOf n L = .ok (τ, L')) : n.ty? = some τ ∧ L' = L := by
  unfold typeOf at h
  cases hn : n.ty? with
  | none =>
    rw [hn] at h
    cases h
  | some υ =>
    rw [hn] at h
    cases h
    exact ⟨rfl, rfl⟩

theorem resolve_ok {x : String} {l : Location} {v : Var} (h : resolve x l L = .ok (v, L')) :
    (∃ b, L.scopes.resolve? x = some b ∧ v = b.inCode) ∧ L' = L := by
  unfold resolve at h
  rw [run_get] at h
  rcases hx : L.scopes.resolve? x with _ | b | w <;> rw [hx] at h <;> cases h
  · exact ⟨⟨.builtin b, rfl, rfl⟩, rfl⟩
  · exact ⟨⟨.value v, rfl, rfl⟩, rfl⟩

theorem declare_ok {x : String} {v : Var} {fault : Fault LowerError}
    (h : declare x v fault L = .ok ((), L')) : L.scopes.declare? x (.value v) = some L'.scopes := by
  unfold declare at h
  rw [run_get] at h
  cases hd : L.scopes.declare? x (.value v) with
  | none =>
    rw [hd] at h
    cases h
  | some scopes =>
    rw [hd] at h
    cases h
    rfl

theorem declareOwned_ok {x : Name} {v : Var} (h : declareOwned x v L = .ok ((), L')) :
    L.scopes.declare? x.text (.value v) = some L'.scopes := by
  obtain ⟨_, L₁, hdeclare, hrest⟩ := bind_ok h
  have hscopes := declare_ok hdeclare
  cases hrest
  exact hscopes

theorem scoped_ok {lower : Lower α} {a : α} (h : inScope lower L = .ok (a, L')) :
    ∃ L₁, lower { L with scopes := L.scopes.push } = .ok (a, L₁) ∧
      L' = { L₁ with scopes := L₁.scopes.close } := by
  unfold inScope at h
  rw [run_modify] at h
  obtain ⟨_, L₁, hlower, hrest⟩ := bind_ok h
  cases hrest
  exact ⟨L₁, hlower, rfl⟩

theorem mergeTarget_ok {location : Location} {v : Var} {f : Fragment}
    (h : mergeTarget location v L = .ok (f, L')) : L'.scopes = L.scopes := by
  unfold mergeTarget at h
  rw [run_get] at h
  split at h <;> cases h <;> rfl

end

/-! ## Parts one after the other -/

/-- What lowering does before it lowers the first part of an expression. This tells the labels of the loop
around each part. -/
def prepare (loop? : Option LoopLabels) : Expr → Lower (Nat → Option LoopLabels)
  | .binary _ op _ _ _ => do
    if op.isShortCircuit then
      let _ ← freshLabel
      let _ ← freshLabel
      let _ ← freshLabel
      return fun _ => loop?
    else return fun _ => loop?
  | .assign _ _ target _ => do
    if Typing.isVariable target then return fun _ => loop?
    else throw (.at target.location .targetNotVariable)
  | .ifThen .. => do
    let _ ← freshLabel
    let _ ← freshLabel
    return fun _ => loop?
  | .ifElse n .. => do
    let _ ← typeOf n
    let _ ← freshLabel
    let _ ← freshLabel
    let _ ← freshLabel
    return fun _ => loop?
  | .loop .. => do
    let start ← freshLabel
    let _ ← freshLabel
    let exit ← freshLabel
    return fun i => if i = 1 then some ⟨start, exit⟩ else loop?
  | .block .. => do
    modify fun s => { s with scopes := s.scopes.push }
    return fun _ => loop?
  | .call n f _ => do
    let _ ← resolve f n.location
    return fun _ => loop?
  | _ => return fun _ => loop?

/-- What lowering does after a part of an expression, before the next one. -/
def settle : Expr → Nat → Fragment → Lower Unit
  | .ifElse n .., 1, part => do
    if (← typeOf n).isUnit then return ()
    else
      let _ ← mergeTarget n.location part.value
      return ()
  | _, _, _ => return ()

/-- Lowers some parts of an expression. -/
def lowerParts (around : Nat → Option LoopLabels) (e : Expr) : Nat → Lower Unit
  | 0 => return ()
  | i + 1 => do
    lowerParts around e i
    match e.parts[i]? with
    | some a => settle e i (← lowerExpr (around i) a)
    | none => return ()

/-- What lowering an expression does before it lowers one of its parts. -/
def approach (loop? : Option LoopLabels) (e : Expr) (i : Nat) : Lower (Option LoopLabels) := do
  let around ← prepare loop? e
  lowerParts around e i
  return around i

section

variable {loop? inner? : Option LoopLabels} {around : Nat → Option LoopLabels} {e a : Expr} {i : Nat}
  {L L' L₁ L₂ L₃ : State} {f : Fragment}

theorem prepare_scopes (h : prepare loop? e L = .ok (around, L₁)) :
    L₁.scopes = if e.opensScope then L.scopes.push else L.scopes := by
  cases e with
  | binary _ op =>
    rw [prepare] at h
    split at h <;> cases h <;> rfl
  | assign _ _ target =>
    rw [prepare] at h
    split at h
    · cases h
      rfl
    · cases h
  | ifElse n =>
    obtain ⟨τ, L₀, htype, hrest⟩ := bind_ok h
    obtain ⟨-, rfl⟩ := typeOf_ok htype
    cases hrest
    rfl
  | call n g =>
    obtain ⟨v, L₀, hresolve, hrest⟩ := bind_ok h
    obtain ⟨-, rfl⟩ := resolve_ok hresolve
    cases hrest
    rfl
  | _ =>
    cases h
    rfl

theorem settle_scopes (h : settle e i f L = .ok ((), L₁)) : L₁.scopes = L.scopes := by
  unfold settle at h
  split at h
  · obtain ⟨τ, L₀, htype, hrest⟩ := bind_ok h
    obtain ⟨-, rfl⟩ := typeOf_ok htype
    split at hrest
    · cases hrest
      rfl
    · obtain ⟨g, L₂, hmerge, hpure⟩ := bind_ok hrest
      cases hpure
      exact mergeTarget_ok hmerge
  · cases h
    rfl

theorem approach_ok (h : approach loop? e i L = .ok (inner?, L')) :
    ∃ around L₁, prepare loop? e L = .ok (around, L₁) ∧ lowerParts around e i L₁ = .ok ((), L') ∧
      around i = inner? := by
  obtain ⟨around, L₁, hprepare, hrest⟩ := bind_ok h
  obtain ⟨_, L₂, hparts, hpure⟩ := bind_ok hrest
  obtain ⟨hinner, rfl⟩ := pure_ok hpure
  exact ⟨around, L₁, hprepare, hparts, hinner⟩

theorem lowerParts_ok (h : lowerParts around e (i + 1) L = .ok ((), L')) (ha : e.parts[i]? = some a) :
    ∃ L₁ f L₂, lowerParts around e i L = .ok ((), L₁) ∧ lowerExpr (around i) a L₁ = .ok (f, L₂) ∧
      settle e i f L₂ = .ok ((), L') := by
  obtain ⟨_, L₁, hbefore, hrest⟩ := bind_ok h
  rw [ha] at hrest
  obtain ⟨f, L₂, hpart, hsettle⟩ := bind_ok hrest
  exact ⟨L₁, f, L₂, hbefore, hpart, hsettle⟩

theorem approach_run (hprepare : prepare loop? e L = .ok (around, L₁))
    (hparts : lowerParts around e i L₁ = .ok ((), L₂)) : approach loop? e i L = .ok (around i, L₂) := by
  rw [approach, run_bind_ok hprepare, run_bind_ok hparts]
  rfl

theorem lowerParts_run (hparts : lowerParts around e i L = .ok ((), L₁)) (ha : e.parts[i]? = some a)
    (haround : around i = loop?) (hpart : lowerExpr loop? a L₁ = .ok (f, L₂))
    (hsettle : settle e i f L₂ = .ok ((), L₃)) : lowerParts around e (i + 1) L = .ok ((), L₃) := by
  rw [lowerParts, run_bind_ok hparts, ha]
  subst haround
  exact (run_bind_ok hpart).trans hsettle

theorem lowerStatements_parts (hsettle : ∀ i f L, settle e i f L = .ok ((), L)) :
    ∀ (es before : List Expr) {L₁ L₂ : State} {last : Var} {f : Fragment}, e.parts = before ++ es →
      lowerParts (fun _ => loop?) e before.length L = .ok ((), L₁) →
      lowerStatements loop? es last L₁ = .ok (f, L₂) →
      lowerParts (fun _ => loop?) e e.parts.length L = .ok ((), L₂)
  | [], before, L₁, L₂, last, f, hparts, hbefore, h => by
    rw [lowerStatements] at h
    obtain ⟨-, rfl⟩ := pure_ok h
    rwa [hparts, List.append_nil]
  | a :: es, before, L₁, L₂, last, f, hparts, hbefore, h => by
    rw [lowerStatements] at h
    obtain ⟨g, L₃, ha, hrest⟩ := bind_ok h
    obtain ⟨r, L₄, hes, hpure⟩ := bind_ok hrest
    obtain ⟨-, rfl⟩ := pure_ok hpure
    refine lowerStatements_parts hsettle es (before ++ [a]) (by rw [hparts, List.append_assoc]; rfl) ?_ hes
    rw [List.length_append]
    exact lowerParts_run hbefore (by simp [hparts]) rfl ha (hsettle _ _ _)

theorem lowerArguments_parts (hsettle : ∀ i f L, settle e i f L = .ok ((), L)) :
    ∀ (es before : List Expr) {L₁ L₂ : State} {fs : List Fragment}, e.parts = before ++ es →
      lowerParts (fun _ => loop?) e before.length L = .ok ((), L₁) →
      lowerArguments loop? es L₁ = .ok (fs, L₂) →
      lowerParts (fun _ => loop?) e e.parts.length L = .ok ((), L₂)
  | [], before, L₁, L₂, fs, hparts, hbefore, h => by
    rw [lowerArguments] at h
    obtain ⟨-, rfl⟩ := pure_ok h
    rwa [hparts, List.append_nil]
  | a :: es, before, L₁, L₂, fs, hparts, hbefore, h => by
    rw [lowerArguments] at h
    obtain ⟨g, L₃, ha, hrest⟩ := bind_ok h
    obtain ⟨gs, L₄, hes, hpure⟩ := bind_ok hrest
    obtain ⟨-, rfl⟩ := pure_ok hpure
    refine lowerArguments_parts hsettle es (before ++ [a]) (by rw [hparts, List.append_assoc]; rfl) ?_ hes
    rw [List.length_append]
    exact lowerParts_run hbefore (by simp [hparts]) rfl ha (hsettle _ _ _)

end

/-- Lowering an expression lowers its parts one after the other; then the scope that was opened is closed, or
the declared name is declared. -/
theorem lowerExpr_parts {loop? : Option LoopLabels} {e : Expr} {L L' : State} {f : Fragment}
    (h : lowerExpr loop? e L = .ok (f, L')) :
    ∃ inner? L₁, approach loop? e e.parts.length L = .ok (inner?, L₁) ∧ Closing e L₁.scopes L'.scopes := by
  cases e with
  | int | bool | unit | leave =>
    rw [lowerExpr] at h
    cases h
    exact ⟨_, _, rfl, .plain rfl rfl⟩
  | control n c =>
    cases loop? with
    | none => cases h
    | some labels =>
      cases h
      exact ⟨_, _, rfl, .plain rfl rfl⟩
  | name n x =>
    rw [lowerExpr] at h
    obtain ⟨v, L₁, hresolve, hrest⟩ := bind_ok h
    obtain ⟨-, rfl⟩ := resolve_ok hresolve
    cases hrest
    exact ⟨_, _, rfl, .plain rfl rfl⟩
  | unary n op e =>
    rw [lowerExpr] at h
    obtain ⟨f₁, L₁, h₁, hrest⟩ := bind_ok h
    cases hrest
    exact ⟨_, _, approach_run rfl (lowerParts_run rfl rfl rfl h₁ rfl), .plain rfl rfl⟩
  | binary n op l lhs rhs =>
    rw [lowerExpr] at h
    split at h
    · rename_i hop
      have hprepare : prepare loop? (.binary n op l lhs rhs) L =
          .ok (fun _ => loop?, { L with nextLabel := L.nextLabel + 3 }) := by
        rw [prepare, if_pos hop]
        rfl
      iterate 3 rw [run_bind_ok (run_freshLabel _)] at h
      obtain ⟨f₁, L₁, h₁, hrest⟩ := bind_ok h
      obtain ⟨f₂, L₂, h₂, hrest⟩ := bind_ok hrest
      cases hrest
      exact ⟨_, _, approach_run hprepare
        (lowerParts_run (lowerParts_run rfl rfl rfl h₁ rfl) rfl rfl h₂ rfl), .plain rfl rfl⟩
    · rename_i hop
      have hprepare : prepare loop? (.binary n op l lhs rhs) L = .ok (fun _ => loop?, L) := by
        rw [prepare, if_neg hop]
        rfl
      obtain ⟨f₁, L₁, h₁, hrest⟩ := bind_ok h
      obtain ⟨f₂, L₂, h₂, hrest⟩ := bind_ok hrest
      cases hrest
      exact ⟨_, _, approach_run hprepare
        (lowerParts_run (lowerParts_run rfl rfl rfl h₁ rfl) rfl rfl h₂ rfl), .plain rfl rfl⟩
  | assign n l target value =>
    cases target with
    | name n x =>
      rw [lowerExpr] at h
      obtain ⟨v, L₁, hresolve, hrest⟩ := bind_ok h
      obtain ⟨f₂, L₂, h₂, hrest⟩ := bind_ok hrest
      cases hrest
      -- the target is not lowered, but resolved as if it were
      have h₁ : lowerExpr loop? (.name n x) L = .ok (⟨[], v⟩, L₁) := by
        rw [lowerExpr]
        exact run_bind_ok hresolve
      exact ⟨_, _, approach_run rfl (lowerParts_run (lowerParts_run rfl rfl rfl h₁ rfl) rfl rfl h₂ rfl),
        .plain rfl rfl⟩
    | _ => cases h
  | ifThen n c t =>
    rw [lowerExpr] at h
    iterate 2 rw [run_bind_ok (run_freshLabel _)] at h
    obtain ⟨f₁, L₁, h₁, hrest⟩ := bind_ok h
    obtain ⟨f₂, L₂, h₂, hrest⟩ := bind_ok hrest
    cases hrest
    exact ⟨_, _, approach_run rfl (lowerParts_run (lowerParts_run rfl rfl rfl h₁ rfl) rfl rfl h₂ rfl),
      .plain rfl rfl⟩
  | loop n c b =>
    rw [lowerExpr] at h
    iterate 3 rw [run_bind_ok (run_freshLabel _)] at h
    obtain ⟨f₁, L₁, h₁, hrest⟩ := bind_ok h
    obtain ⟨f₂, L₂, h₂, hrest⟩ := bind_ok hrest
    cases hrest
    exact ⟨_, _, approach_run rfl (lowerParts_run (lowerParts_run rfl rfl rfl h₁ rfl) rfl rfl h₂ rfl),
      .plain rfl rfl⟩
  | block n es =>
    rw [lowerExpr] at h
    obtain ⟨L₁, h₁, rfl⟩ := scoped_ok h
    exact ⟨_, _, approach_run rfl (lowerStatements_parts (fun _ _ _ => rfl) es [] rfl rfl h₁), .block rfl⟩
  | declare n x written? e =>
    rw [lowerExpr] at h
    obtain ⟨f₁, L₁, h₁, hrest⟩ := bind_ok h
    rw [run_bind_ok (run_freshTemp _)] at hrest
    obtain ⟨_, L₂, hdeclare, hpure⟩ := bind_ok hrest
    obtain ⟨-, rfl⟩ := pure_ok hpure
    have hscopes := declareOwned_ok hdeclare
    exact ⟨_, _, approach_run rfl (lowerParts_run rfl rfl rfl h₁ rfl), .declare rfl rfl hscopes⟩
  | call n g es =>
    rw [lowerExpr] at h
    obtain ⟨v, L₁, hresolve, hrest⟩ := bind_ok h
    obtain ⟨fs, L₂, h₂, hrest⟩ := bind_ok hrest
    obtain ⟨-, rfl⟩ := resolve_ok hresolve
    cases hrest
    exact ⟨_, _, approach_run (run_bind_ok hresolve)
      (lowerArguments_parts (fun _ _ _ => rfl) es [] rfl rfl h₂), .plain rfl rfl⟩
  | leaveWith n e =>
    rw [lowerExpr] at h
    obtain ⟨f₁, L₁, h₁, hrest⟩ := bind_ok h
    cases hrest
    exact ⟨_, _, approach_run rfl (lowerParts_run rfl rfl rfl h₁ rfl), .plain rfl rfl⟩
  | ifElse n c t e =>
    rw [lowerExpr] at h
    obtain ⟨τ, L₀, htype, hrest⟩ := bind_ok h
    obtain ⟨hτ, rfl⟩ := typeOf_ok htype
    iterate 3 rw [run_bind_ok (run_freshLabel _)] at hrest
    obtain ⟨f₁, L₁, h₁, hrest⟩ := bind_ok hrest
    obtain ⟨f₂, L₂, h₂, hrest⟩ := bind_ok hrest
    -- a conditional that has a value may copy that of the first branch before the second one is lowered
    obtain ⟨L₃, f₃, L₄, hsettle, h₃, hscopes⟩ : ∃ L₃ f₃ L₄, settle (.ifElse n c t e) 1 f₂ L₂ = .ok ((), L₃) ∧
        lowerExpr loop? e L₃ = .ok (f₃, L₄) ∧ L₄.scopes = L'.scopes := by
      rw [settle, run_bind_ok (run_typeOf hτ _)]
      split at hrest
      · rename_i hunit
        obtain ⟨f₃, L₃, h₃, hrest⟩ := bind_ok hrest
        cases hrest
        exact ⟨L₂, f₃, _, by rw [if_pos hunit]; rfl, h₃, rfl⟩
      · rename_i hunit
        obtain ⟨g, L₃, hmerge, hrest⟩ := bind_ok hrest
        obtain ⟨f₃, L₄, h₃, hrest⟩ := bind_ok hrest
        cases hrest
        exact ⟨L₃, f₃, _, by rw [if_neg hunit]; exact run_bind_ok hmerge, h₃, rfl⟩
    refine ⟨_, _, approach_run (run_bind_ok htype) (lowerParts_run
      (lowerParts_run (lowerParts_run rfl rfl rfl h₁ rfl) rfl rfl h₂ hsettle) rfl rfl h₃ rfl), ?_⟩
    rw [hscopes]
    exact .plain rfl rfl

/-! ## What names are used for -/

/-- The code of an expression refers to a variable as what the name that the expression uses stands for: its
value is there, or the last instruction writes to it or calls it. -/
def RefersTo : Expr → Var → Fragment → Prop
  | .name .., v, f => f = ⟨[], v⟩
  | .assign .., v, f => ∃ before location w, f.code = before ++ [⟨location, .copy w v⟩]
  | .call .., v, f => ∃ before location arguments target,
      f.code = before ++ [⟨location, .call v arguments target⟩]
  | _, _, _ => True

/-- The code of an expression refers to what the name that it uses means in the scopes in which lowering
begins. -/
theorem lowerExpr_use {loop? : Option LoopLabels} {e : Expr} {L L' : State} {f : Fragment} {x : String}
    {b : Binding Var} (h : lowerExpr loop? e L = .ok (f, L')) (hx : e.use? = some x)
    (hb : L.scopes.resolve? x = some b) : RefersTo e b.inCode f := by
  have hresolve : ∀ {l : Location} {v : Var} {L₁ : State}, resolve x l L = .ok (v, L₁) → v = b.inCode := by
    intro l v L₁ hv
    obtain ⟨⟨b', hb', rfl⟩, -⟩ := resolve_ok hv
    rw [Option.some.inj (hb.symm.trans hb')]
  cases e with
  | name n y =>
    obtain rfl := Option.some.inj hx
    rw [lowerExpr] at h
    obtain ⟨v, L₁, hv, hrest⟩ := bind_ok h
    cases hrest
    rw [hresolve hv]
    rfl
  | assign n l target value =>
    cases target with
    | name n' y =>
      obtain rfl := Option.some.inj hx
      rw [lowerExpr] at h
      obtain ⟨v, L₁, hv, hrest⟩ := bind_ok h
      obtain ⟨g, L₂, -, hrest⟩ := bind_ok hrest
      cases hrest
      rw [hresolve hv]
      exact ⟨g.code, n'.location, g.value, rfl⟩
    | _ => cases hx
  | call n g es =>
    obtain rfl := Option.some.inj hx
    rw [lowerExpr] at h
    obtain ⟨v, L₁, hv, hrest⟩ := bind_ok h
    obtain ⟨fs, L₂, -, hrest⟩ := bind_ok hrest
    cases hrest
    rw [hresolve hv]
    exact ⟨fs.flatMap (·.code), n.location, fs.map (·.value), .temp L₂.nextTemp, rfl⟩
  | _ => cases hx

/-! ## Lowering as a traversal -/

/-- Where lowering looks at the expressions of a module. -/
def lowering (m : Syntax.Module) : Traversal Var where
  State := Option LoopLabels × State
  scopes := fun (_, L) => L.scopes
  enter := fun (loop?, L) e i => (approach loop? e i L).toOption
  leave := fun (loop?, L) e => (lowerExpr loop? e L).toOption.map fun (_, L) => L.scopes
  root := (m.functions.forM declareFunction {}).toOption.map fun (_, L) => L.scopes
  function := fun i => do
    let f ← m.functions[i]?
    let (_, L) ← (m.functions.forM declareFunction {}).toOption
    let (_, L) ← ((m.functions.take i).mapM lowerFunction L).toOption
    let (_, L) ← (f.parameters.mapM lowerParameter { L with scopes := L.scopes.push }).toOption
    return ((none, L), f.body)
  main := do
    let (_, L) ← (m.functions.forM declareFunction {}).toOption
    let (_, L) ← (m.functions.mapM lowerFunction L).toOption
    return ((none, L), m.body)

variable {m : Syntax.Module} {loop? inner? : Option LoopLabels} {L L' : State} {e : Expr} {f : Fragment}

theorem lowering_leave_eq_some {scopes : ScopeChain (Binding Var)} :
    (lowering m).leave (loop?, L) e = some scopes ↔
      ∃ f L', lowerExpr loop? e L = .ok (f, L') ∧ L'.scopes = scopes := by
  show ((lowerExpr loop? e L).toOption.map fun r => r.2.scopes) = some scopes ↔ _
  simp [toOption_eq_some]

theorem lowering_after {i : Nat} (hi : i ≤ e.parts.length)
    (h : approach loop? e i L = .ok (inner?, L')) : (lowering m).After (loop?, L) e i L'.scopes := by
  obtain ⟨around, L₁, hprepare, hparts, -⟩ := approach_ok h
  cases i with
  | zero =>
    obtain ⟨-, rfl⟩ := pure_ok hparts
    exact prepare_scopes hprepare
  | succ i =>
    have ha := List.getElem?_eq_getElem hi
    obtain ⟨L₃, f, L₄, hbefore, hlower, hsettle⟩ := lowerParts_ok hparts ha
    refine ⟨_, (around i, L₃), ha, toOption_eq_some.2 (approach_run hprepare hbefore), ?_⟩
    exact lowering_leave_eq_some.2 ⟨f, L₄, hlower, (settle_scopes hsettle).symm⟩

theorem lowering_orderly (m : Syntax.Module) : (lowering m).Orderly where
  enter {s e i s'} hi h := lowering_after (Nat.le_of_lt hi) (toOption_eq_some.1 h)
  leave {s e scopes} h := by
    obtain ⟨f, L', hlower, rfl⟩ := lowering_leave_eq_some.1 h
    obtain ⟨inner?, L₁, happroach, hclosing⟩ := lowerExpr_parts hlower
    exact ⟨L₁.scopes, lowering_after (Nat.le_refl _) happroach, hclosing⟩

theorem lowerExpr_grows (h : lowerExpr loop? e L = .ok (f, L')) : L.scopes.Grows L'.scopes :=
  (lowering_orderly ⟨e.location, [], e⟩).grows e (lowering_leave_eq_some.2 ⟨f, L', h, rfl⟩)

/-! ## Functions -/

theorem declareFunctions_declares :
    ∀ {fs : List FunctionDefinition} {L L' : State}, fs.forM declareFunction L = .ok ((), L') →
      L.scopes.DeclaresEach (fs.map (·.name.text)) L'.scopes
  | [], L, L', h => by
    obtain ⟨-, rfl⟩ := pure_ok h
    exact .nil
  | f :: fs, L, L', h => by
    obtain ⟨_, L₁, hf, hfs⟩ := bind_ok (x := declareFunction f) h
    exact .cons (declare_ok hf) (declareFunctions_declares hfs)

theorem lowerParameters_declares :
    ∀ {ps : List Parameter} {L L' : State} {vs : List Var}, ps.mapM lowerParameter L = .ok (vs, L') →
      L.scopes.DeclaresEach (ps.map (·.name.text)) L'.scopes
  | [], L, L', vs, h => by
    obtain ⟨-, rfl⟩ := pure_ok h
    exact .nil
  | p :: ps, L, L', vs, h => by
    rw [List.mapM_cons] at h
    obtain ⟨v, L₁, hp, hrest⟩ := bind_ok h
    obtain ⟨vs', L₂, hps, hpure⟩ := bind_ok hrest
    obtain ⟨-, rfl⟩ := pure_ok hpure
    unfold lowerParameter at hp
    rw [run_bind_ok (run_freshTemp _)] at hp
    obtain ⟨_, L₃, hdeclare, hpure⟩ := bind_ok hp
    obtain ⟨-, rfl⟩ := pure_ok hpure
    have hp := declareOwned_ok hdeclare
    exact .cons hp (lowerParameters_declares hps)

/-- Lowering a function gives the parameters variables in a scope of their own, lowers the body, and closes the
scope. -/
theorem lowerFunction_body {g : FunctionDefinition} {F : Function} (h : lowerFunction g L = .ok (F, L')) :
    ∃ vs L₁ f L₂, g.parameters.mapM lowerParameter { L with scopes := L.scopes.push } = .ok (vs, L₁) ∧
      lowerExpr none g.body L₁ = .ok (f, L₂) ∧ L'.scopes = L₂.scopes.close := by
  obtain ⟨L₃, hlower, rfl⟩ := scoped_ok h
  obtain ⟨vs, L₁, hparameters, hrest⟩ := bind_ok hlower
  obtain ⟨f, L₂, hbody, hpure⟩ := bind_ok hrest
  obtain ⟨-, rfl⟩ := pure_ok hpure
  exact ⟨vs, L₁, f, L₂, hparameters, hbody, rfl⟩

theorem lowerFunction_restores {g : FunctionDefinition} {F : Function} (h : lowerFunction g L = .ok (F, L')) :
    L.scopes.Restores L'.scopes := by
  obtain ⟨vs, L₁, f, L₂, hparameters, hbody, hscopes⟩ := lowerFunction_body h
  have hdeclares := lowerParameters_declares hparameters
  obtain ⟨popped, hpop, hrestores⟩ := (hdeclares.grows.trans (lowerExpr_grows hbody)).pop
  rwa [hscopes, ScopeChain.close_eq hpop]

theorem lowerFunctions_restores :
    ∀ (gs : List FunctionDefinition) {L L' : State} {Fs : List Function},
      gs.mapM lowerFunction L = .ok (Fs, L') → L.scopes.Restores L'.scopes
  | [], L, L', Fs, h => by
    obtain ⟨-, rfl⟩ := pure_ok h
    exact .refl _
  | g :: gs, L, L', Fs, h => by
    rw [List.mapM_cons] at h
    obtain ⟨F, L₁, hg, hrest⟩ := bind_ok h
    obtain ⟨Fs', L₂, hgs, hpure⟩ := bind_ok hrest
    obtain ⟨-, rfl⟩ := pure_ok hpure
    exact (lowerFunction_restores hg).trans (lowerFunctions_restores gs hgs)

/-- If functions are lowered then some of them are lowered before each of them. -/
theorem lowerFunctions_getElem :
    ∀ (gs : List FunctionDefinition) {L L' : State} {Fs : List Function},
      gs.mapM lowerFunction L = .ok (Fs, L') →
      ∀ (i : Nat) (hi : i < gs.length), ∃ Gs L₁ F L₂, (gs.take i).mapM lowerFunction L = .ok (Gs, L₁) ∧
        lowerFunction gs[i] L₁ = .ok (F, L₂)
  | g :: gs, L, L', Fs, h, i, hi => by
    rw [List.mapM_cons] at h
    obtain ⟨F, L₁, hg, hrest⟩ := bind_ok h
    obtain ⟨Fs', L₂, hgs, hpure⟩ := bind_ok hrest
    cases i with
    | zero => exact ⟨[], L, F, L₁, rfl, hg⟩
    | succ i =>
      obtain ⟨Gs, L₃, G, L₄, hbefore, hlower⟩ :=
        lowerFunctions_getElem gs hgs i (Nat.lt_of_succ_lt_succ hi)
      refine ⟨F :: Gs, L₃, G, L₄, ?_, hlower⟩
      rw [List.take_succ_cons, List.mapM_cons, run_bind_ok hg, run_bind_ok hbefore]
      rfl

/-! ## The whole module -/

/-- The scopes of the lowering change as the shape of the module tells. -/
theorem lowering_lawful (m : Syntax.Module) : (lowering m).Lawful m where
  toOrderly := lowering_orderly m
  root {scopes} h := by
    obtain ⟨⟨_, L⟩, hroot, rfl⟩ := Option.map_eq_some_iff.1 h
    exact declareFunctions_declares (toOption_eq_some.1 hroot)
  function {i s e} h := by
    simp only [lowering, bind, Option.bind_eq_some_iff, Prod.exists] at h
    obtain ⟨f, hf, _, L₀, hroot, _, L₁, hbefore, _, L₂, hparameters, h⟩ := h
    cases h
    refine ⟨f, L₁.scopes, hf, rfl, ⟨L₀.scopes, ?_, ?_⟩,
      lowerParameters_declares (toOption_eq_some.1 hparameters)⟩
    · exact congrArg (Option.map fun r => r.2.scopes) hroot
    · exact lowerFunctions_restores _ (toOption_eq_some.1 hbefore)
  main {s e} h := by
    simp only [lowering, bind, Option.bind_eq_some_iff, Prod.exists] at h
    obtain ⟨_, L₀, hroot, _, L₁, hafter, h⟩ := h
    cases h
    refine ⟨rfl, L₀.scopes, ?_, ?_⟩
    · exact congrArg (Option.map fun r => r.2.scopes) hroot
    · exact lowerFunctions_restores _ (toOption_eq_some.1 hafter)

/-- Of a module that is lowered everything is visited. -/
theorem lowering_visits {M : IR.Module} (h : lower m = .ok M) {P : Site} {e₀ : Expr}
    (hP : m.expr? P = some e₀) :
    ∃ s e scopes, (lowering m).visit? P = some (s, e) ∧ (lowering m).leave s e = some scopes := by
  obtain ⟨L', hrun⟩ : ∃ L', lowerModule m {} = .ok (M, L') := by
    unfold lower StateT.run' at h
    cases hm : lowerModule m {} with
    | error fault =>
      rw [hm] at h
      cases h
    | ok r =>
      rw [hm] at h
      cases h
      exact ⟨r.2, rfl⟩
  obtain ⟨_, L₀, hroot, hrest⟩ := bind_ok hrun
  obtain ⟨Fs, L₁, hfunctions, hrest⟩ := bind_ok hrest
  obtain ⟨F, L₂, hentry, -⟩ := bind_ok hrest
  have hroot : (forM m.functions declareFunction {}).toOption = some _ := toOption_eq_some.2 hroot
  refine (lowering_lawful m).visits_all (fun i hi => ?_) ?_ hP
  · obtain ⟨Gs, L₃, G, L₄, hbefore, hlower⟩ := lowerFunctions_getElem m.functions hfunctions i hi
    obtain ⟨vs, L₅, f, L₆, hparameters, hbody, -⟩ := lowerFunction_body hlower
    have hbefore := toOption_eq_some.2 hbefore
    have hparameters := toOption_eq_some.2 hparameters
    refine ⟨(none, L₅), m.functions[i].body, L₆.scopes, ?_,
      lowering_leave_eq_some.2 ⟨f, L₆, hbody, rfl⟩⟩
    simp [lowering, hi, hroot, hbefore, hparameters]
  · obtain ⟨f, L₃, hbody, -⟩ := bind_ok hentry
    refine ⟨(none, L₁), m.body, L₃.scopes, ?_, lowering_leave_eq_some.2 ⟨f, L₃, hbody, rfl⟩⟩
    have hafter := toOption_eq_some.2 hfunctions
    simp [lowering, hroot, hafter]

end Lowering

end Exprc

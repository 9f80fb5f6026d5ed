/-
Lowering comes where the traversal says. It fails at an expression to which it comes exactly as it would fail
there alone, and such a failure is the failure of the whole: nothing is lowered in between, and nothing before
is lowered otherwise.
-/
import Exprc.Proofs.Resolution.Lowering

namespace Exprc.Lowering

open Syntax IR

/-! ## Parts -/

section

variable {loop? inner? : Option LoopLabels} {around : Nat → Option LoopLabels} {e a : Expr} {i : Nat}
  {L L' : State} {fault : Fault LowerError}

/-- When some statements are lowered, a failure of the others is the failure of all. -/
theorem lowerStatements_fault (hsettle : ∀ i f L, settle e i f L = .ok ((), L)) (last : Var) :
    ∀ {k : Nat} {L₁ : State}, k ≤ e.parts.length → lowerParts (fun _ => loop?) e k L = .ok ((), L₁) →
      ∃ last', lowerStatements loop? (e.parts.drop k) last' L₁ = .error fault →
        lowerStatements loop? e.parts last L = .error fault
  | 0, L₁, _, h => by
    obtain ⟨-, rfl⟩ := pure_ok h
    exact ⟨last, id⟩
  | k + 1, L₁, hk, h => by
    have ha := List.getElem?_eq_getElem hk
    obtain ⟨L₂, f, L₃, hbefore, hpart, hsettled⟩ := lowerParts_ok h ha
    rw [hsettle] at hsettled
    obtain rfl : L₃ = L₁ := (Prod.mk.inj (Except.ok.inj hsettled)).2
    obtain ⟨last', hlast⟩ := lowerStatements_fault hsettle last (Nat.le_of_lt hk) hbefore
    refine ⟨f.value, fun hrest => hlast ?_⟩
    rw [List.drop_eq_getElem_cons hk, lowerStatements, run_bind_ok hpart]
    exact run_bind_error hrest

/-- When some arguments are lowered, a failure of the others is the failure of all. -/
theorem lowerArguments_fault (hsettle : ∀ i f L, settle e i f L = .ok ((), L)) :
    ∀ {k : Nat} {L₁ : State}, k ≤ e.parts.length → lowerParts (fun _ => loop?) e k L = .ok ((), L₁) →
      lowerArguments loop? (e.parts.drop k) L₁ = .error fault →
      lowerArguments loop? e.parts L = .error fault
  | 0, L₁, _, h => by
    obtain ⟨-, rfl⟩ := pure_ok h
    exact id
  | k + 1, L₁, hk, h => by
    have ha := List.getElem?_eq_getElem hk
    obtain ⟨L₂, f, L₃, hbefore, hpart, hsettled⟩ := lowerParts_ok h ha
    rw [hsettle] at hsettled
    obtain rfl : L₃ = L₁ := (Prod.mk.inj (Except.ok.inj hsettled)).2
    refine fun hrest => lowerArguments_fault hsettle (Nat.le_of_lt hk) hbefore ?_
    rw [List.drop_eq_getElem_cons hk, lowerArguments, run_bind_ok hpart]
    exact run_bind_error hrest

/-- Of two parts that are lowered first, a failure is the failure of the whole. -/
theorem pair_fault {e₁ e₂ : Expr} (hpair : e.parts = [e₁, e₂]) (hsettle : ∀ f L, settle e 0 f L = .ok ((), L))
    (ha : e.parts[i]? = some a) (h : lowerParts around e i L = .ok ((), L'))
    (hfault : lowerExpr (around i) a L' = .error fault) (rest : Fragment → Fragment → Lower Fragment) :
    (do rest (← lowerExpr (around 0) e₁) (← lowerExpr (around 1) e₂) : Lower Fragment) L = .error fault := by
  rw [hpair] at ha
  obtain _ | _ | i := i
  · obtain rfl : e₁ = a := Option.some.inj ha
    obtain ⟨-, rfl⟩ := pure_ok h
    exact run_bind_error hfault
  · obtain rfl : e₂ = a := Option.some.inj ha
    obtain ⟨L₁, f, L₂, hbefore, hpart, hsettled⟩ := lowerParts_ok h (by rw [hpair]; rfl)
    obtain ⟨-, rfl⟩ := pure_ok hbefore
    rw [hsettle] at hsettled
    obtain rfl : L₂ = L' := (Prod.mk.inj (Except.ok.inj hsettled)).2
    rw [run_bind_ok hpart]
    exact run_bind_error hfault
  · cases ha

/-- A failure at a part of an expression is the failure of the expression. -/
theorem lowerExpr_fault (ha : e.parts[i]? = some a) (h : approach loop? e i L = .ok (inner?, L'))
    (hfault : lowerExpr inner? a L' = .error fault) : lowerExpr loop? e L = .error fault := by
  obtain ⟨around, L₁, hprepare, hparts, rfl⟩ := approach_ok h
  obtain ⟨hlt, hget⟩ := List.getElem?_eq_some_iff.1 ha
  cases e with
  | int | bool | unit | name | control | leave => cases ha
  | unary | leaveWith | declare =>
    obtain rfl : i = 0 := Nat.lt_one_iff.1 hlt
    cases ha
    cases hprepare
    cases hparts
    rw [lowerExpr]
    exact run_bind_error hfault
  | binary n op l lhs rhs =>
    rw [lowerExpr]
    rw [prepare] at hprepare
    split at hprepare
    · rename_i hop
      cases hprepare
      rw [if_pos hop]
      iterate 3 rw [run_bind_ok (run_freshLabel _)]
      exact pair_fault rfl (fun _ _ => rfl) ha hparts hfault _
    · rename_i hop
      cases hprepare
      rw [if_neg hop]
      exact pair_fault rfl (fun _ _ => rfl) ha hparts hfault _
  | ifThen n c t =>
    cases hprepare
    rw [lowerExpr]
    iterate 2 rw [run_bind_ok (run_freshLabel _)]
    exact pair_fault rfl (fun _ _ => rfl) ha hparts hfault _
  | loop n c b =>
    cases hprepare
    rw [lowerExpr]
    iterate 3 rw [run_bind_ok (run_freshLabel _)]
    exact pair_fault rfl (fun _ _ => rfl) ha hparts hfault _
  | assign n l target value =>
    rw [prepare] at hprepare
    split at hprepare
    · rename_i hvariable
      cases hprepare
      obtain ⟨n', x, rfl⟩ := Typing.isVariable_iff.1 hvariable
      rw [lowerExpr]
      obtain _ | _ | i := i
      · cases ha
        cases hparts
        rw [lowerExpr] at hfault
        cases hx : resolve x n'.location L with
        | error fault' =>
          rw [run_bind_error hx] at hfault
          rw [run_bind_error hx, hfault]
        | ok r =>
          rw [run_bind_ok hx] at hfault
          cases hfault
      · cases ha
        obtain ⟨L₂, f, L₃, hbefore, htarget, hsettle⟩ := lowerParts_ok hparts rfl
        cases hbefore
        cases hsettle
        rw [lowerExpr] at htarget
        obtain ⟨v, L₄, hx, hpure⟩ := bind_ok htarget
        obtain ⟨-, rfl⟩ := pure_ok hpure
        rw [run_bind_ok hx]
        exact run_bind_error hfault
      · cases ha
    · cases hprepare
  | ifElse n c t e =>
    obtain ⟨τ, L₀, htype, hrest⟩ := bind_ok hprepare
    obtain ⟨hτ, rfl⟩ := typeOf_ok htype
    cases hrest
    rw [lowerExpr, run_bind_ok htype]
    iterate 3 rw [run_bind_ok (run_freshLabel _)]
    obtain _ | _ | _ | i := i
    · cases ha
      cases hparts
      exact run_bind_error hfault
    · cases ha
      obtain ⟨L₂, f, L₃, hbefore, hpart, hsettle⟩ := lowerParts_ok hparts rfl
      cases hbefore
      cases hsettle
      rw [run_bind_ok hpart]
      exact run_bind_error hfault
    · cases ha
      obtain ⟨L₄, f₂, L₅, hbefore, hpart₂, hsettle⟩ := lowerParts_ok hparts rfl
      obtain ⟨L₂, f₁, L₃, hfirst, hpart₁, hsettled⟩ := lowerParts_ok hbefore rfl
      cases hfirst
      cases hsettled
      rw [run_bind_ok hpart₁, run_bind_ok hpart₂]
      rw [settle, run_bind_ok (run_typeOf hτ _)] at hsettle
      split at hsettle
      · rename_i hunit
        cases hsettle
        rw [if_pos hunit]
        exact run_bind_error hfault
      · rename_i hunit
        obtain ⟨g, L₆, hmerge, hpure⟩ := bind_ok hsettle
        cases hpure
        rw [if_neg hunit, run_bind_ok hmerge]
        exact run_bind_error hfault
    · cases ha
  | block n es =>
    cases hprepare
    rw [lowerExpr]
    obtain ⟨last, hlast⟩ := lowerStatements_fault (fun _ _ _ => rfl) .unit (Nat.le_of_lt hlt) hparts
    refine run_inScope_error (hlast ?_)
    rw [List.drop_eq_getElem_cons hlt, hget, lowerStatements]
    exact run_bind_error hfault
  | call n g es =>
    obtain ⟨v, L₀, hresolve, hrest⟩ := bind_ok hprepare
    cases hrest
    rw [lowerExpr, run_bind_ok hresolve]
    refine run_bind_error (lowerArguments_fault (fun _ _ _ => rfl) (Nat.le_of_lt hlt) hparts ?_)
    rw [List.drop_eq_getElem_cons hlt, hget, lowerArguments]
    exact run_bind_error hfault

end

/-! ## The whole module -/

/-- A failure in a function behind others is the failure of all. -/
theorem lowerFunctions_fault {fault : Fault LowerError} :
    ∀ {gs : List FunctionDefinition} {i : Nat} {L L₁ : State} {g : FunctionDefinition} {Fs : List Function},
      gs[i]? = some g → (gs.take i).mapM lowerFunction L = .ok (Fs, L₁) →
      lowerFunction g L₁ = .error fault → gs.mapM lowerFunction L = .error fault
  | g :: gs, 0, L, L₁, _, Fs, rfl, h, hfault => by
    obtain ⟨-, rfl⟩ := pure_ok h
    rw [List.mapM_cons]
    exact run_bind_error hfault
  | g :: gs, i + 1, L, L₁, _, Fs, hg, h, hfault => by
    rw [List.take_succ_cons, List.mapM_cons] at h
    obtain ⟨F, L₂, hfirst, hrest⟩ := bind_ok h
    obtain ⟨Gs, L₃, hmore, hpure⟩ := bind_ok hrest
    obtain ⟨-, rfl⟩ := pure_ok hpure
    rw [List.mapM_cons, run_bind_ok hfirst]
    exact run_bind_error (lowerFunctions_fault hg hmore hfault)

variable {m : Syntax.Module}

theorem lower_fault {fault : Fault LowerError} (h : lowerModule m {} = .error fault) :
    lower m = .error fault := by
  unfold lower StateT.run'
  rw [h]
  rfl

/-- Lowering comes where the traversal says: a failure there is the failure of the module. -/
theorem lowering_fault {P : Site} :
    ∀ {s : (lowering m).State} {e : Expr} {fault : Fault LowerError}, (lowering m).visit? P = some (s, e) →
      lowerExpr s.1 e s.2 = .error fault → lower m = .error fault := by
  induction P with
  | function i =>
    intro s e fault hvisit hfault
    simp only [Traversal.visit?, lowering, bind, Option.bind_eq_some_iff, Prod.exists] at hvisit
    obtain ⟨g, hg, _, L₀, hroot, Fs, L₁, hbefore, vs, L₂, hparameters, hpure⟩ := hvisit
    cases hpure
    have hfunction : lowerFunction g L₁ = .error fault := by
      refine run_inScope_error ?_
      rw [run_bind_ok (toOption_eq_some.1 hparameters)]
      exact run_bind_error hfault
    refine lower_fault ?_
    rw [lowerModule, run_bind_ok (toOption_eq_some.1 hroot)]
    exact run_bind_error (lowerFunctions_fault hg (toOption_eq_some.1 hbefore) hfunction)
  | main =>
    intro s e fault hvisit hfault
    simp only [Traversal.visit?, lowering, bind, Option.bind_eq_some_iff, Prod.exists] at hvisit
    obtain ⟨_, L₀, hroot, Fs, L₁, hbefore, hpure⟩ := hvisit
    cases hpure
    refine lower_fault ?_
    rw [lowerModule, run_bind_ok (toOption_eq_some.1 hroot), run_bind_ok (toOption_eq_some.1 hbefore)]
    exact run_bind_error (run_bind_error hfault)
  | part whole i ih =>
    intro s' a fault hvisit hfault
    simp only [Traversal.visit?, Option.bind_eq_some_iff, Option.map_eq_some_iff, Prod.exists,
      Prod.mk.injEq] at hvisit
    obtain ⟨s, e, hwhole, a', ha, s'', henter, rfl, rfl⟩ := hvisit
    exact ih hwhole (lowerExpr_fault ha (toOption_eq_some.1 henter) hfault)

end Exprc.Lowering

/-
The temporaries of parameters and variables. In the code of an accepted module each of them owns a temporary of its
own; only the copy of its declaration and the copies of assignments to it write that temporary
(`variables_keep_temporaries`).
-/
import Exprc.Proofs.Lowering.Ledger
import Exprc.Proofs.Lowering.Module
import Exprc.Proofs.Places.Checking
import Exprc.Proofs.Places.Lowering
import Exprc.Proofs.Places.Placing

namespace Exprc

namespace Syntax

/-! ## What functions declare -/

/-- The parameters of a function, but for some at the start. -/
def parametersFrom (function : Nat) : Nat → Set Declaration := regionsFrom fun j => {.parameter function j}

/-- The parameters of a function and the variables in its body. -/
def functionRegion (i : Nat) : Set Declaration := parametersFrom i 0 ∪ (Site.function i).region

theorem parametersFrom_disjoint_region (function first : Nat) (here : Site) :
    Disjoint (parametersFrom function first) here.region := by
  rw [Set.disjoint_left]
  rintro _ ⟨j, -, rfl⟩ ⟨site, -, he⟩
  cases he

theorem functionRegion_disjoint {i j : Nat} (h : i ≠ j) : Disjoint (functionRegion i) (functionRegion j) := by
  have hparameters : Disjoint (parametersFrom i 0) (parametersFrom j 0) := by
    rw [Set.disjoint_left]
    rintro _ ⟨k, -, rfl⟩ ⟨k', -, he⟩
    cases he
    exact h rfl
  have hsites : Disjoint (Site.function i).region (Site.function j).region :=
    Site.region_disjoint rfl fun he => h (Site.function.inj he)
  refine Set.disjoint_union_left.2 ⟨Set.disjoint_union_right.2 ⟨hparameters, ?_⟩,
    Set.disjoint_union_right.2 ⟨?_, hsites⟩⟩
  · exact parametersFrom_disjoint_region i 0 _
  · exact (parametersFrom_disjoint_region j 0 _).symm

theorem functionRegion_disjoint_main (i : Nat) : Disjoint (functionRegion i) Site.main.region := by
  refine Set.disjoint_union_left.2 ⟨parametersFrom_disjoint_region i 0 _, ?_⟩
  exact Site.region_disjoint rfl Site.noConfusion

/-- What a module declares, a function declares or the top-level statements do. -/
theorem Module.Declares.mem_region {m : Module} {d : Declaration} (h : m.Declares d) :
    d ∈ regionsFrom functionRegion 0 ∪ Site.main.region := by
  have hroot : ∀ site : Site, (∃ i, (Site.function i).Within site) ∨ Site.main.Within site := by
    intro site
    induction site with
    | function i => exact .inl ⟨i, .refl⟩
    | main => exact .inr .refl
    | part whole i ih => exact ih.imp (fun ⟨i, hi⟩ => ⟨i, hi.part⟩) (·.part)
  cases d with
  | parameter i j => exact .inl ⟨i, Nat.zero_le _, .inl ⟨j, Nat.zero_le _, rfl⟩⟩
  | «variable» site =>
    rcases hroot site with ⟨i, hi⟩ | hmain
    · exact .inl ⟨i, Nat.zero_le _, .inr ⟨site, hi, rfl⟩⟩
    · exact .inr ⟨site, hmain, rfl⟩
  | _ => exact h.elim

end Syntax

namespace Lowering

open Syntax IR Typing

/-! ## Functions -/

variable {m : Syntax.Module} {place : Site → Location} {sig : String → Option Signature}

/-- Parameters own the next temporaries. -/
theorem Keeps.parameters {i : Nat} {f : FunctionDefinition} (hf : m.functions[i]? = some f) :
    ∀ (ps : List Parameter) {first : Nat} {Λ : Ledger} {D : Stack Declaration} {s : Stage},
      f.parameters.length = first + ps.length → Keeps Λ D s →
      ∃ new, Records m place (parametersFrom i first) Λ new
          (D.declareAll (ps.mapIdx fun j p => (p.name.text, .parameter i (first + j)))) s (s.declareAll ps) [] ∧
        ∀ j < ps.length, (.parameter i (first + j), s.nextTemp + j) ∈ new
  | [], first, Λ, D, s, hlength, hkeeps => by
    rw [List.mapIdx_nil, Stack.declareAll_nil]
    refine ⟨[], .nil hkeeps ?_, by simp⟩
    rintro _ ⟨j, hj, rfl⟩ ⟨f', hf', hj'⟩
    obtain rfl : f = f' := Option.some.inj (hf.symm.trans hf')
    rw [hlength, List.length_nil] at hj'
    omega
  | p :: ps, first, Λ, D, s, hlength, hkeeps => by
    rw [List.length_cons] at hlength
    have hone : Records m place {.parameter i first} Λ _ _ s _ [] :=
      .single hkeeps p.name.text p.written.ty nofun nofun
    obtain ⟨new, hnew, hall⟩ := Keeps.parameters hf ps
      (show f.parameters.length = (first + 1) + ps.length by omega) hone.keeps
    have hdisjoint : Disjoint {.parameter i first} (parametersFrom i (first + 1)) := by
      refine regionsFrom_disjoint fun j hj => ?_
      simp only [Set.disjoint_singleton, ne_eq, Declaration.parameter.injEq, true_and]
      omega
    have hboth := hone.append hnew hdisjoint
    rw [← Stack.declareAll_append] at hboth
    refine ⟨new ++ [(.parameter i first, s.nextTemp)], ?_, ?_⟩
    · rw [parametersFrom, regionsFrom_eq, List.mapIdx_cons]
      simpa [Nat.add_assoc, Nat.add_comm 1, parametersFrom, Stage.declareAll] using hboth
    · intro j hj
      cases j with
      | zero => exact List.mem_append_right _ List.mem_cons_self
      | succ j =>
        have hmem := hall j (by simpa using hj)
        refine List.mem_append_left _ ?_
        simpa [Stage.declare, Nat.add_assoc, Nat.add_comm 1] using hmem

/-- The parameters of a function are the temporaries that a ledger has for them. -/
def ParametersIn (Λ : Ledger) (i : Nat) (f : FunctionDefinition) (F : Function) : Prop :=
  F.parameters.length = f.parameters.length ∧
    ∀ j < f.parameters.length, ∃ k, (.parameter i j, k) ∈ Λ ∧ F.parameters[j]? = some (.temp k)

theorem ParametersIn.mono {Λ Λ' : Ledger} {i : Nat} {f : FunctionDefinition} {F : Function}
    (h : ParametersIn Λ i f F) (hΛ : Λ ⊆ Λ') : ParametersIn Λ' i f F := by
  refine ⟨h.1, fun j hj => ?_⟩
  obtain ⟨k, hk, hget⟩ := h.2 j hj
  exact ⟨k, hΛ hk, hget⟩

/-- Lowering a function enters its parameters and the variables in its body. -/
theorem LowersFunction.records (hplace : ∀ site e, m.expr? site = some e → e.location = place site) {i : Nat}
    {f : FunctionDefinition} {F : Function} {s s' : Stage} {Λ : Ledger} (hf : m.functions[i]? = some f)
    (h : LowersFunction sig s f F s') (hkeeps : Keeps Λ m.rootDeclarations s) :
    ∃ new, Records m place (functionRegion i) Λ new m.rootDeclarations s s' F.code ∧
      ParametersIn new i f F := by
  cases h with
  | intro hg =>
    obtain ⟨new, hnew, hall⟩ := Keeps.parameters hf f.parameters (Nat.zero_add _).symm hkeeps.enter
    have hexpr : m.expr? (.function i) = some f.body := by rw [Module.expr?, hf]; rfl
    have hscope : m.declarations? (.function i) = some (Stack.declareAll ([] :: m.rootDeclarations)
        (f.parameters.mapIdx fun j p => (p.name.text, .parameter i (0 + j)))) := by
      simp [Module.declarations?, hf]
    obtain ⟨new', hnew'⟩ := Lowers.records hplace f.body hg hexpr hscope hnew.keeps
    have hboth := hnew.append hnew' (parametersFrom_disjoint_region i 0 _)
    have hkeeps' := hkeeps.leave hboth.keeps hboth.later (List.subset_append_right _ _)
    refine ⟨new' ++ new, hboth.wrap hkeeps' hboth.later.leave.2 (fun _ hv => hv) ?_ ?_, by simp, ?_⟩
    · dsimp only [List.nil_append]
      split
      · exact List.Subset.refl _
      · exact List.subset_append_left _ _
    · intro i hi
      dsimp only [List.nil_append] at hi ⊢
      split at hi
      · exact .inl hi
      · refine (List.mem_append.1 hi).imp_right fun hi => ?_
        obtain rfl := List.mem_singleton.1 hi
        intro v hv
        cases hv
    · intro j hj
      refine ⟨s.nextTemp + j, List.mem_append_right _ ?_, by simp [hj]⟩
      simpa [Stage.enter] using hall j hj

/-- Lowering functions enters what is declared in them. -/
theorem LowersFunctions.records (hplace : ∀ site e, m.expr? site = some e → e.location = place site) :
    ∀ {fs done : List FunctionDefinition} {Fs : List Function} {s s' : Stage} {Λ : Ledger},
      LowersFunctions sig s fs Fs s' → m.functions = done ++ fs → Keeps Λ m.rootDeclarations s →
      ∃ new, Records m place (regionsFrom functionRegion done.length) Λ new m.rootDeclarations s s'
          (Fs.flatMap (·.code)) ∧
        ∀ i f, fs[i]? = some f → ∃ F, Fs[i]? = some F ∧ ParametersIn new (done.length + i) f F
  | [], done, _, _, _, _, .nil, hfunctions, hkeeps => by
    rw [List.append_nil] at hfunctions
    refine ⟨[], .nil hkeeps ?_, nofun⟩
    have hnone : ∀ i, done.length ≤ i → m.functions[i]? = none := fun i hi => by
      rw [hfunctions, List.getElem?_eq_none hi]
    rintro _ ⟨i, hi, ⟨j, -, rfl⟩ | ⟨site, hsite, rfl⟩⟩
    · rintro ⟨f, hf, -⟩
      rw [hnone i hi] at hf
      cases hf
    · rintro ⟨e, he, -⟩
      rw [Module.expr?_within hsite (by rw [Module.expr?, hnone i hi]; rfl)] at he
      cases he
  | f :: fs, done, _, _, _, _, .cons hF hFs, hfunctions, hkeeps => by
    have hf : m.functions[done.length]? = some f := by rw [hfunctions]; simp
    obtain ⟨new, hnew, hparameters⟩ := hF.records hplace hf hkeeps
    obtain ⟨new', hnew', hothers⟩ := hFs.records hplace
      (show m.functions = (done ++ [f]) ++ fs by rw [hfunctions]; simp) hnew.keeps
    rw [List.length_append, List.length_singleton] at hnew' hothers
    have hdisjoint : Disjoint (functionRegion done.length) (regionsFrom functionRegion (done.length + 1)) :=
      regionsFrom_disjoint fun i hi => functionRegion_disjoint (by omega)
    refine ⟨new' ++ new, ?_, fun i g hg => ?_⟩
    · rw [regionsFrom_eq]
      exact hnew.append hnew' hdisjoint
    · cases i with
      | zero =>
        cases hg
        exact ⟨_, rfl, hparameters.mono (List.subset_append_right _ _)⟩
      | succ i =>
        obtain ⟨G, hG, hparameters'⟩ := hothers i g hg
        rw [Nat.add_assoc, Nat.add_comm 1] at hparameters'
        exact ⟨G, hG, hparameters'.mono (List.subset_append_left _ _)⟩

/-- Lowering the top-level statements enters the variables in them. -/
theorem LowersEntry.records (hplace : ∀ site e, m.expr? site = some e → e.location = place site) {τ : Ty}
    {F : Function} {s s' : Stage} {Λ : Ledger} (h : LowersEntry sig s m.body τ F s')
    (hkeeps : Keeps Λ m.rootDeclarations s) :
    ∃ new D, Records m place Site.main.region Λ new D s s' F.code := by
  have hbody : m.expr? .main = some m.body := rfl
  cases h with
  | silent hg _ =>
    obtain ⟨new, hnew⟩ := Lowers.records hplace m.body hg hbody rfl hkeeps
    exact ⟨new, _, hnew⟩
  | @printing s₁ _ _ _ _ hg _ =>
    obtain ⟨new, hnew⟩ := Lowers.records hplace m.body hg hbody rfl hkeeps
    have hidle := Stage.Idle.withTemp s₁ .unit
    refine ⟨new, _, hnew.wrap (hnew.keeps.idle hidle) (hnew.later.trans hidle.later)
      (fun _ hv => hv.mono hidle.later) ?_ ?_⟩
    · simp [applied]
    · intro i hi
      simp only [applied, List.flatMap_singleton] at hi
      refine (List.mem_append.1 hi).imp_right fun hi => ?_
      obtain rfl := List.mem_singleton.1 hi
      intro v hv
      obtain rfl := List.mem_singleton.1 hv
      exact .inl (.withTemp hnew.keeps.wf _)

/-- All parameters and variables of a module are in one ledger. -/
theorem LowersModule.records (hplace : ∀ site e, m.expr? site = some e → e.location = place site) {τ : Ty}
    {M : IR.Module} (h : LowersModule m τ M) :
    ∃ Λ D s, Records m place Set.univ [] Λ D .initial s (M.functions.flatMap (·.code)) ∧
      ∀ i f, m.functions[i]? = some f → ∃ F, M.functions[i]? = some F ∧ ParametersIn Λ i f F := by
  obtain ⟨Fs, F, s, s', hM, hFs, hF⟩ := h.lowers
  have hinitial : Keeps [] m.rootDeclarations .initial :=
    ⟨.initial, rfl, List.nodup_nil, List.cons_ne_nil _ _, nofun⟩
  obtain ⟨new, hnew, hparameters⟩ := hFs.records hplace (show m.functions = [] ++ m.functions from rfl) hinitial
  obtain ⟨new', D, hnew'⟩ := hF.records hplace hnew.keeps
  have hdisjoint : Disjoint (regionsFrom functionRegion 0) Site.main.region :=
    (regionsFrom_disjoint fun i _ => (functionRegion_disjoint_main i).symm).symm
  refine ⟨new' ++ new, D, s', ?_, fun i f hf => ?_⟩
  · have hall := hnew.append hnew' hdisjoint
    rw [hM, List.flatMap_append, List.flatMap_singleton]
    exact hall.widen (Set.subset_univ _) fun d _ hd hdeclares => hd hdeclares.mem_region
  · obtain ⟨G, hG, hparameters'⟩ := hparameters i f hf
    rw [List.length_nil, Nat.zero_add] at hparameters'
    refine ⟨G, ?_, hparameters'.mono (List.subset_append_right _ _)⟩
    rw [hM, List.getElem?_append_left (List.getElem?_eq_some_iff.1 hG).1, hG]

/-! ## Modules that differ in places and types -/

section

variable {t : Syntax.Module} (hshape : t.shape = m.shape)

include hshape

theorem CopiesInto.of_shape {d : Declaration} {k : Nat} {i : Instruction} (h : CopiesInto t place d k i) :
    CopiesInto m place d k i := by
  cases h with
  | declaration => exact .declaration
  | @assignment site D n n' l x value _ _ v he hD hd =>
    have hsame : (m.expr? site).map (·.shape) = (t.expr? site).map (·.shape) := by
      rw [← m.expr?_shape, ← hshape, t.expr?_shape]
    rw [he] at hsame
    obtain ⟨e, he', hassign⟩ := Option.map_eq_some_iff.1 hsame
    have hscope : m.declarations? site = some D := by
      rw [← m.declarations?_shape, ← hshape, t.declarations?_shape, hD]
    -- an assignment to a name has the shape of an assignment to this name only
    cases e with
    | assign n₁ l₁ target value₁ =>
      simp only [Expr.shape, Expr.unplaced, Expr.untyped, Expr.assign.injEq] at hassign
      obtain ⟨-, -, htarget, -⟩ := hassign
      cases target with
      | name n₂ y =>
        obtain rfl : y = x := (Expr.name.inj htarget).2
        exact .assignment he' hscope hd
      | _ => cases htarget
    | _ => cases hassign

theorem function_of_shape {i : Nat} {f : FunctionDefinition} (hf : m.functions[i]? = some f) :
    ∃ g, t.functions[i]? = some g ∧ g.parameters.length = f.parameters.length := by
  have hsame : t.functions[i]?.map (·.unplaced.untyped) = m.functions[i]?.map (·.unplaced.untyped) := by
    rw [← t.functions_shape, hshape, m.functions_shape]
  rw [hf] at hsame
  obtain ⟨g, hg, hfg⟩ := Option.map_eq_some_iff.1 hsame
  refine ⟨g, hg, ?_⟩
  simpa [FunctionDefinition.unplaced, FunctionDefinition.untyped] using congrArg (·.parameters.length) hfg

theorem declares_of_shape {d : Declaration} (h : m.Declares d) : t.Declares d := by
  cases d with
  | parameter i j =>
    obtain ⟨f, hf, hj⟩ := h
    obtain ⟨g, hg, hlength⟩ := function_of_shape hshape hf
    exact ⟨g, hg, by rwa [hlength]⟩
  | «variable» site =>
    obtain ⟨e, he, hbinder⟩ := h
    have hsame : (t.expr? site).map (·.shape) = (m.expr? site).map (·.shape) := by
      rw [← t.expr?_shape, hshape, m.expr?_shape]
    rw [he] at hsame
    obtain ⟨a, ha, hea⟩ := Option.map_eq_some_iff.1 hsame
    exact ⟨a, ha, by rwa [← Expr.binder?_shape, hea, Expr.binder?_shape]⟩
  | _ => exact h

end

/-- Whatever the places, a module is accepted and what is lowered is the same. -/
theorem lower_placed {T : Ty} {M : IR.Module} (h : (checkModule m).outcome = .ok T)
    (hM : lower (checkModule m).tree = .ok M) (place : Site → Location) :
    ∃ M', (checkModule (m.placed place)).outcome = .ok T ∧ lower (checkModule (m.placed place)).tree = .ok M' ∧
      M'.unplaced = M.unplaced := by
  have hchecked : (checkModule (m.placed place)).unplaced Syntax.Module.unplaced =
      (checkModule m).unplaced Syntax.Module.unplaced := by
    rw [← checkModule_unplaced, ← checkModule_unplaced, m.placed_unplaced]
  have houtcome : (checkModule (m.placed place)).outcome.mapError Fault.unplaced =
      (checkModule m).outcome.mapError Fault.unplaced := congrArg Checked.outcome hchecked
  have htree : (checkModule (m.placed place)).tree.unplaced = (checkModule m).tree.unplaced :=
    congrArg Checked.tree hchecked
  have hlower := lower_unplaced (checkModule (m.placed place)).tree
  rw [htree, lower_unplaced, hM] at hlower
  rw [h] at houtcome
  cases hc : (checkModule (m.placed place)).outcome with
  | error => rw [hc] at houtcome; cases houtcome
  | ok τ =>
    rw [hc] at houtcome
    cases hl : lower (checkModule (m.placed place)).tree with
    | error => rw [hl] at hlower; cases hlower
    | ok M' =>
      rw [hl] at hlower
      exact ⟨M', congrArg _ (Except.ok.inj houtcome), rfl, (Except.ok.inj hlower).symm⟩

theorem shape_placed_checked (m : Syntax.Module) (place : Site → Location) :
    (checkModule (m.placed place)).tree.shape = m.shape := by
  have hunplaced : (checkModule (m.placed place)).tree.unplaced = (checkModule m.unplaced).tree := by
    rw [← m.placed_unplaced place, checkModule_unplaced]
    rfl
  rw [Module.shape, hunplaced, checkModule_untyped]
  rfl

/-- What the checker makes of an expression is at the place of the expression. -/
theorem location_placed_checked (m : Syntax.Module) (place : Site → Location) (site : Site) (e : Expr)
    (he : (checkModule (m.placed place)).tree.expr? site = some e) : e.location = place site := by
  have hsame := Module.expr?_of_untyped (checkModule_untyped (m.placed place)) site
  rw [he, m.expr?_placed, Option.map_map] at hsame
  obtain ⟨a, -, ha⟩ := Option.map_eq_some_iff.1 hsame.symm
  have hlocation := congrArg Expr.location ha
  rw [Expr.location_untyped, Function.comp_apply, Expr.location_untyped, Expr.location_placed] at hlocation
  exact hlocation.symm

/-- The parameters and variables of a module own different temporaries in its code. Those of parameters are the
parameters of the functions in the code, and the copy of the declaration of each variable writes its temporary. No
instruction writes a temporary that is owned but the copy of the declaration and those of assignments to what is
declared; so if the places of all expressions differ, no instruction does that was lowered from something else than
a declaration or the target of an assignment. -/
structure Owns (m : Syntax.Module) (place : Site → Location) (own : Declaration → Nat) (M : IR.Module) :
    Prop where
  injective : ∀ d d', m.Declares d → m.Declares d' → own d = own d' → d = d'
  parameters : ∀ i (f : FunctionDefinition), m.functions[i]? = some f →
    ∃ F : Function, M.functions[i]? = some F ∧ F.parameters = (List.range f.parameters.length).map fun j =>
      .temp (own (.parameter i j))
  declared : ∀ site, m.Declares (.variable site) → ∃ F ∈ M.functions, ∃ v,
    ⟨place site, .copy v (.temp (own (.variable site)))⟩ ∈ F.code
  written : ∀ F ∈ M.functions, ∀ i ∈ F.code, ∀ d, m.Declares d → .temp (own d) ∈ i.op.writes →
    CopiesInto m place d (own d) i
  elsewhere : Function.Injective place → ∀ site e, m.expr? site = some e → e.binder? = none →
    isVariable e = false → ∀ F ∈ M.functions, ∀ i ∈ F.code, i.location = place site →
    ∀ d, m.Declares d → .temp (own d) ∉ i.op.writes

/-- A copy that gives a declared name a value is at the place of a declaration or at that of a name. -/
theorem CopiesInto.expr {d : Declaration} {k : Nat} {i : Instruction} (h : CopiesInto m place d k i)
    (hd : m.Declares d) :
    ∃ site e, m.expr? site = some e ∧ i.location = place site ∧ (e.binder?.isSome ∨ isVariable e = true) := by
  cases h with
  | @declaration site =>
    obtain ⟨e, he, hbinder⟩ := hd
    exact ⟨site, e, he, rfl, .inl hbinder⟩
  | @assignment site D n n' l x value _ _ v he =>
    exact ⟨site.part 0, .name n' x, by rw [Module.expr?, he]; rfl, rfl, .inr rfl⟩

/-- In the code of an accepted module no parameter and no variable shares its temporary. Lowering does not look at
places; so let every expression be at a place for its site, and the places of the instructions tell what they were
lowered from. -/
theorem variables_keep_temporaries {T : Ty} {M : IR.Module} (h : (checkModule m).outcome = .ok T)
    (hM : lower (checkModule m).tree = .ok M) (place : Site → Location) :
    ∃ M' own, lower (checkModule (m.placed place)).tree = .ok M' ∧ M'.unplaced = M.unplaced ∧
      Owns m place own M' := by
  obtain ⟨M', h', hM', hsame⟩ := lower_placed h hM place
  have hshape := shape_placed_checked m place
  obtain ⟨Λ, D, s, hrecords, hparameters⟩ := (lower_checked h' hM').records (location_placed_checked m place)
  have hcomplete : ∀ d, ∃ k, m.Declares d → (d, k) ∈ Λ := by
    intro d
    by_cases hd : m.Declares d
    · obtain ⟨k, hk⟩ := hrecords.complete (Set.mem_univ d) (declares_of_shape hshape hd)
      exact ⟨k, fun _ => hk⟩
    · exact ⟨0, fun h => absurd h hd⟩
  choose own hown using hcomplete
  have hwritten : ∀ F ∈ M'.functions, ∀ i ∈ F.code, ∀ d, m.Declares d → .temp (own d) ∈ i.op.writes →
      CopiesInto m place d (own d) i := fun F hF i hi d hd hwrites =>
    (hrecords.copiesInto (List.mem_append_left _ (hown d hd)) (List.mem_flatMap.2 ⟨F, hF, hi⟩)
      hwrites).of_shape hshape
  refine ⟨M', own, hM', hsame, fun d d' hd hd' he => ?_, fun i f hf => ?_, fun site hsite => ?_, hwritten,
    fun hinjective site e he hbinder hname F hF i hi hlocation d hd hwrites => ?_⟩
  · exact hrecords.keeps.declaration_eq (List.mem_append_left _ (hown d hd))
      (List.mem_append_left _ (he ▸ hown d' hd'))
  · obtain ⟨g, hg, hlength⟩ := function_of_shape hshape hf
    obtain ⟨F, hF, hF', hnumbers⟩ := hparameters i g hg
    refine ⟨F, hF, List.ext_getElem? fun j => ?_⟩
    by_cases hj : j < f.parameters.length
    · obtain ⟨k, hk, hget⟩ := hnumbers j (by rwa [hlength])
      obtain rfl := hrecords.number_eq hk (hown _ ⟨f, hf, hj⟩)
      simp [hget, hj]
    · rw [List.getElem?_eq_none (by omega), List.getElem?_eq_none (by simpa using hj)]
  · obtain ⟨v, hv⟩ := hrecords.copied (hown _ hsite)
    obtain ⟨F, hF, hi⟩ := List.mem_flatMap.1 hv
    exact ⟨F, hF, v, hi⟩
  · obtain ⟨site', a, ha, hlocation', hkind⟩ := (hwritten F hF i hi d hd hwrites).expr hd
    obtain rfl := hinjective (hlocation.symm.trans hlocation')
    obtain rfl : e = a := Option.some.inj (he.symm.trans ha)
    simp [hbinder, hname] at hkind

/-- A program in which a conditional has the value of a variable or the value that is assigned to it:
`fun f(a: Int): Int { var x = a; if true then x else x = 2 } f(1)`. -/
def merging : Syntax.Module :=
  let n : Note := ⟨⟨1, 1⟩, none⟩
  let int : WrittenType := ⟨⟨1, 10⟩, .int⟩
  ⟨⟨1, 1⟩, [⟨⟨1, 1⟩, ⟨⟨1, 5⟩, "f"⟩, [⟨⟨⟨1, 7⟩, "a"⟩, int⟩], int, .block n
    [.declare n ⟨⟨1, 26⟩, "x"⟩ none (.name n "a"),
      .ifElse n (.bool n true) (.name n "x") (.assign n ⟨1, 56⟩ (.name n "x") (.int n 2))]⟩],
    .block n [.call n "f" [.int n 1]]⟩

/-- The parameter and the variable own different temporaries, and the conditional writes neither. -/
theorem variables_keep_temporaries_merging :
    ∃ M own, lower (checkModule (merging.placed Site.ownPlace)).tree = .ok M ∧
      Owns merging Site.ownPlace own M ∧
      own (.parameter 0 0) ≠ own (.variable ((Site.function 0).part 0)) ∧
      ∀ F ∈ M.functions, ∀ i ∈ F.code, i.location = ((Site.function 0).part 1).ownPlace →
        .temp (own (.parameter 0 0)) ∉ i.op.writes ∧
          .temp (own (.variable ((Site.function 0).part 0))) ∉ i.op.writes := by
  obtain ⟨M₀, hM₀⟩ : ∃ M, lower (checkModule merging).tree = .ok M := by
    refine ⟨?M, ?lowered⟩
    case lowered => cbv; rfl
  obtain ⟨M, own, hM, -, howns⟩ :=
    variables_keep_temporaries (m := merging) (T := .int) (by cbv) hM₀ Site.ownPlace
  have ha : merging.Declares (.parameter 0 0) := ⟨_, rfl, Nat.zero_lt_one⟩
  have hx : merging.Declares (.variable ((Site.function 0).part 0)) := ⟨_, rfl, rfl⟩
  refine ⟨M, own, hM, howns, fun he => ?_, fun F hF i hi hlocation => ?_⟩
  · cases howns.injective _ _ ha hx he
  · have hother := howns.elsewhere Site.ownPlace_injective _ _ rfl rfl rfl F hF i hi hlocation
    exact ⟨hother _ ha, hother _ hx⟩

end Lowering

end Exprc

/-
Checking a renamed tree. If a tree is accepted then the renamed tree is accepted with the same type, and the tree
that its check leaves is the renamed one of what the other check left: the notes are the same.
-/
import Exprc.Proofs.Renaming.Scopes
import Exprc.Proofs.Typing.Tree

namespace Exprc

namespace Syntax

/-- Whether the variables that some expressions declare are those that a renaming knows. -/
def Covers (ρ : Renaming) (es : List Expr) : Prop := ∀ e ∈ es, ∀ x, e.binder? = some x → x ∈ ρ.locals

theorem Covers.append {ρ : Renaming} {es es' : List Expr} :
    Covers ρ (es ++ es') ↔ Covers ρ es ∧ Covers ρ es' :=
  List.forall_mem_append

theorem Covers.tail {ρ : Renaming} {e : Expr} {es : List Expr} (h : Covers ρ (e :: es)) : Covers ρ es :=
  (List.forall_mem_cons.1 h).2

theorem Covers.binder {ρ : Renaming} {n : Note} {x : Name} {written? : Option WrittenType} {e : Expr}
    {es : List Expr} (h : Covers ρ (.declare n x written? e :: es)) : x.text ∈ ρ.locals :=
  (List.forall_mem_cons.1 h).1 _ rfl

/-- A tree that is the same as another one but for types, and that tree with other names. -/
def IsRenamed (ρ : Renaming) (here : Site) (D : Stack Declaration) (e t t' : Expr) : Prop :=
  t.untyped = e.untyped ∧ t' = t.renamed ρ.name here D

/-- Trees that are the same as others but for types, and those trees with other names. -/
def AreRenamed (ρ : Renaming) (whole : Site) (first : Nat) (D : Stack Declaration) (es ts ts' : List Expr) :
    Prop :=
  Expr.allUntyped ts = Expr.allUntyped es ∧ ts' = Expr.allRenamed ρ.name whole first D ts

end Syntax

namespace Typing

open Syntax

/-! ## Combinators -/

namespace Checker

variable {α α' β β' γ δ : Type}

/-- In scopes that correspond, what one check accepts the other one accepts too, with the same result. The trees
correspond then, and the scopes again. -/
def RenamesTo (ρ : Renaming) (D D₁ : Stack Declaration) (T : α → α' → Prop) (c : Checker α γ)
    (c' : Checker α' γ) : Prop :=
  ∀ s s', Renames ρ Eq D s s' → ∀ found, (c s).outcome = .ok found →
    (c' s').outcome = .ok found ∧ T (c s).tree (c' s').tree ∧ Renames ρ Eq D₁ (c s).scopes (c' s').scopes

namespace RenamesTo

variable {ρ : Renaming} {D D₁ D₂ : Stack Declaration} {T : α → α' → Prop} {U : β → β' → Prop}
  {c : Checker α γ} {c' : Checker α' γ} {tree : α} {tree' : α'}

theorem done {found : γ} (h : T tree tree') : RenamesTo ρ D D T (done tree found) (done tree' found) :=
  fun _ _ hs _ hfound => ⟨hfound, h, hs⟩

theorem fail {fault : Fault TypeError} : RenamesTo ρ D D₁ T (fail tree fault) c' :=
  fun _ _ _ _ hfound => by cases hfound

theorem map {f : α → β} {f' : α' → β'} (hc : RenamesTo ρ D D₁ T c c')
    (hf : ∀ a a', T a a' → U (f a) (f' a')) : RenamesTo ρ D D₁ U (map f c) (map f' c') := by
  intro s s' hs found hfound
  obtain ⟨hfound', htree, hs₁⟩ := hc s s' hs found hfound
  exact ⟨hfound', hf _ _ htree, hs₁⟩

theorem andThen {rebuild : α → β} {rebuild' : α' → β'} {rest : α → γ → Checker β δ}
    {rest' : α' → γ → Checker β' δ} (hc : RenamesTo ρ D D₁ T c c')
    (hrest : ∀ a a' found, T a a' → RenamesTo ρ D₁ D₂ U (rest a found) (rest' a' found)) :
    RenamesTo ρ D D₂ U (c.andThen rebuild rest) (c'.andThen rebuild' rest') := by
  intro s s' hs found hfound
  obtain ⟨found₁, hpart, he⟩ := andThen_ok hfound
  obtain ⟨hpart', htree, hs₁⟩ := hc s s' hs found₁ hpart
  rw [he] at hfound ⊢
  rw [andThen_run hpart']
  exact hrest _ _ found₁ htree _ _ hs₁ found hfound

theorem ensure {demand : α → γ → Except (Fault TypeError) Unit}
    {demand' : α' → γ → Except (Fault TypeError) Unit} (hc : RenamesTo ρ D D₁ T c c')
    (hdemand : ∀ a a' found, T a a' → demand a found = .ok () → demand' a' found = .ok ()) :
    RenamesTo ρ D D₁ T (c.ensure demand) (c'.ensure demand') := by
  intro s s' hs found hfound
  obtain ⟨hpart, hd, htree, hscopes⟩ := ensure_ok hfound
  obtain ⟨hpart', htrees, hs₁⟩ := hc s s' hs found hpart
  rw [ensure_run hpart' (hdemand _ _ found htrees hd), htree, hscopes]
  exact ⟨hpart', htrees, hs₁⟩

theorem ask {question question' : Scopes → Except (Fault TypeError) δ} {rest : δ → Checker α γ}
    {rest' : δ → Checker α' γ}
    (hquestion : ∀ s s', Renames ρ Eq D s s' → ∀ answer, question s = .ok answer → question' s' = .ok answer)
    (hrest : ∀ s answer, question s = .ok answer → RenamesTo ρ D D₁ T (rest answer) (rest' answer)) :
    RenamesTo ρ D D₁ T (ask tree question rest) (ask tree' question' rest') := by
  intro s s' hs found hfound
  obtain ⟨answer, hanswer, he⟩ := ask_ok hfound
  rw [he] at hfound ⊢
  rw [ask_run (hquestion s s' hs answer hanswer)]
  exact hrest s answer hanswer s s' hs found hfound

theorem declaring {x : String} {d : Declaration} {τ : Ty} {fault fault' : Fault TypeError} (hx : x ∈ ρ.names d)
    (hc : RenamesTo ρ (D.declareAll [(x, d)]) D₁ T c c') :
    RenamesTo ρ D D₁ T (declaring tree x τ fault c) (declaring tree' (d.rename ρ.name x) τ fault' c') := by
  intro s s' hs found hfound
  obtain ⟨s₁, hdeclare, he⟩ := declaring_ok hfound
  obtain ⟨s₁', hdeclare', hs₁⟩ := hs.declare? hx rfl hdeclare
  rw [he] at hfound ⊢
  rw [declaring_run hdeclare']
  exact hc s₁ s₁' hs₁ found hfound

theorem inScope {frame : List (String × Declaration)} (hc : RenamesTo ρ ([] :: D) (frame :: D) T c c') :
    RenamesTo ρ D D T (inScope c) (inScope c') := by
  intro s s' hs found hfound
  obtain ⟨hinner, he⟩ := inScope_ok hfound
  obtain ⟨hinner', htree, hs₁⟩ := hc _ _ hs.push found hinner
  rw [he, inScope_run hinner']
  refine ⟨rfl, htree, ?_⟩
  obtain ⟨frame', D', rfl⟩ := hs.exists_cons
  exact hs₁.close

theorem conclude {T : Expr → Expr → Prop} {build build' : Note → Expr} {n : Note} {τ : Ty}
    (h : ∀ n' : Note, n'.untyped = n.untyped → T (build n') (build' n')) :
    RenamesTo ρ D D T (conclude build n τ) (conclude build' n τ) := by
  intro s s' hs found hfound
  unfold Typing.conclude at hfound ⊢
  cases hn : n.ty? with
  | none =>
    rw [hn] at hfound
    exact ⟨hfound, h _ rfl, hs⟩
  | some known =>
    rw [hn] at hfound
    dsimp only at hfound ⊢
    split at hfound
    · rename_i hknown
      simp only [if_pos hknown]
      exact ⟨hfound, h n rfl, hs⟩
    · cases hfound

end RenamesTo

end Checker

open Checker (RenamesTo)

/-! ## What is demanded -/

theorem blame_iff {γ : Type} {l : Location} {r : Except TypeError γ} {found : γ} :
    blame l r = .ok found ↔ r = .ok found := by
  cases r <;> simp [blame]

/-- A question about a name has the same answer under its new name. -/
theorem ask_renamed {δ : Type} {ρ : Renaming} {D : Stack Declaration} {l : Location} {x : String}
    {question question' : Option (Binding Ty) → Except TypeError δ}
    (hnone : ∀ answer, question none ≠ .ok answer)
    (hsome : ∀ b answer, question (some b) = .ok answer → question' (some b) = .ok answer) {s s' : Scopes}
    (hs : Renames ρ Eq D s s') {answer : δ} (h : blame l (question (s.resolve? x)) = .ok answer) :
    blame l (question' (s'.resolve? (renamedUse ρ.name D x))) = .ok answer := by
  rw [blame_iff] at h ⊢
  cases hx : s.resolve? x with
  | none =>
    rw [hx] at h
    exact absurd h (hnone answer)
  | some b =>
    obtain ⟨b', hb', rfl⟩ := hs.resolve? hx
    rw [hx] at h
    rw [hb']
    exact hsome b answer h

theorem variableType_renamed {x y : String} (b : Binding Ty) (τ : Ty) (h : variableType x (some b) = .ok τ) :
    variableType y (some b) = .ok τ := by
  cases b with
  | builtin => cases h
  | value υ =>
    cases υ with
    | function => cases h
    | _ => exact h

theorem callSignature_renamed {x y : String} {given : Nat} (b : Binding Ty) (σ : Signature)
    (h : callSignature x given (some b) = .ok σ) : callSignature y given (some b) = .ok σ := by
  obtain ⟨hcallee, hlength⟩ := callSignature_ok h
  refine callSignature_run ?_ hlength
  cases b with
  | builtin b => exact hcallee
  | value υ =>
    cases υ with
    | function => exact hcallee
    | _ => cases hcallee

theorem demandCondition_renamed {c c' : Expr} {τ : Ty} (h : demandCondition c τ = .ok ()) :
    demandCondition c' τ = .ok () :=
  if_pos (demandCondition_ok h)

theorem demandArgument_renamed {e e' : Expr} {expected τ : Ty} (h : demandArgument expected e τ = .ok ()) :
    demandArgument expected e' τ = .ok () :=
  if_pos (demandArgument_ok h)

theorem initialType_renamed {x y : String} {declared? : Option Ty} {τ υ : Ty}
    (h : initialType x declared? τ = .ok υ) : initialType y declared? τ = .ok υ := by
  unfold initialType at h ⊢
  cases declared? with
  | none => exact h
  | some declared =>
    dsimp only at h ⊢
    split at h
    · rename_i hτ
      rw [if_pos hτ]
      exact h
    · cases h

theorem isVariable_renamed (ρ : String → String) (here : Site) (D : Stack Declaration) (e : Expr) :
    isVariable (e.renamed ρ here D) = isVariable e := by
  cases e <;> rfl

/-! ## Expressions -/

mutual

/-- An expression that is accepted is accepted with other names for its variables, and gets the same notes. -/
theorem checkExpr_renamed (ρ : Renaming) (result? : Option Ty) :
    ∀ (e : Expr) (here : Site) (D : Stack Declaration), Covers ρ e.subexpressions →
      RenamesTo ρ D (D.declareAll (e.introduces here)) (IsRenamed ρ here D e) (checkExpr result? e)
        (checkExpr result? (e.renamed ρ.name here D))
  | .int .., here, D, _ | .bool .., here, D, _ | .unit .., here, D, _ | .control .., here, D, _ => by
    rw [Expr.renamed, checkExpr, Expr.introduces, Stack.declareAll_nil]
    exact .conclude fun n' hn => ⟨by simp [Expr.untyped, hn], rfl⟩
  | .name n x, here, D, _ => by
    rw [Expr.renamed, checkExpr, checkExpr, Expr.introduces, Stack.declareAll_nil]
    refine .ask (fun s s' hs τ => ask_renamed nofun variableType_renamed hs) fun _ τ _ => ?_
    exact .conclude fun n' hn => ⟨by simp [Expr.untyped, hn], rfl⟩
  | .leave n, here, D, _ => by
    rw [Expr.renamed, checkExpr, Expr.introduces, Stack.declareAll_nil]
    refine .ask (fun _ _ _ _ h => h) fun _ υ _ => ?_
    exact .conclude fun n' hn => ⟨by simp [Expr.untyped, hn], rfl⟩
  | .unary n op e, here, D, h => by
    rw [Expr.renamed, checkExpr, checkExpr, Expr.introduces]
    refine .andThen (checkExpr_renamed ρ result? e _ D h.tail) fun a a' τ ⟨ha, ha'⟩ => ?_
    refine .ask (fun _ _ _ _ h => h) fun _ υ _ => ?_
    exact .conclude fun n' hn => ⟨by simp [Expr.untyped, hn, ha], by rw [ha']; rfl⟩
  | .binary n op l lhs rhs, here, D, h => by
    obtain ⟨hl, hr⟩ := Covers.append.1 h.tail
    rw [Expr.renamed, checkExpr, checkExpr, Expr.introduces, Stack.declareAll_append]
    refine .andThen (checkExpr_renamed ρ result? lhs _ D hl) fun a a' τ ⟨ha, ha'⟩ => ?_
    refine .andThen (checkExpr_renamed ρ result? rhs _ _ hr) fun b b' υ ⟨hb, hb'⟩ => ?_
    refine .ask (fun _ _ _ _ h => h) fun _ υ _ => ?_
    refine .conclude fun n' hn => ⟨by simp [Expr.untyped, hn, ha, hb], ?_⟩
    rw [Expr.renamed, ha', hb', Expr.introduces_of_untyped a ha]
  | .assign n l target value, here, D, h => by
    obtain ⟨ht, hv⟩ := Covers.append.1 h.tail
    rw [Expr.renamed, checkExpr, checkExpr, Expr.introduces, Stack.declareAll_append, isVariable_renamed]
    split
    · refine .andThen (checkExpr_renamed ρ result? target _ D ht) fun a a' τ ⟨ha, ha'⟩ => ?_
      refine .andThen (checkExpr_renamed ρ result? value _ _ hv) fun b b' υ ⟨hb, hb'⟩ => ?_
      split
      · refine .conclude fun n' hn => ⟨by simp [Expr.untyped, hn, ha, hb], ?_⟩
        rw [Expr.renamed, ha', hb', Expr.introduces_of_untyped a ha]
      · exact .fail
    · exact .fail
  | .ifThen n c t, here, D, h | .loop n c t, here, D, h => by
    obtain ⟨hc, ht⟩ := Covers.append.1 h.tail
    rw [Expr.renamed, checkExpr, checkExpr, Expr.introduces, Stack.declareAll_append]
    refine .andThen (.ensure (checkExpr_renamed ρ result? c _ D hc) fun _ _ _ _ => demandCondition_renamed)
      fun a a' _ ⟨ha, ha'⟩ => ?_
    refine .andThen (checkExpr_renamed ρ result? t _ _ ht) fun b b' _ ⟨hb, hb'⟩ => ?_
    refine .conclude fun n' hn => ⟨by simp [Expr.untyped, hn, ha, hb], ?_⟩
    rw [Expr.renamed, ha', hb', Expr.introduces_of_untyped a ha]
  | .ifElse n c t e, here, D, h => by
    obtain ⟨hc, hte⟩ := Covers.append.1 h.tail
    obtain ⟨ht, he⟩ := Covers.append.1 hte
    rw [Expr.renamed, checkExpr, checkExpr, Expr.introduces, ← List.append_assoc, Stack.declareAll_append,
      Stack.declareAll_append]
    refine .andThen (.ensure (checkExpr_renamed ρ result? c _ D hc) fun _ _ _ _ => demandCondition_renamed)
      fun a a' _ ⟨ha, ha'⟩ => ?_
    refine .andThen (checkExpr_renamed ρ result? t _ _ ht) fun b b' τ ⟨hb, hb'⟩ => ?_
    refine .andThen (checkExpr_renamed ρ result? e _ _ he) fun d d' υ ⟨hd, hd'⟩ => ?_
    split
    · refine .conclude fun n' hn => ⟨by simp [Expr.untyped, hn, ha, hb, hd], ?_⟩
      rw [Expr.renamed, ha', hb', hd', Stack.declareAll_append, Expr.introduces_of_untyped a ha,
        Expr.introduces_of_untyped b hb]
    · exact .fail
  | .block n es, here, D, h => by
    rw [Expr.renamed, checkExpr, checkExpr, Expr.introduces, Stack.declareAll_nil]
    refine .andThen (.inScope (checkStatements_renamed ρ result? es .unit here 0 ([] :: D) h.tail))
      fun ts ts' τ ⟨hts, hts'⟩ => ?_
    exact .conclude fun n' hn => ⟨by simp [Expr.untyped, hn, hts], by rw [hts']; rfl⟩
  | .declare n x written? e, here, D, h => by
    rw [Expr.renamed, checkExpr, checkExpr, Expr.introduces, Stack.declareAll_append]
    refine .andThen (checkExpr_renamed ρ result? e _ D h.tail) fun a a' τ ⟨ha, ha'⟩ => ?_
    refine .ask (fun s s' hs υ hυ => blame_iff.2 (initialType_renamed (blame_iff.1 hυ))) fun _ υ _ => ?_
    have hx : x.text ∈ ρ.names (.variable here) := h.binder
    refine .declaring hx ?_
    exact .conclude fun n' hn => ⟨by simp [Expr.untyped, hn, ha], by rw [ha']; rfl⟩
  | .call n f es, here, D, h => by
    rw [Expr.renamed, checkExpr, checkExpr, Expr.introduces, Expr.length_allRenamed]
    refine .ask (fun s s' hs σ => ask_renamed ?_ callSignature_renamed hs) fun s σ hσ => ?_
    · intro σ hσ
      have hcallee := (callSignature_ok hσ).1
      cases hcallee
    · have hlength : es.length = σ.parameters.length := (callSignature_ok (blame_ok hσ)).2.symm
      refine .andThen (checkArguments_renamed ρ result? es σ.parameters here 0 D hlength h.tail)
        fun ts ts' _ ⟨hts, hts'⟩ => ?_
      exact .conclude fun n' hn => ⟨by simp [Expr.untyped, hn, hts], by rw [hts']; rfl⟩
  | .leaveWith n e, here, D, h => by
    rw [Expr.renamed, checkExpr, checkExpr, Expr.introduces]
    split
    · refine .andThen (checkExpr_renamed ρ result? e _ D h.tail) fun a a' τ ⟨ha, ha'⟩ => ?_
      refine .ask (fun _ _ _ _ h => h) fun _ υ _ => ?_
      exact .conclude fun n' hn => ⟨by simp [Expr.untyped, hn, ha], by rw [ha']; rfl⟩
    · exact .fail

theorem checkStatements_renamed (ρ : Renaming) (result? : Option Ty) :
    ∀ (es : List Expr) (τ₀ : Ty) (whole : Site) (first : Nat) (D : Stack Declaration),
      Covers ρ (Expr.allSubexpressions es) →
      RenamesTo ρ D (D.declareAll (Expr.allIntroduce whole first es)) (AreRenamed ρ whole first D es)
        (checkStatements result? es τ₀) (checkStatements result? (Expr.allRenamed ρ.name whole first D es) τ₀)
  | [], τ₀, whole, first, D, _ => by
    rw [Expr.allRenamed, checkStatements, Expr.allIntroduce, Stack.declareAll_nil]
    exact .done ⟨rfl, rfl⟩
  | e :: es, τ₀, whole, first, D, h => by
    obtain ⟨he, hes⟩ := Covers.append.1 h
    rw [Expr.allRenamed, checkStatements, checkStatements, Expr.allIntroduce, Stack.declareAll_append]
    refine .andThen (checkExpr_renamed ρ result? e _ D he) fun a a' τ ⟨ha, ha'⟩ => ?_
    refine .map (checkStatements_renamed ρ result? es τ whole (first + 1) _ hes) fun ts ts' ⟨hts, hts'⟩ => ?_
    refine ⟨by rw [Expr.allUntyped, Expr.allUntyped, ha, hts], ?_⟩
    rw [Expr.allRenamed, ha', hts', Expr.introduces_of_untyped a ha]

theorem checkArguments_renamed (ρ : Renaming) (result? : Option Ty) :
    ∀ (es : List Expr) (τs : List Ty) (whole : Site) (first : Nat) (D : Stack Declaration),
      es.length = τs.length → Covers ρ (Expr.allSubexpressions es) →
      RenamesTo ρ D (D.declareAll (Expr.allIntroduce whole first es)) (AreRenamed ρ whole first D es)
        (checkArguments result? es τs) (checkArguments result? (Expr.allRenamed ρ.name whole first D es) τs)
  | [], τs, whole, first, D, _, _ => by
    rw [Expr.allRenamed, checkArguments, Expr.allIntroduce, Stack.declareAll_nil]
    · exact .done ⟨rfl, rfl⟩
    · simp
  | e :: es, τ :: τs, whole, first, D, hlength, h => by
    obtain ⟨he, hes⟩ := Covers.append.1 h
    rw [Expr.allRenamed, checkArguments, checkArguments, Expr.allIntroduce, Stack.declareAll_append]
    refine .andThen (.ensure (checkExpr_renamed ρ result? e _ D he) fun _ _ _ _ => demandArgument_renamed)
      fun a a' _ ⟨ha, ha'⟩ => ?_
    refine .map (checkArguments_renamed ρ result? es τs whole (first + 1) _ (Nat.succ.inj hlength) hes)
      fun ts ts' ⟨hts, hts'⟩ => ?_
    refine ⟨by rw [Expr.allUntyped, Expr.allUntyped, ha, hts], ?_⟩
    rw [Expr.allRenamed, ha', hts', Expr.introduces_of_untyped a ha]

end

/-! ## Functions -/

/-- A definition that is the same as another one but for types, and that definition with other names. -/
def IsRenamedFunction (ρ : Renaming) (i : Nat) (D : Stack Declaration) (f t t' : FunctionDefinition) : Prop :=
  t.untyped = f.untyped ∧ t' = t.renamed ρ.name i D

/-- Parameters are declared under their new names. -/
theorem declaringParameters_renamed {α α' γ : Type} {ρ : Renaming} {D₁ : Stack Declaration} {T : α → α' → Prop}
    {c : Checker α γ} {c' : Checker α' γ} {tree : α} {tree' : α'} :
    ∀ (ps : List Parameter) (D : Stack Declaration) (decl : Nat → Declaration), (∀ j, (decl j).isLocal = true) →
      (∀ p ∈ ps, p.name.text ∈ ρ.locals) →
      RenamesTo ρ (D.declareAll (ps.mapIdx fun j p => (p.name.text, decl j))) D₁ T c c' →
      RenamesTo ρ D D₁ T (declaringParameters tree c ps)
        (declaringParameters tree' c' (ps.map (·.renamed ρ.name)))
  | [], D, decl, _, _, hc => by
    rwa [List.mapIdx_nil, Stack.declareAll_nil] at hc
  | p :: ps, D, decl, hlocal, hps, hc => by
    obtain ⟨hp, hps⟩ := List.forall_mem_cons.1 hps
    rw [List.mapIdx_cons, ← List.singleton_append, Stack.declareAll_append] at hc
    have hx : p.name.text ∈ ρ.names (decl 0) := by rwa [Renaming.names, if_pos (hlocal 0)]
    have hname : (p.renamed ρ.name).name.text = (decl 0).rename ρ.name p.name.text :=
      (if_pos (hlocal 0)).symm
    rw [List.map_cons, declaringParameters, declaringParameters, hname]
    refine .declaring hx ?_
    exact declaringParameters_renamed ps _ (fun j => decl (j + 1)) (fun j => hlocal (j + 1)) hps hc

theorem checkFunction_renamed (ρ : Renaming) (f : FunctionDefinition) (i : Nat) (D : Stack Declaration)
    (hps : ∀ p ∈ f.parameters, p.name.text ∈ ρ.locals) (hbody : Covers ρ f.body.subexpressions) :
    RenamesTo ρ D D (IsRenamedFunction ρ i D f) (checkFunction f) (checkFunction (f.renamed ρ.name i D)) := by
  refine .ensure (.inScope (declaringParameters_renamed f.parameters ([] :: D) (.parameter i) (fun _ => rfl) hps
    (.map (checkExpr_renamed ρ _ f.body (.function i) _ hbody) ?_))) ?_
  · rintro t t' ⟨ht, rfl⟩
    exact ⟨congrArg (fun body => { f with body }) ht, rfl⟩
  · rintro t t' τ ⟨ht, rfl⟩ hdemand
    unfold demandBody at hdemand ⊢
    split at hdemand
    · rename_i hτ
      exact if_pos hτ
    · cases hdemand

theorem checkFunctions_renamed (ρ : Renaming) (D : Stack Declaration) :
    ∀ (fs : List FunctionDefinition) (number : Nat → Nat),
      (∀ f ∈ fs, ∀ p ∈ f.parameters, p.name.text ∈ ρ.locals) → (∀ f ∈ fs, Covers ρ f.body.subexpressions) →
      RenamesTo ρ D D
        (fun ts ts' => ts.map (·.untyped) = fs.map (·.untyped) ∧
          ts' = ts.mapIdx fun i t => t.renamed ρ.name (number i) D)
        (checkFunctions fs) (checkFunctions (fs.mapIdx fun i f => f.renamed ρ.name (number i) D))
  | [], _, _, _ => .done ⟨rfl, rfl⟩
  | f :: fs, number, hps, hbodies => by
    obtain ⟨hp, hps⟩ := List.forall_mem_cons.1 hps
    obtain ⟨hbody, hbodies⟩ := List.forall_mem_cons.1 hbodies
    rw [List.mapIdx_cons, checkFunctions, checkFunctions]
    refine .andThen (checkFunction_renamed ρ f (number 0) D hp hbody) fun t t' _ ht => ?_
    refine .map (checkFunctions_renamed ρ D fs (fun i => number (i + 1)) hps hbodies) fun ts ts' hts => ?_
    exact ⟨congrArg₂ List.cons ht.1 hts.1, by rw [List.mapIdx_cons, ht.2, hts.2]⟩

/-! ## Modules -/

/-- Functions are declared as before. -/
theorem declareFunctions_renamed (ρ : Renaming) (D : Stack Declaration) :
    ∀ (fs : List FunctionDefinition) (number : Nat → Nat) (s : Scopes),
      (fs.mapIdx fun i f => f.renamed ρ.name (number i) D).foldlM (fun s f => declareFunction f s) s =
        fs.foldlM (fun s f => declareFunction f s) s
  | [], _, _ => rfl
  | f :: fs, number, s => by
    have hsignature : (f.renamed ρ.name (number 0) D).signature = f.signature := by
      simp [FunctionDefinition.signature, FunctionDefinition.renamed, Parameter.renamed, Function.comp_def]
    have hdeclare : declareFunction (f.renamed ρ.name (number 0) D) s = declareFunction f s := by
      unfold declareFunction
      rw [hsignature]
      rfl
    rw [List.mapIdx_cons, List.foldlM_cons, List.foldlM_cons, hdeclare]
    cases declareFunction f s with
    | error fault => rfl
    | ok s => exact declareFunctions_renamed ρ D fs (fun i => number (i + 1)) s

/-- What a renaming has to know of a module: its local variables, and the names of functions. -/
structure Fits (ρ : Renaming) (m : Module) : Prop where
  locals : ∀ x ∈ m.localNames, x ∈ ρ.locals
  globals : ∀ x, (rootFrame m.functions).lookup x ≠ none → x ∈ ρ.globals

namespace Fits

variable {ρ : Renaming} {m : Module}

theorem parameters (h : Fits ρ m) : ∀ f ∈ m.functions, ∀ p ∈ f.parameters, p.name.text ∈ ρ.locals :=
  fun _ hf _ hp => h.locals _
    (List.mem_append_left _ (List.mem_flatMap_of_mem hf (List.mem_map_of_mem hp)))

theorem covers (h : Fits ρ m) : Covers ρ m.subexpressions :=
  fun _ he _ hx => h.locals _ (List.mem_append_right _ (List.mem_filterMap.2 ⟨_, he, hx⟩))

theorem bodies (h : Fits ρ m) : ∀ f ∈ m.functions, Covers ρ f.body.subexpressions :=
  fun _ hf e he => h.covers e (List.mem_append_left _ (List.mem_flatMap_of_mem hf he))

theorem main (h : Fits ρ m) : Covers ρ m.body.subexpressions :=
  fun e he => h.covers e (List.mem_append_right _ he)

end Fits

theorem rootFrame_of_untyped {fs gs : List FunctionDefinition} (h : fs.map (·.untyped) = gs.map (·.untyped)) :
    rootFrame fs = rootFrame gs := by
  have hnames : fs.map (·.name.text) = gs.map (·.name.text) := by
    simpa [Function.comp_def, FunctionDefinition.untyped] using congrArg (List.map (·.name.text)) h
  have hmap : ∀ fs : List FunctionDefinition, (fs.mapIdx fun i f => (f.name.text, Declaration.function i)) =
      (fs.map (·.name.text)).mapIdx fun i x => (x, .function i) :=
    fun fs => List.ext_getElem? fun i => by simp [Function.comp_def]
  rw [rootFrame, rootFrame, hmap, hmap, hnames]

/-- A module that is accepted is accepted with other names for its parameters and variables, and every expression
gets the same type. -/
theorem checkModule_renamed {ρ : Renaming} {m : Module} {τ : Ty} (hρ : Fits ρ m)
    (h : (checkModule m).outcome = .ok τ) :
    (checkModule (m.renamed ρ.name)).outcome = .ok τ ∧
      (checkModule (m.renamed ρ.name)).tree = (checkModule m).tree.renamed ρ.name := by
  unfold checkModule at h ⊢
  have hdeclared := declareFunctions_renamed ρ m.rootDeclarations m.functions id ScopeChain.withBuiltins
  simp only [Module.renamed, id] at hdeclared ⊢
  rw [hdeclared]
  cases hs : m.functions.foldlM (fun s f => declareFunction f s) ScopeChain.withBuiltins with
  | error fault =>
    rw [hs] at h
    cases h
  | ok s =>
    rw [hs] at h
    obtain ⟨root, hstack, hroot, -, -⟩ := declareFunctions_ok hs (ScopeChain.stack_root _)
    have hknows : KnowsFunctions (fun f => .value f.signature.ty) m.functions s := ⟨root, hstack, hroot⟩
    have hscopes : Renames ρ Eq m.rootDeclarations s s :=
      hknows.renames hknows hρ.globals (fun _ => rfl) fun _ => rfl
    have hchecked : RenamesTo ρ m.rootDeclarations (m.rootDeclarations.declareAll (m.body.introduces .main))
        (fun t t' => t' = t.renamed ρ.name)
        ((checkFunctions m.functions).andThen (fun functions => { m with functions }) fun functions _ =>
          (checkExpr none m.body).map fun body => { m with functions, body })
        ((checkFunctions (m.renamed ρ.name).functions).andThen (fun functions => { m.renamed ρ.name with functions })
          fun functions _ => (checkExpr none (m.renamed ρ.name).body).map fun body => { m with functions, body }) := by
      refine .andThen (checkFunctions_renamed ρ m.rootDeclarations m.functions id hρ.parameters hρ.bodies)
        fun ts ts' _ hts => ?_
      refine .map (checkExpr_renamed ρ none m.body .main _ hρ.main) fun t t' ht => ?_
      have hroots : ({ m with functions := ts, body := t } : Module).rootDeclarations = m.rootDeclarations :=
        congrArg (fun frame => [frame]) (rootFrame_of_untyped hts.1)
      rw [Module.renamed, hroots, hts.2, ht.2]
      rfl
    obtain ⟨houtcome, htree, -⟩ := hchecked s s hscopes τ h
    exact ⟨houtcome, htree⟩

end Typing

end Exprc

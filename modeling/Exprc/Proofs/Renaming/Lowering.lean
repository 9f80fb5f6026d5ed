/-
Lowering a renamed tree. If a tree can be lowered then so can the renamed tree, from any numbers on, and the code
is the same but for numbers: no name of a parameter or a variable gets into code.
-/
import Exprc.Proofs.IR.Renumbering
import Exprc.Proofs.Lowering.Module
import Exprc.Proofs.Renaming.Checking
import Exprc.Proofs.Resolution.Lowering

namespace Exprc.Lowering

open Syntax IR

/-! ## What corresponds -/

/-- Names that refer to the same in code, but for numbers. -/
def BindingAlike (N : Numbering) (b b' : Binding Var) : Prop := b.inCode.Alike N b'.inCode

/-- What belongs to declared names are temporaries that were given out. -/
def State.OwnsGiven (L : State) : Prop := ∀ v ∈ L.owned, ∃ k < L.nextTemp, v = .temp k

/-- Lowering goes on from numbers that correspond, and under their new names the declared names stand for the
same. -/
structure StateAlike (ρ : Renaming) (N : Numbering) (D : Stack Declaration) (L L' : State) : Prop where
  temps : ∀ k, N.temp (L.nextTemp + k) (L'.nextTemp + k)
  labels : ∀ k, N.label (L.nextLabel + k) (L'.nextLabel + k)
  scopes : Renames ρ (BindingAlike N) D L.scopes L'.scopes
  owned : ∀ v v', Var.Alike N v v' → (v ∈ L.owned ↔ v' ∈ L'.owned)
  given : L.OwnsGiven
  given' : L'.OwnsGiven

theorem State.OwnsGiven.next {L : State} (h : L.OwnsGiven) :
    State.OwnsGiven { L with nextTemp := L.nextTemp + 1 } := by
  intro v hv
  obtain ⟨k, hk, rfl⟩ := h v hv
  exact ⟨k, Nat.lt_succ_of_lt hk, rfl⟩

/-- The next temporary is given to a declared name. -/
theorem State.OwnsGiven.declare {L : State} (h : L.OwnsGiven) (scopes : ScopeChain (Binding Var)) :
    State.OwnsGiven { L with nextTemp := L.nextTemp + 1, scopes, owned := .temp L.nextTemp :: L.owned } := by
  intro v hv
  rcases List.mem_cons.1 hv with rfl | hv
  · exact ⟨L.nextTemp, Nat.lt_succ_self _, rfl⟩
  · exact h.next v hv

theorem StateAlike.next {ρ : Renaming} {N : Numbering} {D : Stack Declaration} {L L' : State}
    (h : StateAlike ρ N D L L') :
    StateAlike ρ N D { L with nextTemp := L.nextTemp + 1 } { L' with nextTemp := L'.nextTemp + 1 } :=
  { h with
    temps := fun k => by simpa only [Nat.add_assoc] using h.temps (1 + k)
    given := h.given.next
    given' := h.given'.next }

/-- Fragments that are the same but for numbers. -/
structure Fragment.Alike (N : Numbering) (f f' : Fragment) : Prop where
  code : CodeAlike N f.code f'.code
  value : f.value.Alike N f'.value

/-- The labels of a loop, with other numbers. -/
structure LoopLabels.Alike (N : Numbering) (labels labels' : LoopLabels) : Prop where
  start : labels.start.Alike N labels'.start
  exit : labels.exit.Alike N labels'.exit

theorem LoopLabels.Alike.target {N : Numbering} {labels labels' : LoopLabels} (h : labels.Alike N labels') :
    ∀ c : LoopControl, (labels.target c).Alike N (labels'.target c)
  | .exit => h.exit
  | .next => h.start

section Fragments

variable {N : Numbering}

theorem emit_alike (l : Location) {ops ops' : List Op} (h : List.Forall₂ (Op.Alike N) ops ops') :
    CodeAlike N (emit l ops) (emit l ops') :=
  List.forall₂_map_left_iff.2 (List.forall₂_map_right_iff.2 (h.imp fun _ _ hop => ⟨rfl, hop⟩))

theorem codes_alike {fs fs' : List Fragment} (h : List.Forall₂ (Fragment.Alike N) fs fs') :
    CodeAlike N (fs.flatMap (·.code)) (fs'.flatMap (·.code)) :=
  List.rel_flatMap h fun _ _ hf => hf.code

theorem values_alike {fs fs' : List Fragment} (h : List.Forall₂ (Fragment.Alike N) fs fs') :
    List.Forall₂ (Var.Alike N) (fs.map (·.value)) (fs'.map (·.value)) :=
  List.rel_map (fun _ _ hf => hf.value) h

end Fragments

/-! ## Steps -/

theorem declareOwned_eq_ok {x : Name} {v : Var} {L L' : State} (h : declareOwned x v L = .ok ((), L')) :
    ∃ scopes, L.scopes.declare? x.text (.value v) = some scopes ∧
      L' = { L with scopes, owned := v :: L.owned } := by
  have hs := declareOwned_ok h
  rw [run_declareOwned hs] at h
  exact ⟨L'.scopes, hs, (congrArg Prod.snd (Except.ok.inj h)).symm⟩

section Steps

variable {α α' β β' : Type}

/-- From states that correspond, where one step of lowering succeeds the other one does. The results correspond
then, and the states again. -/
def RenumbersTo (ρ : Renaming) (N : Numbering) (D D₁ : Stack Declaration) (T : α → α' → Prop) (x : Lower α)
    (x' : Lower α') : Prop :=
  ∀ L L', StateAlike ρ N D L L' → ∀ a L₁, x L = .ok (a, L₁) →
    ∃ a' L₁', x' L' = .ok (a', L₁') ∧ T a a' ∧ StateAlike ρ N D₁ L₁ L₁'

namespace RenumbersTo

variable {ρ : Renaming} {N : Numbering} {D D₁ D₂ : Stack Declaration} {T : α → α' → Prop} {U : β → β' → Prop}
  {x : Lower α} {x' : Lower α'}

theorem pure {a : α} {a' : α'} (h : T a a') : RenumbersTo ρ N D D T (Pure.pure a) (Pure.pure a') := by
  intro L L' hL b L₁ hb
  cases hb
  exact ⟨a', L', rfl, h, hL⟩

theorem throw {fault : Fault LowerError} :
    RenumbersTo ρ N D D₁ T (MonadExcept.throw fault : Lower α) x' := by
  intro L L' _ a L₁ ha
  cases ha

theorem bind {next : α → Lower β} {next' : α' → Lower β'} (hx : RenumbersTo ρ N D D₁ T x x')
    (hnext : ∀ a a', T a a' → RenumbersTo ρ N D₁ D₂ U (next a) (next' a')) :
    RenumbersTo ρ N D D₂ U (x >>= next) (x' >>= next') := by
  intro L L' hL b L₂ hb
  obtain ⟨a, L₁, ha, hrest⟩ := bind_ok hb
  obtain ⟨a', L₁', ha', hT, hL₁⟩ := hx L L' hL a L₁ ha
  obtain ⟨b', L₂', hb', hU, hL₂⟩ := hnext a a' hT L₁ L₁' hL₁ b L₂ hrest
  exact ⟨b', L₂', (run_bind_ok ha').trans hb', hU, hL₂⟩

/-- Going through a list, after which the same names are declared. -/
theorem mapM {γ γ' : Type} {f : γ → Lower α} {f' : γ' → Lower α'} {cs : List γ}
    {cs' : List γ'} (h : List.Forall₂ (fun c c' => RenumbersTo ρ N D D T (f c) (f' c')) cs cs') :
    RenumbersTo ρ N D D (List.Forall₂ T) (cs.mapM f) (cs'.mapM f') := by
  induction h with
  | nil => exact .pure .nil
  | cons hc _ ih =>
    rw [List.mapM_cons, List.mapM_cons]
    exact .bind hc fun a a' ha => .bind ih fun as as' has => .pure (.cons ha has)

theorem freshTemp : RenumbersTo ρ N D D (Var.Alike N) freshTemp freshTemp := by
  intro L L' hL v L₁ hv
  cases hv
  exact ⟨_, _, run_freshTemp L', .temp (hL.temps 0), hL.next⟩

theorem freshLabel : RenumbersTo ρ N D D (Label.Alike N) freshLabel freshLabel := by
  intro L L' hL l L₁ hl
  cases hl
  exact ⟨_, _, run_freshLabel L', hL.labels 0,
    { hL with labels := fun k => by simpa only [Nat.add_assoc] using hL.labels (1 + k) }⟩

/-! ### Names -/

theorem resolve (x : String) (l : Location) :
    RenumbersTo ρ N D D (Var.Alike N) (resolve x l) (resolve (renamedUse ρ.name D x) l) := by
  intro L L' hL v L₁ hv
  obtain ⟨⟨b, hb, rfl⟩, rfl⟩ := resolve_ok hv
  obtain ⟨b', hb', halike⟩ := hL.scopes.resolve? hb
  refine ⟨b'.inCode, L', ?_, halike, hL⟩
  cases b' with
  | builtin b' => exact run_resolve_builtin l hb'
  | value v' => exact run_resolve_value l hb'

/-- A name is declared, and owns the next temporary then. -/
theorem declaring {x : Name} {d : Declaration} (hx : x.text ∈ ρ.names d) (hd : d.isLocal = true)
    {next : Var → Lower α} {next' : Var → Lower α'}
    (hnext : ∀ v v', v.Alike N v' → RenumbersTo ρ N (D.declareAll [(x.text, d)]) D₁ T (next v) (next' v')) :
    RenumbersTo ρ N D D₁ T
      (Lowering.freshTemp >>= fun v => declareOwned x v >>= fun _ => next v)
      (Lowering.freshTemp >>= fun v => declareOwned (x.renamed ρ.name) v >>= fun _ => next' v) := by
  intro L L' hL a L₁ ha
  have hv : Var.Alike N (.temp L.nextTemp) (.temp L'.nextTemp) := .temp (hL.temps 0)
  have hbinding : BindingAlike N (.value (.temp L.nextTemp)) (.value (.temp L'.nextTemp)) := hv
  rw [run_bind_ok (run_freshTemp L)] at ha
  obtain ⟨⟨⟩, L₂, hdeclare, hrest⟩ := bind_ok ha
  obtain ⟨scopes, hs, rfl⟩ := declareOwned_eq_ok hdeclare
  obtain ⟨scopes', hs', hscopes⟩ := hL.scopes.declare? hx hbinding hs
  rw [Declaration.rename, if_pos hd] at hs'
  have hdeclared : StateAlike ρ N (D.declareAll [(x.text, d)])
      { L with nextTemp := L.nextTemp + 1, scopes, owned := .temp L.nextTemp :: L.owned }
      { L' with nextTemp := L'.nextTemp + 1, scopes := scopes', owned := .temp L'.nextTemp :: L'.owned } :=
    { hL.next with
      scopes := hscopes
      owned := fun w w' hw => by rw [List.mem_cons, List.mem_cons, hw.eq_iff hv, hL.owned w w' hw]
      given := hL.given.declare _
      given' := hL.given'.declare _ }
  obtain ⟨a', L₁', ha', hT, hL₁⟩ := hnext _ _ hv _ _ hdeclared a L₁ hrest
  exact ⟨a', L₁', (run_bind_ok (run_freshTemp L')).trans ((run_bind_ok (run_declareOwned hs')).trans ha'), hT, hL₁⟩

theorem inScope {frame : List (String × Declaration)} (hx : RenumbersTo ρ N ([] :: D) (frame :: D) T x x') :
    RenumbersTo ρ N D D T (inScope x) (inScope x') := by
  intro L L' hL a L₁ ha
  obtain ⟨L₂, hlower, rfl⟩ := scoped_ok ha
  have hpushed : StateAlike ρ N ([] :: D) { L with scopes := L.scopes.push } { L' with scopes := L'.scopes.push } :=
    { hL with scopes := hL.scopes.push }
  obtain ⟨a', L₂', hlower', hT, hL₂⟩ := hx _ _ hpushed a L₂ hlower
  obtain ⟨frame', D', rfl⟩ := hL.scopes.exists_cons
  exact ⟨a', _, run_inScope_ok hlower', hT, { hL₂ with scopes := hL₂.scopes.close }⟩

/-! ### Fragments -/

theorem typeOf (n : Note) : RenumbersTo ρ N D D Eq (typeOf n) (typeOf n) := by
  intro L L' hL τ L₁ hτ
  obtain ⟨hn, rfl⟩ := typeOf_ok hτ
  exact ⟨τ, L', run_typeOf hn L', rfl, hL⟩

theorem applyOperator (l : Location) (b : Builtin) {operands operands' : List Fragment}
    (h : List.Forall₂ (Fragment.Alike N) operands operands') :
    RenumbersTo ρ N D D (Fragment.Alike N) (applyOperator l b operands) (applyOperator l b operands') :=
  .bind .freshTemp fun _ _ htarget => .pure
    ⟨List.rel_append (codes_alike h) (emit_alike l (.cons (.call (.named b.name) (values_alike h) htarget) .nil)),
      htarget⟩

theorem mergeTarget (l : Location) {v v' : Var} (hv : v.Alike N v') :
    RenumbersTo ρ N D D (Fragment.Alike N) (mergeTarget l v) (mergeTarget l v') := by
  intro L L' hL f L₁ hf
  have htemp : v.isTemp = v'.isTemp := by cases hv <;> rfl
  have howned : L.owned.contains v = L'.owned.contains v' := by
    rw [Bool.eq_iff_iff, List.contains_iff_mem, List.contains_iff_mem]
    exact hL.owned v v' hv
  unfold Lowering.mergeTarget at hf ⊢
  rw [run_get] at hf ⊢
  rw [← htemp, ← howned]
  split at hf
  · rename_i hreused
    rw [if_pos hreused]
    exact RenumbersTo.pure ⟨.nil, hv⟩ L L' hL f L₁ hf
  · rename_i hcopied
    rw [if_neg hcopied]
    have hcopy : RenumbersTo ρ N D D (Fragment.Alike N)
        (do let target ← Lowering.freshTemp; return ⟨emit l [.copy v target], target⟩)
        (do let target ← Lowering.freshTemp; return ⟨emit l [.copy v' target], target⟩) :=
      .bind .freshTemp fun _ _ htarget => .pure
        ⟨emit_alike l (.cons (.copy hv htarget) .nil), htarget⟩
    exact hcopy L L' hL f L₁ hf

end RenumbersTo

end Steps

/-! ## Expressions -/

section Expressions

variable (ρ : Renaming) (N : Numbering)

mutual

/-- An expression that can be lowered can be lowered with other names for its variables. -/
theorem lowerExpr_renamed : ∀ (e : Expr) (here : Site) (D : Stack Declaration) {loop? loop?' : Option LoopLabels},
    Option.Rel (LoopLabels.Alike N) loop? loop?' → Covers ρ e.subexpressions →
    RenumbersTo ρ N D (D.declareAll (e.introduces here)) (Fragment.Alike N) (lowerExpr loop? e)
      (lowerExpr loop?' (e.renamed ρ.name here D))
  | .int n value, here, D, _, _, _, _ => by
    rw [Expr.renamed, lowerExpr, lowerExpr, Expr.introduces, Stack.declareAll_nil]
    exact .bind .freshTemp fun _ _ ht => .pure ⟨emit_alike _ (.cons (.loadInt value ht) .nil), ht⟩
  | .bool n value, here, D, _, _, _, _ => by
    rw [Expr.renamed, lowerExpr, lowerExpr, Expr.introduces, Stack.declareAll_nil]
    exact .bind .freshTemp fun _ _ ht => .pure ⟨emit_alike _ (.cons (.loadBool value ht) .nil), ht⟩
  | .unit n, here, D, _, _, _, _ => by
    rw [Expr.renamed, lowerExpr, lowerExpr, Expr.introduces, Stack.declareAll_nil]
    exact .pure ⟨.nil, .unit⟩
  | .name n x, here, D, _, _, _, _ => by
    rw [Expr.renamed, lowerExpr, lowerExpr, Expr.introduces, Stack.declareAll_nil]
    exact .bind (.resolve x n.location) fun _ _ hv => .pure ⟨.nil, hv⟩
  | .unary n op e, here, D, _, _, hloop, h => by
    rw [Expr.renamed, lowerExpr, lowerExpr, Expr.introduces]
    exact .bind (lowerExpr_renamed e _ D hloop h.tail) fun f f' hf =>
      .applyOperator n.location op.builtin (.cons hf .nil)
  | .binary n op l lhs rhs, here, D, _, _, hloop, h => by
    obtain ⟨hl, hr⟩ := Covers.append.1 h.tail
    rw [Expr.renamed, lowerExpr, lowerExpr, Expr.introduces, Stack.declareAll_append]
    split
    · refine .bind .freshLabel fun _ _ hright => .bind .freshLabel fun _ _ hskip =>
        .bind .freshLabel fun _ _ hdone => ?_
      refine .bind (lowerExpr_renamed lhs _ D hloop hl) fun f f' hf => ?_
      refine .bind (lowerExpr_renamed rhs _ _ hloop hr) fun g g' hg => ?_
      refine .bind .freshTemp fun _ _ ht => .pure ⟨?_, ht⟩
      refine List.rel_append (List.rel_append (List.rel_append hf.code (emit_alike _ ?_)) hg.code)
        (emit_alike _ ?_)
      · refine .cons ?_ (.cons (.label hright) .nil)
        split
        · exact .branch hf.value hskip hright
        · exact .branch hf.value hright hskip
      · exact .cons (.copy hg.value ht) (.cons (.jump hdone) (.cons (.label hskip)
          (.cons (.loadBool _ ht) (.cons (.jump hdone) (.cons (.label hdone) .nil)))))
    · refine .bind (lowerExpr_renamed lhs _ D hloop hl) fun f f' hf => ?_
      refine .bind (lowerExpr_renamed rhs _ _ hloop hr) fun g g' hg => ?_
      exact .applyOperator n.location op.builtin (.cons hf (.cons hg .nil))
  | .assign n l target value, here, D, _, _, hloop, h => by
    obtain ⟨-, hv⟩ := Covers.append.1 h.tail
    rw [Expr.introduces, Stack.declareAll_append]
    cases target with
    | name n' x =>
      rw [Expr.renamed, Expr.renamed, lowerExpr, lowerExpr, Expr.introduces, Stack.declareAll_nil]
      refine .bind (.resolve x n'.location) fun _ _ hx => ?_
      refine .bind (lowerExpr_renamed value _ D hloop hv) fun f f' hf => .pure ⟨?_, hf.value⟩
      exact List.rel_append hf.code (emit_alike _ (.cons (.copy hf.value hx) .nil))
    | _ => exact .throw
  | .ifThen n c t, here, D, _, _, hloop, h => by
    obtain ⟨hc, ht⟩ := Covers.append.1 h.tail
    rw [Expr.renamed, lowerExpr, lowerExpr, Expr.introduces, Stack.declareAll_append]
    refine .bind .freshLabel fun _ _ hyes => .bind .freshLabel fun _ _ hdone => ?_
    refine .bind (lowerExpr_renamed c _ D hloop hc) fun f f' hf => ?_
    refine .bind (lowerExpr_renamed t _ _ hloop ht) fun g g' hg => .pure ⟨?_, .unit⟩
    refine List.rel_append (List.rel_append (List.rel_append hf.code (emit_alike _ ?_)) hg.code)
      (emit_alike _ (.cons (.label hdone) .nil))
    exact .cons (.branch hf.value hyes hdone) (.cons (.label hyes) .nil)
  | .ifElse n c t e, here, D, _, _, hloop, h => by
    obtain ⟨hc, hte⟩ := Covers.append.1 h.tail
    obtain ⟨ht, he⟩ := Covers.append.1 hte
    rw [Expr.renamed, lowerExpr, lowerExpr, Expr.introduces, ← List.append_assoc, Stack.declareAll_append,
      Stack.declareAll_append]
    refine .bind (.typeOf n) fun τ τ' hτ => ?_
    subst hτ
    refine .bind .freshLabel fun _ _ hyes => .bind .freshLabel fun _ _ hno =>
      .bind .freshLabel fun _ _ hdone => ?_
    refine .bind (lowerExpr_renamed c _ D hloop hc) fun f f' hf => ?_
    refine .bind (lowerExpr_renamed t _ _ hloop ht) fun g g' hg => ?_
    have htest := List.rel_append (List.rel_append hf.code (emit_alike n.location
      (.cons (.branch hf.value hyes hno) (.cons (.label hyes) .nil)))) hg.code
    dsimp only
    split
    · refine .bind (lowerExpr_renamed e _ _ hloop he) fun k k' hk => .pure ⟨?_, .unit⟩
      exact List.rel_append (List.rel_append (List.rel_append htest
        (emit_alike _ (.cons (.jump hdone) (.cons (.label hno) .nil)))) hk.code)
        (emit_alike _ (.cons (.label hdone) .nil))
    · refine .bind (.mergeTarget n.location hg.value) fun m m' hm => ?_
      refine .bind (lowerExpr_renamed e _ _ hloop he) fun k k' hk => .pure ⟨?_, hm.value⟩
      exact List.rel_append (List.rel_append (List.rel_append (List.rel_append htest hm.code)
        (emit_alike _ (.cons (.jump hdone) (.cons (.label hno) .nil)))) hk.code)
        (emit_alike _ (.cons (.copy hk.value hm.value) (.cons (.label hdone) .nil)))
  | .loop n c b, here, D, _, _, hloop, h => by
    obtain ⟨hc, hb⟩ := Covers.append.1 h.tail
    rw [Expr.renamed, lowerExpr, lowerExpr, Expr.introduces, Stack.declareAll_append]
    refine .bind .freshLabel fun _ _ hstart => .bind .freshLabel fun _ _ hbody =>
      .bind .freshLabel fun _ _ hexit => ?_
    refine .bind (lowerExpr_renamed c _ D hloop hc) fun f f' hf => ?_
    refine .bind (lowerExpr_renamed b _ _ (.some ⟨hstart, hexit⟩) hb) fun g g' hg => .pure ⟨?_, .unit⟩
    refine List.rel_append (List.rel_append (List.rel_append (List.rel_append
      (emit_alike _ (.cons (.label hstart) .nil)) hf.code) (emit_alike _ ?_)) hg.code) (emit_alike _ ?_)
    · exact .cons (.branch hf.value hbody hexit) (.cons (.label hbody) .nil)
    · exact .cons (.jump hstart) (.cons (.label hexit) .nil)
  | .block n es, here, D, _, _, hloop, h => by
    rw [Expr.renamed, lowerExpr, lowerExpr, Expr.introduces, Stack.declareAll_nil]
    exact .inScope (lowerStatements_renamed es here 0 ([] :: D) hloop .unit h.tail)
  | .declare n x written? e, here, D, _, _, hloop, h => by
    rw [Expr.renamed, lowerExpr, lowerExpr, Expr.introduces, Stack.declareAll_append]
    -- the value is lowered before the variable is in scope, so a name in it is not the variable
    refine .bind (lowerExpr_renamed e _ D hloop h.tail) fun f f' hf => ?_
    have hx : x.text ∈ ρ.names (.variable here) := h.binder
    refine .declaring hx rfl fun _ _ hv => .pure ⟨?_, .unit⟩
    exact List.rel_append hf.code (emit_alike _ (.cons (.copy hf.value hv) .nil))
  | .call n f es, here, D, _, _, hloop, h => by
    rw [Expr.renamed, lowerExpr, lowerExpr, Expr.introduces]
    refine .bind (.resolve f n.location) fun _ _ hcallee => ?_
    refine .bind (lowerArguments_renamed es here 0 D hloop h.tail) fun fs fs' hfs => ?_
    refine .bind .freshTemp fun _ _ ht => .pure ⟨?_, ht⟩
    exact List.rel_append (codes_alike hfs) (emit_alike _ (.cons (.call hcallee (values_alike hfs) ht) .nil))
  | .control n c, here, D, _, _, hloop, _ => by
    rw [Expr.introduces, Stack.declareAll_nil]
    cases hloop with
    | none => exact .throw
    | some hlabels => exact .pure ⟨emit_alike _ (.cons (.jump (hlabels.target c)) .nil), .unit⟩
  | .leave n, here, D, _, _, _, _ => by
    rw [Expr.renamed, lowerExpr, lowerExpr, Expr.introduces, Stack.declareAll_nil]
    exact .pure ⟨emit_alike _ (.cons (.leave .unit) .nil), .unit⟩
  | .leaveWith n e, here, D, _, _, hloop, h => by
    rw [Expr.renamed, lowerExpr, lowerExpr, Expr.introduces]
    refine .bind (lowerExpr_renamed e _ D hloop h.tail) fun f f' hf => .pure ⟨?_, .unit⟩
    exact List.rel_append hf.code (emit_alike _ (.cons (.leave hf.value) .nil))

theorem lowerStatements_renamed : ∀ (es : List Expr) (whole : Site) (first : Nat) (D : Stack Declaration)
    {loop? loop?' : Option LoopLabels}, Option.Rel (LoopLabels.Alike N) loop? loop?' →
    ∀ {last last' : Var}, last.Alike N last' → Covers ρ (Expr.allSubexpressions es) →
    RenumbersTo ρ N D (D.declareAll (Expr.allIntroduce whole first es)) (Fragment.Alike N)
      (lowerStatements loop? es last) (lowerStatements loop?' (Expr.allRenamed ρ.name whole first D es) last')
  | [], whole, first, D, _, _, _, _, _, hlast, _ => by
    rw [Expr.allRenamed, lowerStatements, lowerStatements, Expr.allIntroduce, Stack.declareAll_nil]
    exact .pure ⟨.nil, hlast⟩
  | e :: es, whole, first, D, _, _, hloop, _, _, _, h => by
    obtain ⟨he, hes⟩ := Covers.append.1 h
    rw [Expr.allRenamed, lowerStatements, lowerStatements, Expr.allIntroduce, Stack.declareAll_append]
    refine .bind (lowerExpr_renamed e _ D hloop he) fun f f' hf => ?_
    refine .bind (lowerStatements_renamed es whole (first + 1) _ hloop hf.value hes) fun g g' hg => ?_
    exact .pure ⟨List.rel_append hf.code hg.code, hg.value⟩

theorem lowerArguments_renamed : ∀ (es : List Expr) (whole : Site) (first : Nat) (D : Stack Declaration)
    {loop? loop?' : Option LoopLabels}, Option.Rel (LoopLabels.Alike N) loop? loop?' →
    Covers ρ (Expr.allSubexpressions es) →
    RenumbersTo ρ N D (D.declareAll (Expr.allIntroduce whole first es)) (List.Forall₂ (Fragment.Alike N))
      (lowerArguments loop? es) (lowerArguments loop?' (Expr.allRenamed ρ.name whole first D es))
  | [], whole, first, D, _, _, _, _ => by
    rw [Expr.allRenamed, lowerArguments, lowerArguments, Expr.allIntroduce, Stack.declareAll_nil]
    exact .pure .nil
  | e :: es, whole, first, D, _, _, hloop, h => by
    obtain ⟨he, hes⟩ := Covers.append.1 h
    rw [Expr.allRenamed, lowerArguments, lowerArguments, Expr.allIntroduce, Stack.declareAll_append]
    refine .bind (lowerExpr_renamed e _ D hloop he) fun f f' hf => ?_
    exact .bind (lowerArguments_renamed es whole (first + 1) _ hloop hes) fun fs fs' hfs => .pure (.cons hf hfs)

end

/-! ## Functions and top-level statements -/

/-- Parameters get variables under their new names. -/
theorem lowerParameters_renamed : ∀ (ps : List Parameter) (D : Stack Declaration) (decl : Nat → Declaration),
    (∀ j, (decl j).isLocal = true) → (∀ p ∈ ps, p.name.text ∈ ρ.locals) →
    RenumbersTo ρ N D (D.declareAll (ps.mapIdx fun j p => (p.name.text, decl j))) (List.Forall₂ (Var.Alike N))
      (ps.mapM lowerParameter) ((ps.map (·.renamed ρ.name)).mapM lowerParameter)
  | [], D, decl, _, _ => by
    rw [List.mapIdx_nil, Stack.declareAll_nil]
    exact .pure .nil
  | p :: ps, D, decl, hlocal, hps => by
    obtain ⟨hp, hps⟩ := List.forall_mem_cons.1 hps
    have hx : p.name.text ∈ ρ.names (decl 0) := by rwa [Renaming.names, if_pos (hlocal 0)]
    have hparameter : RenumbersTo ρ N D (D.declareAll [(p.name.text, decl 0)]) (Var.Alike N) (lowerParameter p)
        (lowerParameter (p.renamed ρ.name)) :=
      .declaring hx (hlocal 0) fun _ _ hv => .pure hv
    rw [List.mapIdx_cons, ← List.singleton_append, Stack.declareAll_append, List.map_cons, List.mapM_cons,
      List.mapM_cons]
    refine .bind hparameter fun v v' hv => ?_
    refine .bind (lowerParameters_renamed ps _ (fun j => decl (j + 1)) (fun j => hlocal (j + 1)) hps) ?_
    exact fun vs vs' hvs => .pure (.cons hv hvs)

/-- A definition lowers to a function that is the same but for numbers. -/
theorem lowerFunction_renamed (f : FunctionDefinition) (i : Nat) (D : Stack Declaration)
    (hps : ∀ p ∈ f.parameters, p.name.text ∈ ρ.locals) (hbody : Covers ρ f.body.subexpressions) :
    RenumbersTo ρ N D D (Function.Alike N) (lowerFunction f) (lowerFunction (f.renamed ρ.name i D)) := by
  have hparameters := lowerParameters_renamed ρ N f.parameters ([] :: D) (.parameter i) (fun _ => rfl) hps
  have hlowered := lowerExpr_renamed ρ N f.body (.function i) (f.declarations i D) .none hbody
  refine .inScope (.bind hparameters fun vs vs' hvs => .bind hlowered fun g g' hg => .pure ⟨rfl, hvs, ?_, hg.value⟩)
  have hends : (f.renamed ρ.name i D).body.endsInReturn = f.body.endsInReturn := Expr.endsInReturn_renamed ..
  have hlocation : (f.renamed ρ.name i D).body.location = f.body.location :=
    congrArg Note.location (Expr.note_renamed ..)
  rw [hends, hlocation]
  split
  · exact hg.code
  · exact List.rel_append hg.code (emit_alike _ (.cons (.leave hg.value) .nil))

/-- Top-level statements lower to a function that is the same but for numbers. -/
theorem lowerEntryPoint_renamed (e : Expr) (here : Site) (D : Stack Declaration) (h : Covers ρ e.subexpressions) :
    RenumbersTo ρ N D (D.declareAll (e.introduces here)) (Function.Alike N) (lowerEntryPoint e)
      (lowerEntryPoint (e.renamed ρ.name here D)) := by
  have hlocation : (e.renamed ρ.name here D).location = e.location := congrArg Note.location (Expr.note_renamed ..)
  unfold lowerEntryPoint
  rw [Expr.note_renamed, hlocation]
  refine .bind (lowerExpr_renamed ρ N e here D .none h) fun f f' hf => ?_
  refine .bind (.typeOf e.note) fun τ τ' hτ => ?_
  subst hτ
  cases printer? τ with
  | none => exact .pure ⟨rfl, .nil, hf.code, hf.value⟩
  | some b => exact .bind (.applyOperator _ b (.cons hf .nil)) fun g g' hg => .pure ⟨rfl, .nil, hg.code, hf.value⟩

end Expressions

/-! ## Modules -/

/-- A module is lowered if functions can be declared, all of them can be lowered one after the other, and then the
top-level statements. -/
theorem lower_eq_ok {m : Syntax.Module} {M : IR.Module} :
    lower m = .ok M ↔ ∃ L Fs L₁ F L₂, m.functions.forM declareFunction {} = .ok ((), L) ∧
      m.functions.mapM lowerFunction L = .ok (Fs, L₁) ∧ lowerEntryPoint m.body L₁ = .ok (F, L₂) ∧
      M = ⟨Fs ++ [F]⟩ := by
  unfold lower StateT.run'
  constructor
  · intro h
    cases hrun : lowerModule m {} with
    | error fault =>
      rw [hrun] at h
      cases h
    | ok r =>
      rw [hrun] at h
      cases h
      obtain ⟨⟨⟩, L, hdeclared, hrest⟩ := bind_ok hrun
      obtain ⟨Fs, L₁, hfunctions, hrest⟩ := bind_ok hrest
      obtain ⟨F, L₂, hmain, hpure⟩ := bind_ok hrest
      exact ⟨L, Fs, L₁, F, L₂, hdeclared, hfunctions, hmain, (pure_ok hpure).1.symm⟩
  · rintro ⟨L, Fs, L₁, F, L₂, hdeclared, hfunctions, hmain, rfl⟩
    have hrun : lowerModule m {} = .ok (⟨Fs ++ [F]⟩, L₂) :=
      (run_bind_ok hdeclared).trans ((run_bind_ok hfunctions).trans (run_bind_ok hmain))
    rw [hrun]
    rfl

theorem declareFunctions_renamed (ρ : String → String) (D : Stack Declaration) :
    ∀ (fs : List FunctionDefinition) (number : Nat → Nat),
      (fs.mapIdx fun i f => f.renamed ρ (number i) D).forM declareFunction = fs.forM declareFunction
  | [], _ => rfl
  | f :: fs, number => by
    rw [List.mapIdx_cons]
    exact congrArg (fun rest : Lower PUnit => declareFunction f >>= fun _ => rest)
      (declareFunctions_renamed ρ D fs fun i => number (i + 1))

/-- Lowering stands between two functions: only functions are in scope. -/
structure Between (fs : List FunctionDefinition) (L : State) : Prop where
  knows : KnowsFunctions (fun f => .value (.named f.name.text)) fs L.scopes
  given : L.OwnsGiven

/-- From between two functions lowering can go on with any numbers, under other names. -/
theorem Between.alike {ρ : Renaming} {fs : List FunctionDefinition} {L L' : State}
    (hρ : ∀ x, (rootFrame fs).lookup x ≠ none → x ∈ ρ.globals) (h : Between fs L) (h' : Between fs L') :
    StateAlike ρ (.shift L.nextTemp L'.nextTemp L.nextLabel L'.nextLabel) [rootFrame fs] L L' where
  temps k := ⟨k, rfl, rfl⟩
  labels k := ⟨k, rfl, rfl⟩
  scopes := h.knows.renames h'.knows hρ (fun f => Var.Alike.named f.name.text) fun b => Var.Alike.named b.name
  owned v v' hv := by
    -- none of the variables that correspond belongs to a declared name yet
    refine iff_of_false (fun hmem => ?_) fun hmem => ?_
    · obtain ⟨j, hj, rfl⟩ := h.given v hmem
      cases hv with
      | temp hk =>
        obtain ⟨k, rfl, -⟩ := hk
        omega
    · obtain ⟨j, hj, rfl⟩ := h'.given v' hmem
      cases hv with
      | temp hk =>
        obtain ⟨k, -, rfl⟩ := hk
        omega
  given := h.given
  given' := h'.given

/-- Lowering begins between two functions once all are declared. -/
theorem between_declared {fs : List FunctionDefinition} (hnodup : (fs.map (·.name.text)).Nodup)
    (hfree : ∀ f ∈ fs, Builtin.ofName? f.name.text = none) :
    ∃ L, fs.forM declareFunction {} = .ok ((), L) ∧ Between fs L := by
  obtain ⟨scopes, vars, hdeclared, hstack, hvars⟩ := run_declareFunctions (L := {}) (ScopeChain.stack_root _)
    hnodup fun f hf => by rw [Typing.lookup_builtins, hfree f hf]; rfl
  exact ⟨_, hdeclared, ⟨vars, hstack, hvars⟩, fun _ => nofun⟩

/-- A module that can be lowered has the same code with other names for its parameters and variables. -/
theorem lower_renamed {ρ : Renaming} {m : Syntax.Module} {M : IR.Module} (hρ : Typing.Fits ρ m)
    (hnodup : (m.functions.map (·.name.text)).Nodup)
    (hfree : ∀ f ∈ m.functions, Builtin.ofName? f.name.text = none) (h : lower m = .ok M) :
    lower (m.renamed ρ.name) = .ok M := by
  obtain ⟨L, hdeclared, hbetween⟩ := between_declared hnodup hfree
  have hN := Numbering.shift_keeps L.nextTemp L.nextLabel
  have hstart : StateAlike ρ _ m.rootDeclarations L L := hbetween.alike hρ.globals hbetween
  generalize Numbering.shift L.nextTemp L.nextTemp L.nextLabel L.nextLabel = N at hN hstart
  have hfunctions : List.Forall₂ (fun f f' => RenumbersTo ρ N m.rootDeclarations m.rootDeclarations
      (Function.Alike N) (lowerFunction f) (lowerFunction f')) m.functions (m.renamed ρ.name).functions := by
    refine List.forall₂_iff_get.2 ⟨by simp [Syntax.Module.renamed], fun i hi _ => ?_⟩
    have hmem : m.functions.get ⟨i, hi⟩ ∈ m.functions := List.get_mem _ _
    simpa [Syntax.Module.renamed] using
      lowerFunction_renamed ρ N _ i m.rootDeclarations (hρ.parameters _ hmem) (hρ.bodies _ hmem)
  obtain ⟨L₀, Fs, L₁, F, L₂, hL, hFs, hF, rfl⟩ := lower_eq_ok.1 h
  obtain rfl : L = L₀ := congrArg Prod.snd (Except.ok.inj (hdeclared.symm.trans hL))
  obtain ⟨Fs', L₁', hFs', hsame, hL₁⟩ := RenumbersTo.mapM hfunctions _ _ hstart Fs L₁ hFs
  obtain ⟨F', L₂', hF', hF₁, -⟩ :=
    lowerEntryPoint_renamed ρ N m.body .main m.rootDeclarations hρ.main L₁ L₁' hL₁ F L₂ hF
  have hsame : List.Forall₂ Eq Fs Fs' := hsame.imp fun _ _ hf => hf.eq hN
  rw [List.forall₂_eq_eq_eq] at hsame
  refine lower_eq_ok.2 ⟨L, Fs', L₁', F', L₂', ?_, hFs', hF', by rw [hsame, hF₁.eq hN]⟩
  exact (congrFun (declareFunctions_renamed ρ.name m.rootDeclarations m.functions id) {}).trans hdeclared

end Exprc.Lowering

/-
Places in lowered code. An instruction stands where an expression of the tree stands that was lowered, and lowering
that fails blames such a place or that of a name (`lower_delivers`).
-/
import Exprc.Lowering
import Exprc.Proofs.Places.Erasure
import Exprc.Proofs.Places.Within

namespace Exprc

namespace Lowering

open Syntax IR

/-! ## Steps -/

/-- What a step of lowering gives has a property, from all states; and if it fails, the fault has no place or one of a
kind. -/
def Delivers {α : Type} (P : Location → Prop) (good : α → Prop) (x : Lower α) : Prop :=
  ∀ L, (∀ a L', x L = .ok (a, L') → good a) ∧ ∀ fault, x L = .error fault → fault.Blames P

/-- Whether all instructions of some code stand at places of a kind. -/
def CodeWithin (P : Location → Prop) (code : List Instruction) : Prop := ∀ i ∈ code, P i.location

variable {α β : Type} {P : Location → Prop}

namespace CodeWithin

variable {code rest : List Instruction}

theorem nil : CodeWithin P [] := List.forall_mem_nil _

theorem append (h : CodeWithin P code) (h' : CodeWithin P rest) : CodeWithin P (code ++ rest) :=
  List.forall_mem_append.2 ⟨h, h'⟩

theorem emit {l : Location} (h : P l) (ops : List Op) : CodeWithin P (emit l ops) := by
  intro i hi
  obtain ⟨op, -, rfl⟩ := List.mem_map.1 hi
  exact h

theorem flatMap {fs : List Fragment} (h : ∀ f ∈ fs, CodeWithin P f.code) : CodeWithin P (fs.flatMap (·.code)) := by
  intro i hi
  obtain ⟨f, hf, hi⟩ := List.mem_flatMap.1 hi
  exact h f hf i hi

end CodeWithin

namespace Delivers

variable {good : α → Prop} {good' : β → Prop} {x : Lower α}

theorem pure {a : α} (h : good a) : Delivers P good (Pure.pure a) := by
  refine fun L => ⟨?_, nofun⟩
  rintro _ _ ⟨⟩
  exact h

theorem throw {fault : Fault LowerError} (h : fault.Blames P) : Delivers P good (MonadExcept.throw fault) := by
  refine fun L => ⟨nofun, ?_⟩
  rintro _ ⟨⟩
  exact h

theorem bind {next : α → Lower β} (h : Delivers P good x) (hnext : ∀ a, good a → Delivers P good' (next a)) :
    Delivers P good' (x >>= next) := by
  intro L
  have hrun : (x >>= next) L = (x L).bind fun p => next p.1 p.2 := rfl
  rw [hrun]
  cases hx : x L with
  | ok p => exact hnext p.1 ((h L).1 p.1 p.2 hx) p.2
  | error fault =>
    refine ⟨nofun, ?_⟩
    rintro _ ⟨⟩
    exact (h L).2 fault hx

/-- Steps that only look at the state or change it. -/
theorem get : Delivers P (fun _ => True) (MonadState.get : Lower State) := fun _ => ⟨fun _ _ _ => trivial, nofun⟩

theorem set (L : State) : Delivers P (fun _ => True) (MonadStateOf.set L : Lower PUnit) :=
  fun _ => ⟨fun _ _ _ => trivial, nofun⟩

theorem modify (f : State → State) : Delivers P (fun _ => True) (modify f : Lower PUnit) :=
  fun _ => ⟨fun _ _ _ => trivial, nofun⟩

theorem freshTemp : Delivers P (fun _ => True) freshTemp := fun _ => ⟨fun _ _ _ => trivial, nofun⟩

theorem freshLabel : Delivers P (fun _ => True) freshLabel := fun _ => ⟨fun _ _ _ => trivial, nofun⟩

theorem declare (name : String) (v : Var) {fault : Fault LowerError} (h : fault.Blames P) :
    Delivers P (fun _ => True) (declare name v fault) := by
  refine .bind .get fun L _ => ?_
  split
  · exact .set _
  · exact .throw h

theorem declareOwned {x : Name} (hx : P x.location) (v : Var) : Delivers P (fun _ => True) (declareOwned x v) :=
  .bind (.declare x.text v (.at hx _)) fun _ _ => .modify _

theorem resolve (x : String) {l : Location} (hl : P l) : Delivers P (fun _ => True) (resolve x l) := by
  refine .bind .get fun L _ => ?_
  split
  · exact .pure trivial
  · exact .pure trivial
  · exact .throw (.at hl _)

theorem inScope (h : Delivers P good x) : Delivers P good (inScope x) :=
  .bind (.modify _) fun _ _ => h.bind fun _ ha => .bind (.modify _) fun _ _ => .pure ha

theorem typeOf {n : Note} (hn : P n.location) : Delivers P (fun _ => True) (typeOf n) := by
  unfold Lowering.typeOf
  split
  · exact .pure trivial
  · exact .throw (.at hn _)

theorem applyOperator {l : Location} (hl : P l) (b : Builtin) {operands : List Fragment}
    (h : ∀ f ∈ operands, CodeWithin P f.code) :
    Delivers P (fun f => CodeWithin P f.code) (applyOperator l b operands) :=
  .bind .freshTemp fun _ _ => .pure (.append (.flatMap h) (.emit hl _))

theorem mergeTarget {l : Location} (hl : P l) (v : Var) :
    Delivers P (fun f => CodeWithin P f.code) (mergeTarget l v) := by
  refine .bind .get fun L _ => ?_
  split
  · exact .pure .nil
  · exact .bind .freshTemp fun _ _ => .pure (.emit hl _)

theorem mapM {γ : Type} {good : γ → Prop} {f : α → Lower γ} {as : List α} (h : ∀ a ∈ as, Delivers P good (f a)) :
    Delivers P (fun cs => ∀ c ∈ cs, good c) (as.mapM f) := by
  induction as with
  | nil => exact .pure (List.forall_mem_nil _)
  | cons a as ih =>
    obtain ⟨ha, has⟩ := List.forall_mem_cons.1 h
    rw [List.mapM_cons]
    exact ha.bind fun c hc => (ih has).bind fun cs hcs => .pure (List.forall_mem_cons.2 ⟨hc, hcs⟩)

theorem forM {f : α → Lower PUnit} {as : List α} (h : ∀ a ∈ as, Delivers P (fun _ => True) (f a)) :
    Delivers P (fun _ => True) (as.forM f) := by
  induction as with
  | nil => exact .pure trivial
  | cons a as ih =>
    obtain ⟨ha, has⟩ := List.forall_mem_cons.1 h
    exact ha.bind fun _ _ => ih has

end Delivers

/-! ## Expressions -/

mutual

/-- Where the code of an expression stands, and what is blamed where there is none. -/
theorem lowerExpr_delivers (loop? : Option LoopLabels) :
    ∀ e : Expr, e.Within P → Delivers P (fun f => CodeWithin P f.code) (lowerExpr loop? e)
  | .int n value, h | .bool n value, h => by
    simp only [lowerExpr]
    exact .bind .freshTemp fun _ _ => .pure (.emit h.location _)
  | .unit n, h => by
    simp only [lowerExpr]
    exact .pure .nil
  | .name n x, h => by
    simp only [lowerExpr]
    exact .bind (.resolve x h.location) fun _ _ => .pure .nil
  | .unary n op e, h => by
    obtain ⟨⟨hl, -⟩, he⟩ := List.forall_mem_cons.1 h
    simp only [lowerExpr]
    exact (lowerExpr_delivers loop? e he).bind fun f hf => .applyOperator hl _ (List.forall_mem_singleton.2 hf)
  | .binary n op l lhs rhs, h => by
    obtain ⟨⟨hl, -⟩, hparts⟩ := List.forall_mem_cons.1 h
    obtain ⟨hlhs, hrhs⟩ := List.forall_mem_append.1 hparts
    simp only [lowerExpr]
    split
    · refine .bind .freshLabel fun right _ => .bind .freshLabel fun skip _ => .bind .freshLabel fun done _ => ?_
      refine (lowerExpr_delivers loop? lhs hlhs).bind fun f hf => ?_
      refine (lowerExpr_delivers loop? rhs hrhs).bind fun g hg => .bind .freshTemp fun target _ => .pure ?_
      exact ((hf.append (.emit hl _)).append hg).append (.emit hl _)
    · refine (lowerExpr_delivers loop? lhs hlhs).bind fun f hf => ?_
      refine (lowerExpr_delivers loop? rhs hrhs).bind fun g hg => .applyOperator hl _ ?_
      exact List.forall_mem_cons.2 ⟨hf, List.forall_mem_singleton.2 hg⟩
  | .assign n l target value, h => by
    obtain ⟨⟨hl, -⟩, hparts⟩ := List.forall_mem_cons.1 h
    obtain ⟨htarget, hvalue⟩ := List.forall_mem_append.1 hparts
    have hplace : P target.location := Expr.Within.location htarget
    unfold lowerExpr
    split
    · refine .bind (.resolve _ hplace) fun v _ => (lowerExpr_delivers loop? value hvalue).bind fun f hf => ?_
      exact .pure (hf.append (.emit hplace _))
    · exact .throw (.at hplace _)
  | .ifThen n c t, h => by
    obtain ⟨⟨hl, -⟩, hparts⟩ := List.forall_mem_cons.1 h
    obtain ⟨hc, ht⟩ := List.forall_mem_append.1 hparts
    simp only [lowerExpr]
    refine .bind .freshLabel fun yes _ => .bind .freshLabel fun done _ => ?_
    refine (lowerExpr_delivers loop? c hc).bind fun f hf => (lowerExpr_delivers loop? t ht).bind fun g hg => .pure ?_
    exact ((hf.append (.emit hl _)).append hg).append (.emit hl _)
  | .ifElse n c t e, h => by
    obtain ⟨⟨hl, -⟩, hparts⟩ := List.forall_mem_cons.1 h
    obtain ⟨hc, hparts⟩ := List.forall_mem_append.1 hparts
    obtain ⟨ht, he⟩ := List.forall_mem_append.1 hparts
    simp only [lowerExpr]
    refine .bind (.typeOf hl) fun τ _ => ?_
    refine .bind .freshLabel fun yes _ => .bind .freshLabel fun no _ => .bind .freshLabel fun done _ => ?_
    refine (lowerExpr_delivers loop? c hc).bind fun f hf => (lowerExpr_delivers loop? t ht).bind fun g hg => ?_
    have htest : CodeWithin P (f.code ++ emit n.location [.branch f.value yes no, .label yes] ++ g.code) :=
      (hf.append (.emit hl _)).append hg
    split
    · refine (lowerExpr_delivers loop? e he).bind fun k hk => .pure ?_
      exact ((htest.append (.emit hl _)).append hk).append (.emit hl _)
    · refine .bind (.mergeTarget hl _) fun merge hmerge => (lowerExpr_delivers loop? e he).bind fun k hk => .pure ?_
      exact (((htest.append hmerge).append (.emit hl _)).append hk).append (.emit hl _)
  | .loop n c b, h => by
    obtain ⟨⟨hl, -⟩, hparts⟩ := List.forall_mem_cons.1 h
    obtain ⟨hc, hb⟩ := List.forall_mem_append.1 hparts
    simp only [lowerExpr]
    refine .bind .freshLabel fun start _ => .bind .freshLabel fun body _ => .bind .freshLabel fun exit _ => ?_
    refine (lowerExpr_delivers loop? c hc).bind fun f hf => ?_
    refine (lowerExpr_delivers _ b hb).bind fun g hg => .pure ?_
    exact ((((CodeWithin.emit hl _).append hf).append (.emit hl _)).append hg).append (.emit hl _)
  | .block n es, h => by
    obtain ⟨-, hes⟩ := List.forall_mem_cons.1 h
    simp only [lowerExpr]
    exact .inScope (lowerStatements_delivers loop? es .unit hes)
  | .declare n x written? e, h => by
    obtain ⟨⟨hl, hx⟩, he⟩ := List.forall_mem_cons.1 h
    simp only [lowerExpr]
    refine (lowerExpr_delivers loop? e he).bind fun f hf => .bind .freshTemp fun v _ => ?_
    exact .bind (.declareOwned (hx x rfl) v) fun _ _ => .pure (hf.append (.emit hl _))
  | .call n f es, h => by
    obtain ⟨⟨hl, -⟩, hes⟩ := List.forall_mem_cons.1 h
    simp only [lowerExpr]
    refine .bind (.resolve f hl) fun callee _ => (lowerArguments_delivers loop? es hes).bind fun fs hfs => ?_
    exact .bind .freshTemp fun target _ => .pure (.append (.flatMap hfs) (.emit hl _))
  | .control n c, h => by
    simp only [lowerExpr]
    split
    · exact .pure (.emit h.location _)
    · exact .throw (.at h.location _)
  | .leave n, h => by
    simp only [lowerExpr]
    exact .pure (.emit h.location _)
  | .leaveWith n e, h => by
    obtain ⟨⟨hl, -⟩, he⟩ := List.forall_mem_cons.1 h
    simp only [lowerExpr]
    exact (lowerExpr_delivers loop? e he).bind fun f hf => .pure (hf.append (.emit hl _))

theorem lowerStatements_delivers (loop? : Option LoopLabels) : ∀ (es : List Expr) (last : Var),
    Expr.AllWithin P es → Delivers P (fun f => CodeWithin P f.code) (lowerStatements loop? es last)
  | [], last, _ => by
    simp only [lowerStatements]
    exact .pure .nil
  | e :: es, last, h => by
    obtain ⟨he, hes⟩ := List.forall_mem_append.1 h
    simp only [lowerStatements]
    refine (lowerExpr_delivers loop? e he).bind fun f hf => ?_
    exact (lowerStatements_delivers loop? es f.value hes).bind fun g hg => .pure (hf.append hg)

theorem lowerArguments_delivers (loop? : Option LoopLabels) : ∀ es : List Expr,
    Expr.AllWithin P es → Delivers P (fun fs => ∀ f ∈ fs, CodeWithin P f.code) (lowerArguments loop? es)
  | [], _ => by
    simp only [lowerArguments]
    exact .pure (List.forall_mem_nil _)
  | e :: es, h => by
    obtain ⟨he, hes⟩ := List.forall_mem_append.1 h
    simp only [lowerArguments]
    refine (lowerExpr_delivers loop? e he).bind fun f hf => ?_
    exact (lowerArguments_delivers loop? es hes).bind fun fs hfs => .pure (List.forall_mem_cons.2 ⟨hf, hfs⟩)

end

/-! ## Functions and modules -/

theorem lowerParameter_delivers {p : Parameter} (h : P p.name.location) :
    Delivers P (fun _ => True) (lowerParameter p) :=
  .bind .freshTemp fun v _ => .bind (.declareOwned h v) fun _ _ => .pure trivial

theorem lowerFunction_delivers {f : FunctionDefinition} (h : f.Within P) :
    Delivers P (fun F => CodeWithin P F.code) (lowerFunction f) := by
  refine .inScope (.bind (.mapM fun p hp => lowerParameter_delivers (h.parameters p hp)) fun parameters _ => ?_)
  refine (lowerExpr_delivers none f.body h.body).bind fun body hbody => .pure ?_
  dsimp only
  split
  · exact hbody
  · exact hbody.append (.emit h.body.location _)

theorem lowerEntryPoint_delivers {body : Expr} (h : body.Within P) :
    Delivers P (fun F => CodeWithin P F.code) (lowerEntryPoint body) := by
  refine (lowerExpr_delivers none body h).bind fun fragment hfragment => .bind (.typeOf h.location) fun τ _ => ?_
  split
  · exact .pure hfragment
  · refine .bind (.applyOperator h.location _ (List.forall_mem_singleton.2 hfragment)) fun printed hprinted => ?_
    exact .pure hprinted

theorem lowerModule_delivers {m : Syntax.Module} (h : m.Within P) :
    Delivers P (fun M => ∀ F ∈ M.functions, CodeWithin P F.code) (lowerModule m) := by
  refine .bind (.forM fun f hf => .declare _ _ (.at (h.functions f hf).name _)) fun _ _ => ?_
  refine .bind (.mapM fun f hf => lowerFunction_delivers (h.functions f hf)) fun functions hfunctions => ?_
  refine (lowerEntryPoint_delivers h.body).bind fun main hmain => .pure ?_
  exact List.forall_mem_append.2 ⟨hfunctions, List.forall_mem_singleton.2 hmain⟩

/-- Where the code of a module stands, and what is blamed where there is none. -/
theorem lower_delivers {m : Syntax.Module} (h : m.Within P) :
    (∀ M, lower m = .ok M → ∀ F ∈ M.functions, ∀ i ∈ F.code, P i.location) ∧
      ∀ fault, lower m = .error fault → fault.Blames P := by
  have hrun : lower m = (lowerModule m {}).map (·.1) := rfl
  rw [hrun]
  cases hm : lowerModule m {} with
  | ok p =>
    refine ⟨?_, nofun⟩
    rintro _ ⟨⟩
    exact (lowerModule_delivers h {}).1 p.1 p.2 hm
  | error fault =>
    refine ⟨nofun, ?_⟩
    rintro _ ⟨⟩
    exact (lowerModule_delivers h {}).2 fault hm

end Lowering

end Exprc

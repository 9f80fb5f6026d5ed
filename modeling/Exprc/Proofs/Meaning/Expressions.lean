/-
Every expression simulated. With one more unit of fuel the evaluator goes through an expression once;
what it evaluates anew, another round of a loop or the body of a function, has less fuel and agrees with
lowered code by induction. The cases are those of lowering.
-/
import Exprc.Proofs.Meaning.Simulation

namespace Exprc.Meaning

open Syntax IR

section

variable {m : Syntax.Module} {sink : Sink} {again : Nat → Expr → Store → Result} {depth : Nat}
  {n : Note} {st : Store}

/-! ## Operators as calls -/

theorem evalExpr_unary {op : UnaryOp} {e : Expr} :
    evalExpr m sink again depth (.unary n op e) st =
      evalArguments m sink again depth [e] st fun vs st =>
        applyBuiltin sink n.location op.builtin vs st := by
  simp only [evalExpr, evalArguments]

theorem evalExpr_binary {op : BinaryOp} (hop : op.isShortCircuit = false) {pos : Location}
    {lhs rhs : Expr} :
    evalExpr m sink again depth (.binary n op pos lhs rhs) st =
      evalArguments m sink again depth [lhs, rhs] st fun vs st =>
        applyBuiltin sink n.location op.builtin vs st := by
  simp only [evalExpr, evalArguments, hop, Bool.false_eq_true, if_false]

end

end Exprc.Meaning

namespace Exprc.Lowering

open Syntax IR Typing Meaning

/-! ## Expressions -/

section

variable {m : Syntax.Module} {T : Ty} {M : IR.Module} {sink : Sink} {p : Spot} {ρ? : Option Ty}
  {fuel : Nat}

mutual

/-- The fragment of an expression does what the evaluator says. -/
theorem Lowers.simulates (hR : Ready M sink fuel m T)
    (hF : Unambiguous p.function.code) :
    ∀ {loop? : Option LoopLabels} {s s' : Stage} {e : Expr} {τ : Ty} {f : Fragment},
      Lowers (signatureOf? m.functions) ρ? loop? s e τ f s' → s.WF → Resolves p loop? →
      Expr.statementsDeclareInBlocks [e] = true → e.operandsSettled = true →
      Simulates M sink p ρ? loop? (fuel + 1) s.locals s'.locals s.nextTemp e τ f
        (evalExpr m sink (eval m sink fuel) p.waiting.length e)
  | _, s, _, _, _, _, .int, hs, _, _, _, post, frame, st, _, hrel =>
    ⟨1, _, .single step_loadInt, (Keeps.refl hrel).fresh hs rfl (Nat.le_refl _) rfl⟩
  | _, s, _, _, _, _, .bool, hs, _, _, _, post, frame, st, _, hrel =>
    ⟨1, _, .single step_loadBool, (Keeps.refl hrel).fresh hs rfl (Nat.le_refl _) rfl⟩
  | _, s, _, _, _, _, .unit, _, _, _, _, post, frame, st, _, hrel =>
    .value ⟨.refl hrel, rfl, rfl⟩
  | _, s, _, _, _, _, .name hl, _, _, _, _, post, frame, st, _, hrel => by
    obtain ⟨v, hv, hread, hty⟩ := hrel.find? hl
    simp only [evalExpr, hv]
    exact .value ⟨.refl hrel, hread, hty⟩
  | _, _, _, .unary n op e, _, _, .unary h hop, hs, hloop, hd, ho, post, frame, st, hcode,
      hrel => by
    have ha : Expr.assigns (.unary n op e) = Expr.anyAssigns [e] := by
      simp [Expr.assigns, Expr.anyAssigns]
    have hd : Expr.allDeclareInBlocks [e] = true := by
      simpa [Expr.statementsDeclareInBlocks, Expr.declaresInBlocks, Expr.allDeclareInBlocks] using hd
    have ho : Expr.allOperandsSettled [e] = true := by
      simpa [Expr.operandsSettled, Expr.allOperandsSettled] using ho
    rw [applied, List.append_assoc] at hcode ⊢
    rw [evalExpr_unary, ha]
    exact h.simulates hR hF hs hloop hd ho rfl hcode hrel
      (fun _ _ hk => hk) fun vs st' frame' hk hxs hvs =>
        matches_builtin hR.lowers hop hvs hxs (h.wf hs) h.extends.temp_le hk
  | _, _, _, .binary n op pos lhs rhs, _, _, .binary hop h hr, hs, hloop, hd, ho, post, frame, st,
      hcode, hrel => by
    have ha : Expr.assigns (.binary n op pos lhs rhs) = Expr.anyAssigns [lhs, rhs] := by
      simp [Expr.assigns, Expr.anyAssigns]
    have hd : Expr.allDeclareInBlocks [lhs, rhs] = true := by
      simpa [Expr.statementsDeclareInBlocks, Expr.declaresInBlocks, Expr.allDeclareInBlocks] using hd
    have ho : Expr.allOperandsSettled [lhs, rhs] = true ∧ Expr.anyAssigns [rhs] = false := by
      simpa [Expr.operandsSettled, Expr.allOperandsSettled, Expr.anyAssigns, hop] using ho
    rw [applied, List.append_assoc] at hcode ⊢
    rw [evalExpr_binary hop, ha]
    exact h.simulates hR hF hs hloop hd ho.1 ho.2 hcode hrel
      (fun _ _ hk => hk) fun vs st' frame' hk hxs hvs =>
        matches_builtin hR.lowers hr hvs hxs (h.wf hs) h.extends.temp_le hk
  | _, _, _, .call n callee es, _, _, .call hx hσ h, hs, hloop, hd, ho, post, frame, st, hcode,
      hrel => by
    have hd : Expr.allDeclareInBlocks es = true := by
      simpa [Expr.statementsDeclareInBlocks, Expr.declaresInBlocks] using hd
    have ho : Expr.allOperandsSettled es = true ∧ Expr.anyAssigns es.tail = false := by
      simpa [Expr.operandsSettled] using ho
    rw [applied, List.append_assoc] at hcode ⊢
    rw [evalExpr, Expr.assigns]
    exact h.simulates hR hF hs hloop hd ho.1 ho.2 hcode hrel
      (fun _ _ hk => hk) fun vs st' frame' hk hxs hvs =>
        matches_call hR hσ hvs hxs (h.wf hs) h.extends.temp_le hk
  | _, s, _, .binary n op pos lhs rhs, _, _, .shortCircuit hop h₁ h₂, hs, hloop, hd, ho, post,
      frame, st, hcode, hrel => by
    have hd : lhs.declaresInBlocks = true ∧ rhs.declaresInBlocks = true := by
      simpa [Expr.statementsDeclareInBlocks, Expr.declaresInBlocks] using hd
    have ho : lhs.operandsSettled = true ∧ rhs.operandsSettled = true := by
      simpa [Expr.operandsSettled, hop] using ho
    have ha : Expr.assigns (.binary n op pos lhs rhs) = false →
        lhs.assigns = false ∧ rhs.assigns = false := by simp [Expr.assigns]
    have hs₁ := h₁.wf (hs.withLabels 3)
    have hle₁ : s.nextTemp ≤ _ := h₁.extends.temp_le
    have hle₂ := Nat.le_trans hle₁ h₂.extends.temp_le
    have hl₁ : _ = s.locals := h₁.locals_eq hd.1
    have hl₂ : _ = s.locals := (h₂.locals_eq hd.2).trans hl₁
    have sim₁ := (h₁.simulates hR hF (hs.withLabels 3) hloop
      (Expr.statementsDeclareInBlocks_singleton hd.1) ho.1).inScope rfl hl₁
    have sim₂ := (h₂.simulates hR hF hs₁ hloop
      (Expr.statementsDeclareInBlocks_singleton hd.2) ho.2).inScope hl₁ hl₂
    rw [show (Stage.withTemp _ .bool).locals = s.locals from hl₂]
    simp only [emit, List.map_cons, List.map_nil, List.append_assoc, List.cons_append,
      List.nil_append] at hcode ⊢
    obtain ⟨hcode₂, hright, hskip, hdone⟩ := hF.shortCircuit hcode
    rw [evalExpr]
    refine sim₁.andThen hcode (.refl hrel) (Nat.le_refl _) (fun h => (ha h).1)
      fun v st₁ frame₁ hy => ?_
    obtain ⟨b, rfl⟩ := Value.ty_eq_bool.1 hy.ty
    rw [if_pos hop]
    by_cases hb : b = (op == .logicalOr)
    · simp only [branchOn, if_pos hb]
      refine .step (step_decide hy.read (by rw [if_pos hb]; exact hskip))
        (.step step_loadBool (.step (step_jump hdone) (.value ?_)))
      rw [← hb]
      exact hy.toKeeps.fresh (h₂.wf hs₁) hl₂ hle₂ rfl
    · simp only [branchOn, if_neg hb]
      refine .step (step_decide hy.read (by rw [if_neg hb]; exact hright)) ?_
      rw [← Result.andThen_value (evalExpr ..)]
      exact sim₂.andThen hcode₂ hy.toKeeps hle₁ (fun h => (ha h).2) fun w st₂ frame₂ hy₂ =>
        .step (step_copy hy₂.read) (.step (step_jump hdone)
          (.value (hy₂.toKeeps.fresh (h₂.wf hs₁) hl₂ hle₂ hy₂.ty)))
  | _, s, _, .assign n pos (.name n' x) value, _, _, .assign hl h, hs, hloop, hd, ho, post, frame,
      st, hcode, hrel => by
    have hd : value.declaresInBlocks = true := by
      simpa [Expr.statementsDeclareInBlocks, Expr.declaresInBlocks] using hd
    rw [Expr.operandsSettled] at ho
    have hl₁ : _ = s.locals := h.locals_eq hd
    have sim := (h.simulates hR hF hs hloop (Expr.statementsDeclareInBlocks_singleton hd) ho).inScope
      rfl hl₁
    rw [List.append_assoc] at hcode ⊢
    rw [evalExpr, Expr.assigns, hl₁]
    refine sim.andThen hcode (.refl hrel) (Nat.le_refl _) (fun h => nomatch h)
      fun v st₁ frame₁ hy => .step (step_copy hy.read) (.value ?_)
    exact ⟨⟨hy.related.assign hl hs.nodup hy.ty, fun h => nomatch h⟩,
      Frame.read?_write_of_eq hy.read _, hy.ty⟩
  | _, s, _, .ifThen n c t, _, _, .ifThen h₁ h₂, hs, hloop, hd, ho, post, frame, st, hcode, hrel => by
    have hd : c.declaresInBlocks = true ∧ t.declaresInBlocks = true := by
      simpa [Expr.statementsDeclareInBlocks, Expr.declaresInBlocks] using hd
    have ho : c.operandsSettled = true ∧ t.operandsSettled = true := by
      simpa [Expr.operandsSettled] using ho
    have ha : Expr.assigns (.ifThen n c t) = false → c.assigns = false ∧ t.assigns = false := by
      simp [Expr.assigns]
    have hl₁ : _ = s.locals := h₁.locals_eq hd.1
    have hl₂ : _ = s.locals := (h₂.locals_eq hd.2).trans hl₁
    have sim₁ := (h₁.simulates hR hF (hs.withLabels 2) hloop
      (Expr.statementsDeclareInBlocks_singleton hd.1) ho.1).inScope rfl hl₁
    have sim₂ := (h₂.simulates hR hF (h₁.wf (hs.withLabels 2)) hloop
      (Expr.statementsDeclareInBlocks_singleton hd.2) ho.2).inScope hl₁ hl₂
    rw [hl₂]
    simp only [emit, List.map_cons, List.map_nil, List.append_assoc, List.cons_append,
      List.nil_append] at hcode ⊢
    obtain ⟨hcode₂, hyes, hdone⟩ := hF.ifThen hcode
    rw [evalExpr]
    refine sim₁.andThen hcode (.refl hrel) (Nat.le_refl _) (fun h => (ha h).1)
      fun v st₁ frame₁ hy => ?_
    obtain ⟨b, rfl⟩ := Value.ty_eq_bool.1 hy.ty
    cases b with
    | true =>
      refine .step (step_branch hy.read hyes) ?_
      exact sim₂.andThen hcode₂ hy.toKeeps h₁.extends.temp_le (fun h => (ha h).2)
        fun w st₂ frame₂ hy₂ => .step step_label (.value ⟨hy₂.toKeeps, rfl, rfl⟩)
    | false => exact .step (step_branch hy.read hdone) (.value ⟨hy.toKeeps, rfl, rfl⟩)
  | _, s, _, .ifElse n c t e, _, _, .ifElseUnit _ h₁ h₂ h₃, hs, hloop, hd, ho, post, frame, st,
      hcode, hrel => by
    have hd : (c.declaresInBlocks = true ∧ t.declaresInBlocks = true) ∧ e.declaresInBlocks = true := by
      simpa [Expr.statementsDeclareInBlocks, Expr.declaresInBlocks] using hd
    have ho : (c.operandsSettled = true ∧ t.operandsSettled = true) ∧ e.operandsSettled = true := by
      simpa [Expr.operandsSettled] using ho
    have ha : Expr.assigns (.ifElse n c t e) = false →
        (c.assigns = false ∧ t.assigns = false) ∧ e.assigns = false := by simp [Expr.assigns]
    have hs₁ := h₁.wf (hs.withLabels 3)
    have hle₁ : s.nextTemp ≤ _ := h₁.extends.temp_le
    have hl₁ : _ = s.locals := h₁.locals_eq hd.1.1
    have hl₂ : _ = s.locals := (h₂.locals_eq hd.1.2).trans hl₁
    have hl₃ : _ = s.locals := (h₃.locals_eq hd.2).trans hl₂
    have sim₁ := (h₁.simulates hR hF (hs.withLabels 3) hloop
      (Expr.statementsDeclareInBlocks_singleton hd.1.1) ho.1.1).inScope rfl hl₁
    have sim₂ := (h₂.simulates hR hF hs₁ hloop
      (Expr.statementsDeclareInBlocks_singleton hd.1.2) ho.1.2).inScope hl₁ hl₂
    have sim₃ := (h₃.simulates hR hF (h₂.wf hs₁) hloop
      (Expr.statementsDeclareInBlocks_singleton hd.2) ho.2).inScope hl₂ hl₃
    rw [hl₃]
    simp only [emit, List.map_cons, List.map_nil, List.append_assoc, List.cons_append,
      List.nil_append] at hcode ⊢
    obtain ⟨hcode₂, hcode₃, hyes, hno, hdone⟩ := hF.ifElse (m := []) (c := []) hcode
    rw [evalExpr]
    refine sim₁.andThen hcode (.refl hrel) (Nat.le_refl _) (fun h => (ha h).1.1)
      fun v st₁ frame₁ hy => ?_
    obtain ⟨b, rfl⟩ := Value.ty_eq_bool.1 hy.ty
    cases b with
    | true =>
      refine .step (step_branch hy.read hyes) ?_
      change Matches _ _ _ _ _ _ _ _ _ _ (evalExpr ..)
      rw [← Result.andThen_value (evalExpr ..)]
      exact sim₂.andThen hcode₂ hy.toKeeps hle₁ (fun h => (ha h).1.2)
        fun w st₂ frame₂ hy₂ => .step (step_jump hdone)
          (.value ⟨hy₂.toKeeps, Value.ty_eq_unit.1 hy₂.ty ▸ rfl, hy₂.ty⟩)
    | false =>
      refine .step (step_branch hy.read hno) ?_
      change Matches _ _ _ _ _ _ _ _ _ _ (evalExpr ..)
      rw [← Result.andThen_value (evalExpr ..)]
      exact sim₃.andThen hcode₃ hy.toKeeps (Nat.le_trans hle₁ h₂.extends.temp_le)
        (fun h => (ha h).2) fun w st₂ frame₂ hy₂ => .step step_label
          (.value ⟨hy₂.toKeeps, Value.ty_eq_unit.1 hy₂.ty ▸ rfl, hy₂.ty⟩)
  | _, s, _, .ifElse n c t e, _, _, .ifElse _ _ h₁ h₂ hm h₃, hs, hloop, hd, ho, post, frame, st,
      hcode, hrel => by
    have hd : (c.declaresInBlocks = true ∧ t.declaresInBlocks = true) ∧ e.declaresInBlocks = true := by
      simpa [Expr.statementsDeclareInBlocks, Expr.declaresInBlocks] using hd
    have ho : (c.operandsSettled = true ∧ t.operandsSettled = true) ∧ e.operandsSettled = true := by
      simpa [Expr.operandsSettled] using ho
    have ha : Expr.assigns (.ifElse n c t e) = false →
        (c.assigns = false ∧ t.assigns = false) ∧ e.assigns = false := by simp [Expr.assigns]
    have hs₁ := h₁.wf (hs.withLabels 3)
    have hs₂ := h₂.wf hs₁
    have hle₁ : s.nextTemp ≤ _ := h₁.extends.temp_le
    have hle₂ := Nat.le_trans hle₁ h₂.extends.temp_le
    have hl₁ : _ = s.locals := h₁.locals_eq hd.1.1
    have hl₂ : _ = s.locals := (h₂.locals_eq hd.1.2).trans hl₁
    have hl₃ : _ = s.locals := hm.locals_eq.trans hl₂
    have hl₄ : _ = s.locals := (h₃.locals_eq hd.2).trans hl₃
    have sim₁ := (h₁.simulates hR hF (hs.withLabels 3) hloop
      (Expr.statementsDeclareInBlocks_singleton hd.1.1) ho.1.1).inScope rfl hl₁
    have sim₂ := (h₂.simulates hR hF hs₁ hloop
      (Expr.statementsDeclareInBlocks_singleton hd.1.2) ho.1.2).inScope hl₁ hl₂
    have sim₃ := (h₃.simulates hR hF (hm.wf hs₂) hloop
      (Expr.statementsDeclareInBlocks_singleton hd.2) ho.2).inScope hl₃ hl₄
    obtain ⟨k, hk, -, hmk, hko⟩ := hm.target hs₂ (h₂.locates hs₁) h₂.extends.temp_le
    have hfree : ∀ ls ∈ s.locals, ∀ l ∈ ls, l.temp ≠ k := fun ls hls l hl he =>
      hko (he ▸ hs₂.locals_owned ls (hl₂ ▸ hls) l hl)
    rw [hl₄]
    simp only [emit, List.map_cons, List.map_nil, List.append_assoc, List.cons_append,
      List.nil_append] at hcode ⊢
    obtain ⟨hcode₂, hcode₃, hyes, hno, hdone⟩ := hF.ifElse (c := [_]) hcode
    rw [evalExpr]
    refine sim₁.andThen hcode (.refl hrel) (Nat.le_refl _) (fun h => (ha h).1.1)
      fun v st₁ frame₁ hy => ?_
    obtain ⟨b, rfl⟩ := Value.ty_eq_bool.1 hy.ty
    cases b with
    | true =>
      refine .step (step_branch hy.read hyes) ?_
      change Matches _ _ _ _ _ _ _ _ _ _ (evalExpr ..)
      rw [← Result.andThen_value (evalExpr ..)]
      exact sim₂.andThen hcode₂ hy.toKeeps hle₁ (fun h => (ha h).1.2) fun w st₂ frame₂ hy₂ =>
        matches_merge hm hs₂ hl₂ hle₂ hy₂ fun frame' hy' => .step (step_jump hdone) (.value hy')
    | false =>
      refine .step (step_branch hy.read hno) ?_
      change Matches _ _ _ _ _ _ _ _ _ _ (evalExpr ..)
      rw [← Result.andThen_value (evalExpr ..)]
      refine sim₃.andThen hcode₃ hy.toKeeps (Nat.le_trans hle₂ hm.extends.temp_le)
        (fun h => (ha h).2) fun w st₂ frame₂ hy₂ => .step (step_copy hy₂.read)
          (.step step_label (.value ?_))
      rw [hmk]
      exact ⟨hy₂.toKeeps.write hfree (Nat.le_trans hle₁ hk) w, Frame.read?_write_temp .., hy₂.ty⟩
  | _, s, _, .loop n c e, _, _, .loop h₁ h₂, hs, hloop, hd, ho, post, frame, st, hcode, hrel => by
    have hdl : Expr.declaresInBlocks (.loop n c e) = true := by
      simpa [Expr.statementsDeclareInBlocks] using hd
    have hd : c.declaresInBlocks = true ∧ e.declaresInBlocks = true := by
      simpa [Expr.declaresInBlocks] using hdl
    have hol := ho
    have ho : c.operandsSettled = true ∧ e.operandsSettled = true := by
      simpa [Expr.operandsSettled] using ho
    have ha : Expr.assigns (.loop n c e) = false → c.assigns = false ∧ e.assigns = false := by
      simp [Expr.assigns]
    have hle₁ : s.nextTemp ≤ _ := h₁.extends.temp_le
    have hl₁ : _ = s.locals := h₁.locals_eq hd.1
    have hl₂ : _ = s.locals := (h₂.locals_eq hd.2).trans hl₁
    have simAgain := (hR.simulated (.loop h₁ h₂) hs hF hloop hdl hol).inScope rfl hl₂
    replace simAgain := fun frame₂ st₂ => simAgain post frame₂ st₂ hcode
    rw [hl₂]
    simp only [emit, List.map_cons, List.map_nil, List.append_assoc, List.cons_append,
      List.nil_append] at hcode simAgain ⊢
    obtain ⟨hcode₂, hstart, hbody, hexit⟩ := hF.loop hcode
    have sim₁ := (h₁.simulates hR hF (hs.withLabels 3) hloop
      (Expr.statementsDeclareInBlocks_singleton hd.1) ho.1).inScope rfl hl₁
    have sim₂ := (h₂.simulates hR hF (h₁.wf (hs.withLabels 3))
      (by rintro _ ⟨⟩ (_ | _); exacts [⟨_, hexit⟩, ⟨_, hstart⟩])
      (Expr.statementsDeclareInBlocks_singleton hd.2) ho.2).inScope hl₁ hl₂
    rw [evalExpr]
    refine .step step_label ?_
    refine sim₁.andThen (suffix_drop 1 hcode) (.refl hrel) (Nat.le_refl _) (fun h => (ha h).1)
      fun v st₁ frame₁ hy => ?_
    obtain ⟨b, rfl⟩ := Value.ty_eq_bool.1 hy.ty
    cases b with
    | false => exact .step (step_branch hy.read hexit) (.value ⟨hy.toKeeps, rfl, rfl⟩)
    | true =>
      -- the step into the body pays for the fuel that another round takes
      refine .steps (.single (step_branch hy.read hbody)) (Nat.le_of_eq (Nat.add_comm fuel 1)) ?_
      have hround := (sim₂ _ frame₁ st₁ hcode₂ hy.related).imp
        (fun _ _ _ hy₂ => hy.toKeeps.trans hy₂.toKeeps hle₁ fun h => (ha h).2)
        fun _ _ hk => hy.toKeeps.trans hk hle₁ fun h => (ha h).2
      refine (hround.steps (.refl _) (by omega)).endRound hstart hexit
        (fun {k st₂ frame₂} hk hsteps hpos => ?_) fun _ _ hk => ⟨hk, rfl, rfl⟩
      refine ((simAgain frame₂ st₂ hk.related).imp
        (fun _ _ _ hy₂ => ⟨hk.trans hy₂.toKeeps (Nat.le_refl _) id, hy₂.read, hy₂.ty⟩)
        fun _ _ hk₂ => hk.trans hk₂ (Nat.le_refl _) id).steps_behind hsteps hpos fun he => ?_
      have := congrArg List.length he
      simp at this
      omega
  | _, s, _, .block n es, _, _, .block h, hs, hloop, hd, ho, post, frame, st, hcode, hrel => by
    have hd : Expr.statementsDeclareInBlocks es = true := by
      simpa [Expr.statementsDeclareInBlocks, Expr.declaresInBlocks] using hd
    rw [Expr.operandsSettled] at ho
    rw [evalExpr, Expr.assigns, h.extends.leave.1]
    exact (h.simulates hR hF hs.enter hloop hd ho post frame { st with env := [] :: st.env } .unit
      hcode (.cons .nil hrel) rfl rfl).leaveBlock
  | _, s, _, .declare n x _ e, _, _, .declare h, hs, hloop, hd, ho, post, frame, st, hcode, hrel => by
    have hd : e.declaresInBlocks = true := by
      simpa [Expr.statementsDeclareInBlocks] using hd
    rw [Expr.operandsSettled] at ho
    have sim := h.simulates hR hF hs hloop (Expr.statementsDeclareInBlocks_singleton hd) ho
    rw [List.append_assoc] at hcode ⊢
    rw [evalExpr, Expr.assigns]
    refine sim.andThen hcode (.refl hrel) (Nat.le_refl _) (fun h => h)
      fun v st₁ frame₁ hy => .step (step_copy hy.read) (.value ⟨⟨?_, ?_⟩, rfl, rfl⟩)
    · exact hy.related.declare (h.wf hs) x.text hy.ty
    · exact (hy.toKeeps.fresh (h.wf hs) rfl h.extends.temp_le hy.ty).kept
  | _, _, _, _, _, _, .control, _, hloop, _, _, post, frame, st, _, hrel => by
    obtain ⟨code, hc⟩ := hloop _ rfl _
    exact ⟨_, code, 1, frame, rfl, hc, Nat.one_pos, .single (step_jump hc), .refl hrel⟩
  | _, _, _, _, _, _, .leave hr, _, _, _, _, post, frame, st, _, hrel =>
    ⟨0, _, .refl _, rfl, rfl, rfl, .atLeave rfl rfl rfl, hr⟩
  | _, s, _, .leaveWith n e, _, _, .leaveWith hr h, hs, hloop, hd, ho, post, frame, st, hcode,
      hrel => by
    have hd : e.declaresInBlocks = true := by
      simpa [Expr.statementsDeclareInBlocks, Expr.declaresInBlocks] using hd
    rw [Expr.operandsSettled] at ho
    have sim := h.simulates hR hF hs hloop (Expr.statementsDeclareInBlocks_singleton hd) ho
    rw [List.append_assoc] at hcode ⊢
    rw [evalExpr, Expr.assigns]
    exact sim.andThen hcode (.refl hrel) (Nat.le_refl _) (fun h => h) fun v st₁ frame₁ hy =>
      ⟨0, _, .refl _, rfl, rfl, rfl, .atLeave rfl rfl hy.read, by rw [hr, hy.ty]⟩

/-- The fragment of statements does what the evaluator says. Only what was in scope before is in scope
where control goes on. -/
theorem LowersStatements.simulates (hR : Ready M sink fuel m T)
    (hF : Unambiguous p.function.code) :
    ∀ {loop? : Option LoopLabels} {s s' : Stage} {es : List Expr} {τ₀ : Ty} {x : Var} {τ : Ty}
      {f : Fragment}, LowersStatements (signatureOf? m.functions) ρ? loop? s es τ₀ x τ f s' →
      s.WF → Resolves p loop? → Expr.statementsDeclareInBlocks es = true →
      Expr.allOperandsSettled es = true →
      ∀ (post : List Instruction) (frame : Frame) (st : Store) (v : Value),
        f.code ++ post <:+ p.function.code → Related s.locals st.env frame →
        frame.read? x = some v → v.ty = τ₀ →
        Matches M sink p ρ? loop?
          (fun env => Keeps s.locals.tail s.nextTemp (Expr.anyAssigns es) frame env.tail) (fuel + 1)
          (p.at (f.code ++ post) frame st.world) post
          (fun v env => Yields s.locals.tail s.nextTemp (Expr.anyAssigns es) frame f.value τ v env.tail)
          (evalStatements m sink (eval m sink fuel) p.waiting.length es v st)
  | _, _, _, _, _, _, _, _, .nil, _, _, _, _, post, frame, st, v, _, hrel, hx, hv =>
    .value ⟨.refl hrel.tail, hx, hv⟩
  | _, s, _, e :: es, _, _, _, _, .cons h hs', hs, hloop, hd, ho, post, frame, st, v, hcode, hrel,
      hx, hv => by
    rw [Expr.statementsDeclareInBlocks_cons] at hd
    rw [Expr.allOperandsSettled, Bool.and_eq_true] at ho
    rw [List.append_assoc] at hcode ⊢
    rw [evalStatements]
    have hle := h.extends.temp_le
    have htail : _ = s.locals.tail := h.extends.tail hs.isOpen
    have ha : Expr.anyAssigns (e :: es) = false → e.assigns = false ∧ Expr.anyAssigns es = false := by
      simp [Expr.anyAssigns]
    refine Matches.andThen ((h.simulates hR hF hs hloop hd.1 ho.1 _ frame st hcode
      hrel).imp (fun _ _ _ hy => hy) fun env frame' hk => hk.tail.mono fun h => (ha h).1)
      fun v st₁ frame₁ hy => ?_
    have hfirst := hy.toKeeps.tail.mono fun h => (ha h).1
    rw [← htail]
    exact (hs'.simulates hR hF (h.wf hs) hloop hd.2 ho.2 post frame₁ st₁ v
      (suffix_of_append hcode) hy.related hy.read hy.ty).imp
      (fun _ _ _ hy' => ⟨hfirst.trans hy'.toKeeps hle fun h => (ha h).2, hy'.read, hy'.ty⟩)
      fun _ _ hk => hfirst.trans hk hle fun h => (ha h).2

/-- The fragments of arguments do what the evaluator says. An argument behind the first assigns
nothing, so those before it keep their values. -/
theorem LowersArguments.simulates (hR : Ready M sink fuel m T)
    (hF : Unambiguous p.function.code) :
    ∀ {loop? : Option LoopLabels} {s s' : Stage} {es : List Expr} {τs : List Ty}
      {fs : List Fragment}, LowersArguments (signatureOf? m.functions) ρ? loop? s es τs fs s' →
      s.WF → Resolves p loop? → Expr.allDeclareInBlocks es = true →
      Expr.allOperandsSettled es = true → Expr.anyAssigns es.tail = false →
      ∀ {post post' : List Instruction} {frame : Frame} {st : Store} {kept : Env → Frame → Prop}
        {good : Value → Env → Frame → Prop} {next : List Value → Store → Result},
        fs.flatMap (·.code) ++ post <:+ p.function.code → Related s.locals st.env frame →
        (∀ env frame', Keeps s.locals s.nextTemp (Expr.anyAssigns es) frame env frame' →
          kept env frame') →
        (∀ vs st' frame', Keeps s'.locals s.nextTemp (Expr.anyAssigns es) frame st'.env frame' →
          List.Forall₂ (fun x v => frame'.read? x = some v) (fs.map (·.value)) vs →
          vs.map Value.ty = τs →
          Matches M sink p ρ? loop? kept (fuel + 1) (p.at post frame' st'.world) post' good
            (next vs st')) →
        Matches M sink p ρ? loop? kept (fuel + 1)
          (p.at (fs.flatMap (·.code) ++ post) frame st.world) post' good
          (evalArguments m sink (eval m sink fuel) p.waiting.length es st next)
  | _, _, _, _, _, _, .nil, _, _, _, _, _, _, _, frame, st, _, _, _, _, hrel, _, hnext =>
    hnext [] st frame (.refl hrel) .nil rfl
  | _, _, _, e :: es, _, _, .cons h hs', hs, hloop, hd, ho, ha, post, _, frame, st, _, _, _, hcode,
      hrel, hkept, hnext => by
    rw [Expr.allDeclareInBlocks, Bool.and_eq_true] at hd
    rw [Expr.allOperandsSettled, Bool.and_eq_true] at ho
    rw [List.tail_cons] at ha
    rw [List.flatMap_cons, List.append_assoc] at hcode ⊢
    rw [evalArguments]
    have hl := h.locals_eq hd.1
    have hfirst : Expr.anyAssigns (e :: es) = false → e.assigns = false := by
      simp [Expr.anyAssigns, ha]
    refine Matches.andThen ((h.simulates hR hF hs hloop
      (Expr.statementsDeclareInBlocks_singleton hd.1) ho.1 _ frame st hcode hrel).imp
      (fun _ _ _ hy => hy) fun env frame' hk => hkept env frame' (hk.mono hfirst))
      fun v st₁ frame₁ hy => ?_
    have hle := h.extends.temp_le
    refine hs'.simulates hR hF (h.wf hs) hloop hd.2 ho.2 ?_ (suffix_of_append hcode)
      hy.related (fun env frame' hk => hkept env frame' ?_) fun vs st' frame' hk hxs hvs => ?_
    · cases es <;> simp_all [Expr.anyAssigns]
    · rw [← hl]
      exact (hy.toKeeps.mono hfirst).trans hk hle fun _ => ha
    · have hx := (hk.read ha (h.wf hs) (h.locates hs)).trans hy.read
      exact hnext (v :: vs) st' frame' ((hy.toKeeps.mono hfirst).trans hk hle fun _ => ha)
        (.cons hx hxs) (by rw [List.map_cons, hy.ty, hvs])

end

end

end Exprc.Lowering

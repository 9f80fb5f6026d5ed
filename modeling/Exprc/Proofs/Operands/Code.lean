/-
The code of operands. The code of the parts of an expression stands one after the other, and around it only instructions
that join the parts. So in front of the call of an operator or a function stands the code of its operands; what stands
elsewhere in the function jumps to no label in it (`Lowers.callFound`); and of what was there before, it writes only
variables, and these only in the copies of assignments (`Lowers.confined`).
-/
import Exprc.Proofs.Assignment.Code
import Exprc.Proofs.Lowering.Parts

namespace Exprc.Syntax.Expr

mutual

/-- The name of the variable that is where the value of an expression is, if it is not in a temporary of its own: an
assignment has its value where the assigned expression does, and a block where its last statement does. -/
def standsFor? : Expr → Option String
  | name _ x => some x
  | assign _ _ _ value => standsFor? value
  | block _ es => lastStandsFor? es
  | int .. | bool .. | unit .. | unary .. | binary .. | ifThen .. | ifElse .. | loop .. | declare .. | call ..
  | control .. | leave .. | leaveWith .. => none

/-- That name for the last of some expressions. -/
def lastStandsFor? : List Expr → Option String
  | [] => none
  | [e] => standsFor? e
  | _ :: e :: es => lastStandsFor? (e :: es)

end

end Exprc.Syntax.Expr

namespace Exprc.Lowering

open Syntax IR Typing

/-! ## Stages -/

namespace Stage

/-- A later stage: numbers only grow, and a variable in scope was in scope before or has been declared since. -/
structure Later (s s' : Stage) : Prop where
  temp_le : s.nextTemp ≤ s'.nextTemp
  label_le : s.nextLabel ≤ s'.nextLabel
  locals : ∀ l ∈ s'.locals.flatten, l ∈ s.locals.flatten ∨ s.nextTemp ≤ l.temp

variable {s s' s'' : Stage}

namespace Later

theorem refl (s : Stage) : s.Later s := ⟨Nat.le_refl _, Nat.le_refl _, fun _ => .inl⟩

theorem trans (h : s.Later s') (h' : s'.Later s'') : s.Later s'' := by
  refine ⟨Nat.le_trans h.temp_le h'.temp_le, Nat.le_trans h.label_le h'.label_le, fun l hl => ?_⟩
  rcases h'.locals l hl with hl | hl
  · exact h.locals l hl
  · exact .inr (Nat.le_trans h.temp_le hl)

theorem opened (e : Expr) (s : Stage) : s.Later (s.opened e) := by
  unfold Stage.opened
  split
  · exact ⟨Nat.le_refl _, Nat.le_refl _, fun _ hl => .inl hl⟩
  · exact .refl s

end Later

theorem Idle.isLater (h : s.Idle s') : s.Later s' :=
  ⟨h.later.temp_le, h.later.label_le, fun _ hl => .inl (h.locals ▸ hl)⟩

end Stage

theorem Concludes.isLater {code : List Instruction} {e : Expr} {s s' : Stage} (h : Concludes code e s s') :
    s.Later s' := by
  cases h with
  | block =>
    refine ⟨Nat.le_refl _, Nat.le_refl _, fun l hl => .inl ?_⟩
    exact (List.tail_suffix s.locals).flatten.subset hl
  | @declare s n x written? e τ v _ =>
    refine ⟨Nat.le_succ _, Nat.le_refl _, fun l hl => ?_⟩
    rw [show (s.declare x.text τ).locals = s.locals.bind ⟨x.text, s.nextTemp, τ⟩ from rfl, Locals.flatten_bind] at hl
    rcases List.mem_cons.1 hl with rfl | hl
    · exact .inr (Nat.le_refl _)
    · exact .inl hl
  | plain _ _ hidle => exact hidle.isLater

/-! ## What code does to the code around it -/

/-- The labels of the loop around were given out before. -/
def Inside (loop? : Option LoopLabels) (s : Stage) : Prop :=
  ∀ labels ∈ loop?, ∀ c, (labels.target c).number < s.nextLabel

theorem Inside.none (s : Stage) : Inside none s := fun labels h => absurd h (Option.not_mem_none labels)

/-- Lowering goes on from one stage to another, with code that jumps to labels of its own and of the loop around only,
and that changes of what was there before only variables, in the assignments in some expressions. -/
structure Confined (loop? : Option LoopLabels) (s : Stage) (es : List Expr) (code : List Instruction) (s' : Stage) :
    Prop where
  later : s.Later s'
  targets : ∀ i ∈ code, ∀ l ∈ i.op.targets, Targets loop? s s' l
  changes : ∀ i ∈ code, ∀ v ∈ i.op.writes, Changes s es v i

section

variable {loop? : Option LoopLabels} {s s' t t' : Stage} {es es' : List Expr} {v : Var} {i : Instruction} {l : Label}

theorem Targets.mono (h : Targets loop? s s' l) (hs : t.nextLabel ≤ s.nextLabel) (hs' : s'.nextLabel ≤ t'.nextLabel) :
    Targets loop? t t' l :=
  h.imp_right fun hl => ⟨Nat.le_trans hs hl.1, Nat.lt_of_lt_of_le hl.2 hs'⟩

theorem Targets.lt (h : Targets loop? s s' l) (hloop : Inside loop? s) (hs : s.nextLabel ≤ s'.nextLabel) :
    l.number < s'.nextLabel := by
  rcases h with ⟨labels, hl, c, rfl⟩ | h
  · exact Nat.lt_of_lt_of_le (hloop labels hl c) hs
  · exact h.2

theorem Changes.mono (h : Changes s es v i) (ht : t.Later s) (hes : es ⊆ es') : Changes t es' v i := by
  cases h with
  | fresh hk hv => exact .fresh (Nat.le_trans ht.temp_le hk) hv
  | assignment hl he hi hv =>
    rcases ht.locals _ hl with hl | hl
    · exact .assignment hl (hes he) hi hv
    · exact .fresh hl hv

end

/-! ## What an expression changes and where it jumps -/

section

variable {own : Instruction → Prop} {allowed : Label → Prop} {loop? : Option LoopLabels} {s s' : Stage}
  {es : List Expr} {code : List Instruction}

/-- What holds of the code of expressions, if the code of each is confined. -/
structure WeavesConfined (own : Instruction → Prop) (allowed : Label → Prop) (s : Stage) (es : List Expr)
    (code : List Instruction) (s' : Stage) : Prop where
  wf : s'.WF
  later : s.Later s'
  inner : ∀ i ∈ code, own i ∨
    (∀ l ∈ i.op.targets, allowed l ∨ s.nextLabel ≤ l.number ∧ l.number < s'.nextLabel) ∧
      ∀ v ∈ i.op.writes, Changes s (Expr.allSubexpressions es) v i

theorem Weaves.confined (h : Weaves sig ρ? own allowed s es code s') (hs : s.WF)
    (ih : ∀ e ∈ es, ∀ {loop? : Option LoopLabels} {s s' : Stage} {τ : Ty} {f : Fragment},
      Lowers sig ρ? loop? s e τ f s' → s.WF → Confined loop? s e.subexpressions f.code s') :
    WeavesConfined own allowed s es code s' := by
  induction h with
  | nil => exact ⟨hs, .refl _, List.forall_mem_nil _⟩
  | own hi _ ihes =>
    obtain ⟨hwf, hlater, hinner⟩ := ihes hs ih
    exact ⟨hwf, hlater, List.forall_mem_cons.2 ⟨.inl hi, hinner⟩⟩
  | part hidle hloop he _ ihes =>
    obtain ⟨hcons, ih⟩ := List.forall_mem_cons.1 ih
    have hs₀ := hidle.wf hs
    have hfirst := hidle.isLater
    obtain ⟨hlater, htargets, hchanges⟩ := hcons he hs₀
    obtain ⟨hwf, hlater', hinner⟩ := ihes (he.wf hs₀) ih
    have hbefore := hfirst.trans hlater
    refine ⟨hwf, hbefore.trans hlater', List.forall_mem_append.2 ⟨fun i hi => .inr ⟨fun l hl => ?_, fun v hv => ?_⟩,
      fun i hi => (hinner i hi).imp_right ?_⟩⟩
    · rcases htargets i hi l hl with ⟨labels, hlabels, c, rfl⟩ | hl
      · exact .inl (hloop labels hlabels c)
      · exact .inr ⟨Nat.le_trans hfirst.label_le hl.1, Nat.lt_of_lt_of_le hl.2 hlater'.label_le⟩
    · exact (hchanges i hi v hv).mono hfirst (List.subset_append_left _ _)
    · rintro ⟨htargets, hchanges⟩
      refine ⟨fun l hl => (htargets l hl).imp_right fun hl => ?_, fun v hv => ?_⟩
      · exact ⟨Nat.le_trans hbefore.label_le hl.1, hl.2⟩
      · exact (hchanges v hv).mono hbefore (List.subset_append_right _ _)

theorem Stage.WF.opened (hs : s.WF) (e : Expr) : (s.opened e).WF := by
  unfold Stage.opened
  split
  · exact hs.enter
  · exact hs

/-- The code of an expression jumps to labels of its own and of the loop around, and of what was there before it writes
only variables, in the assignments in the expression. -/
theorem Lowers.confined {τ : Ty} {f : Fragment} {e : Expr} (h : Lowers sig ρ? loop? s e τ f s') (hs : s.WF) :
    Confined loop? s e.subexpressions f.code s' := by
  induction e using Expr.parts_induction generalizing loop? s s' τ f with
  | h e ih =>
    obtain ⟨s₀, s₁, hidle, -, hweaves, hconcludes⟩ := h.weaves hs
    obtain ⟨-, hlater, hinner⟩ :=
      hweaves.confined (hidle.wf (hs.opened e)) fun part hpart _ _ _ _ _ h => ih part hpart h
    have hfirst := (Stage.Later.opened e s).trans hidle.isLater
    have hlast := hlater.trans hconcludes.isLater
    rw [Expr.subexpressions_eq]
    refine ⟨hfirst.trans hlast, fun i hi l hl => ?_, fun i hi v hv => ?_⟩
    · rcases hinner i hi with hown | ⟨htargets, -⟩
      · exact (hown.targets l hl).mono (Nat.le_refl _) hlast.label_le
      · rcases htargets l hl with hl | hl
        · exact hl.mono (Nat.le_refl _) hlast.label_le
        · exact .inr ⟨Nat.le_trans hfirst.label_le hl.1, Nat.lt_of_lt_of_le hl.2 hconcludes.isLater.label_le⟩
    · rcases hinner i hi with hown | ⟨-, hchanges⟩
      · exact (hown.changes v hv).mono (.refl s) (List.cons_subset_cons _ (List.nil_subset _))
      · exact (hchanges v hv).mono hfirst (List.subset_cons_self _ _)

theorem LowersArguments.confined {τs : List Ty} {fs : List Fragment}
    (h : LowersArguments sig ρ? loop? s es τs fs s') (hs : s.WF) :
    Confined loop? s (Expr.allSubexpressions es) (fs.flatMap (·.code)) s' := by
  have hweaves : Weaves sig ρ? (fun _ => False) (fun l => ∃ labels ∈ loop?, ∃ c, l = labels.target c) s es
      (fs.flatMap (·.code)) s' := h.weaves fun labels hl c => ⟨labels, hl, c, rfl⟩
  obtain ⟨-, hlater, hinner⟩ := hweaves.confined hs fun _ _ _ _ _ _ _ h hs => h.confined hs
  exact ⟨hlater, fun i hi => ((hinner i hi).resolve_left id).1, fun i hi => ((hinner i hi).resolve_left id).2⟩

end

/-! ## Calls -/

/-- What stands in a list that is put together stands in its first part or in its second one. -/
theorem append_eq_append_cons {α : Type} {as bs front behind : List α} {a : α} (h : as ++ bs = front ++ a :: behind) :
    (∃ cs, front = as ++ cs ∧ bs = cs ++ a :: behind) ∨ ∃ cs, as = front ++ a :: cs ∧ behind = cs ++ bs := by
  rcases List.append_eq_append_iff.1 h with h | ⟨_ | ⟨b, cs⟩, has, hbs⟩
  · exact .inl h
  · exact .inl ⟨[], by simp [has], hbs.symm⟩
  · obtain ⟨rfl, rfl⟩ := List.cons.inj hbs
    exact .inr ⟨cs, has, rfl⟩

/-- Between `front` and `rest` stands the code of operands, and no instruction there jumps to a label of it. -/
structure OperandsAt (sig : String → Option Signature) (ρ? : Option Ty) (loop? : Option LoopLabels) (s : Stage)
    (es : List Expr) (fs : List Fragment) (s' : Stage) (front rest : List Instruction) : Prop where
  lowers : ∃ τs, LowersArguments sig ρ? loop? s es τs fs s'
  wf : s.WF
  loop : Inside loop? s
  outside : ∀ i ∈ front ++ rest, ∀ l ∈ i.op.targets, l.number < s.nextLabel ∨ s'.nextLabel ≤ l.number

/-- An instruction is the call by which one of some expressions is evaluated: in front of it is the code of the parts,
and it takes their values. -/
inductive CallFound (sig : String → Option Signature) (ρ? : Option Ty) (s s' : Stage) (es : List Expr) :
    List Instruction → Instruction → List Instruction → Prop
  | intro {e : Expr} {location : Location} {name : String} {loop? : Option LoopLabels} {s₀ s₁ : Stage}
      {fs : List Fragment} {front rest : List Instruction} : e ∈ es → e.Applies location name →
      OperandsAt sig ρ? loop? s₀ e.parts fs s₁ front rest → s.nextLabel ≤ s₀.nextLabel →
      s₁.nextLabel ≤ s'.nextLabel →
      CallFound sig ρ? s s' es (front ++ fs.flatMap (·.code))
        ⟨location, .call (.named name) (fs.map (·.value)) (.temp s₁.nextTemp)⟩ rest

section

variable {own : Instruction → Prop} {allowed : Label → Prop} {loop? : Option LoopLabels} {s s' t t' : Stage}
  {es es' : List Expr} {before rest more : List Instruction} {i : Instruction}

namespace CallFound

theorem mono (h : CallFound sig ρ? s s' es before i rest) (hs : t.nextLabel ≤ s.nextLabel)
    (hs' : s'.nextLabel ≤ t'.nextLabel) (hes : es ⊆ es') : CallFound sig ρ? t t' es' before i rest := by
  cases h with
  | intro he ha hoperands hlow hhigh =>
    exact .intro (hes he) ha hoperands (Nat.le_trans hs hlow) (Nat.le_trans hhigh hs')

/-- A call is found behind more code, if that jumps to no label that was given out meanwhile. -/
theorem behind (h : CallFound sig ρ? s s' es before i rest)
    (hmore : ∀ j ∈ more, ∀ l ∈ j.op.targets, l.number < s.nextLabel ∨ s'.nextLabel ≤ l.number) :
    CallFound sig ρ? s s' es (more ++ before) i rest := by
  cases h with
  | intro he ha hoperands hlow hhigh =>
    rw [← List.append_assoc]
    refine .intro he ha ⟨hoperands.lowers, hoperands.wf, hoperands.loop, fun j hj l hl => ?_⟩ hlow hhigh
    rw [List.append_assoc] at hj
    rcases List.mem_append.1 hj with hj | hj
    · exact (hmore j hj l hl).imp (Nat.lt_of_lt_of_le · hlow) (Nat.le_trans hhigh)
    · exact hoperands.outside j hj l hl

/-- A call is found in front of more code, if that jumps to no label that was given out meanwhile. -/
theorem inFront (h : CallFound sig ρ? s s' es before i rest)
    (hmore : ∀ j ∈ more, ∀ l ∈ j.op.targets, l.number < s.nextLabel ∨ s'.nextLabel ≤ l.number) :
    CallFound sig ρ? s s' es before i (rest ++ more) := by
  cases h with
  | intro he ha hoperands hlow hhigh =>
    refine .intro he ha ⟨hoperands.lowers, hoperands.wf, hoperands.loop, fun j hj l hl => ?_⟩ hlow hhigh
    rw [← List.append_assoc] at hj
    rcases List.mem_append.1 hj with hj | hj
    · exact hoperands.outside j hj l hl
    · exact (hmore j hj l hl).imp (Nat.lt_of_lt_of_le · hlow) (Nat.le_trans hhigh)

end CallFound

/-- The calls in the code of expressions are found, if those in the code of each are. -/
theorem Weaves.callFound {low : Nat} {code : List Instruction} (h : Weaves sig ρ? own allowed s es code s')
    (hs : s.WF) (hlow : low ≤ s.nextLabel) (hallowed : ∀ l, allowed l → l.number < low)
    (hown : ∀ i, own i → (∀ callee arguments target, i.op ≠ .call callee arguments target) ∧
      ∀ l ∈ i.op.targets, allowed l)
    (ih : ∀ e ∈ es, ∀ {loop? : Option LoopLabels} {s s' : Stage} {τ : Ty} {f : Fragment},
      Lowers sig ρ? loop? s e τ f s' → s.WF → Inside loop? s → ∀ before rest, f.code = before ++ i :: rest →
      CallFound sig ρ? s s' e.subexpressions before i rest)
    {callee : Var} {arguments : List Var} {target : Var} (hi : i.op = .call callee arguments target)
    (hcode : code = before ++ i :: rest) : CallFound sig ρ? s s' (Expr.allSubexpressions es) before i rest := by
  induction h generalizing before with
  | nil => exact absurd hcode (by simp)
  | @own s s' es j code hj _ ihes =>
    cases before with
    | nil =>
      obtain ⟨rfl, -⟩ := List.cons.inj hcode
      exact absurd hi ((hown j hj).1 _ _ _)
    | cons k before =>
      obtain ⟨rfl, rfl⟩ := List.cons.inj hcode
      refine (ihes hs hlow ih rfl).behind (List.forall_mem_singleton.2 fun l hl => .inl ?_)
      exact Nat.lt_of_lt_of_le (hallowed l ((hown j hj).2 l hl)) hlow
  | @part loop? s s₀ s₁ s' e es τ f code hidle hloop he hes ihes =>
    obtain ⟨hcons, ih⟩ := List.forall_mem_cons.1 ih
    have hs := hidle.wf hs
    have hfrom := hidle.later.label_le
    have hlow := Nat.le_trans hlow hfrom
    have hinside : Inside loop? s₀ := fun labels hl c => Nat.lt_of_lt_of_le (hallowed _ (hloop labels hl c)) hlow
    have hfirst := he.confined hs
    have hle := hfirst.later.label_le
    obtain ⟨-, hlater, hinner⟩ := hes.confined (he.wf hs) fun _ _ _ _ _ _ _ h hs => h.confined hs
    -- the call stands in the code of the first expression or in that of the others
    rcases append_eq_append_cons hcode with ⟨as, rfl, has⟩ | ⟨bs, hf, rfl⟩
    · have hfound := (ihes (he.wf hs) (Nat.le_trans hlow hle) ih has).behind
        fun j hj l hl => .inl ((hfirst.targets j hj l hl).lt hinside hle)
      exact hfound.mono (Nat.le_trans hfrom hle) (Nat.le_refl _) (List.subset_append_right e.subexpressions _)
    · refine ((hcons he hs hinside before bs hf).inFront fun j hj l hl => ?_).mono hfrom hlater.label_le
        (List.subset_append_left _ _)
      have hbelow : ∀ l, allowed l → l.number < s₀.nextLabel := fun l hl => Nat.lt_of_lt_of_le (hallowed l hl) hlow
      rcases hinner j hj with hj | ⟨htargets, -⟩
      · exact .inl (hbelow l ((hown j hj).2 l hl))
      · exact (htargets l hl).imp (hbelow l) (·.1)

/-- An application is lowered to its operands and the call. -/
theorem Lowers.applied {e : Expr} {τ : Ty} {f : Fragment} (h : Lowers sig ρ? loop? s e τ f s') {location : Location}
    {name : String} (he : e.Applies location name) :
    ∃ τs fs s₁, LowersArguments sig ρ? loop? s e.parts τs fs s₁ ∧ f = Lowering.applied location name fs s₁ ∧
      s' = s₁.withTemp τ := by
  cases he with
  | unary =>
    cases h with
    | unary h _ => exact ⟨_, _, _, h, rfl, rfl⟩
  | binary hop =>
    cases h with
    | binary _ h _ => exact ⟨_, _, _, h, rfl, rfl⟩
    | shortCircuit hop' _ _ => exact absurd (hop.symm.trans hop') Bool.noConfusion
  | call =>
    cases h with
    | call _ _ h => exact ⟨_, _, _, h, rfl, rfl⟩

/-- Every call in the code of an expression is found. -/
theorem Lowers.callFound {e : Expr} {τ : Ty} {f : Fragment} (h : Lowers sig ρ? loop? s e τ f s') (hs : s.WF)
    (hloop : Inside loop? s) (hcode : f.code = before ++ i :: rest) {callee : Var} {arguments : List Var}
    {target : Var} (hi : i.op = .call callee arguments target) :
    CallFound sig ρ? s s' e.subexpressions before i rest := by
  induction e using Expr.parts_induction generalizing loop? s s' τ f before rest with
  | h e ih =>
    have hparts : ∀ part ∈ e.parts, ∀ {loop? : Option LoopLabels} {s s' : Stage} {τ : Ty} {f : Fragment},
        Lowers sig ρ? loop? s part τ f s' → s.WF → Inside loop? s → ∀ before rest, f.code = before ++ i :: rest →
        CallFound sig ρ? s s' part.subexpressions before i rest :=
      fun part hpart _ _ _ _ _ h hs hloop _ _ hcode => ih part hpart h hs hloop hcode
    by_cases ha : ∃ location name, e.Applies location name
    · obtain ⟨location, name, ha⟩ := ha
      obtain ⟨τs, fs, s₁, hargs, rfl, rfl⟩ := h.applied ha
      have hle := hargs.extends.label_le
      rcases List.eq_nil_or_concat rest with rfl | ⟨rest, c, rfl⟩
      · obtain ⟨rfl, hlast⟩ := List.append_inj' hcode rfl
        obtain ⟨rfl, -⟩ := List.cons.inj hlast
        have hoperands : OperandsAt sig ρ? loop? s e.parts fs s₁ [] [] := ⟨⟨τs, hargs⟩, hs, hloop, List.forall_mem_nil _⟩
        exact .intro e.self_mem_subexpressions ha hoperands (Nat.le_refl _) (Nat.le_refl _)
      · rw [List.concat_eq_append, ← List.cons_append, ← List.append_assoc] at hcode
        obtain ⟨hoperands, hlast⟩ := List.append_inj' hcode rfl
        obtain ⟨rfl, -⟩ := List.cons.inj hlast
        have hweaves : Weaves sig ρ? (fun _ => False) (fun l => ∃ labels ∈ loop?, ∃ c, l = labels.target c) s e.parts
            (fs.flatMap (·.code)) s₁ := hargs.weaves fun labels hl c => ⟨labels, hl, c, rfl⟩
        have hfound := hweaves.callFound hs (Nat.le_refl _) (fun l ⟨labels, hl, c, he⟩ => he ▸ hloop labels hl c)
          (fun _ => False.elim) hparts hi hoperands
        rw [List.concat_eq_append]
        refine (hfound.inFront fun j hj l hl => ?_).mono (Nat.le_refl _) (Nat.le_refl _) ?_
        · obtain rfl := List.mem_singleton.1 hj
          cases hl
        · rw [Expr.subexpressions_eq]
          exact List.subset_cons_self _ _
    · obtain ⟨s₀, s₁, hidle, -, hweaves, hconcludes⟩ := h.weaves hs
      have hfirst := (Stage.Later.opened e s).trans hidle.isLater
      have hfound := hweaves.callFound (hidle.wf (hs.opened e)) (Nat.le_refl _)
        (fun l hl => hl.lt hloop hfirst.label_le)
        (fun j hj => ⟨fun _ _ _ hop => ha (hj.calls _ _ _ hop), hj.targets⟩) hparts hi hcode
      rw [Expr.subexpressions_eq]
      exact hfound.mono hfirst.label_le hconcludes.isLater.label_le (List.subset_cons_self e _)

end

/-! ## Operands that stand for variables -/

namespace Stage.WF

variable {s : Stage} {l l' : Local}

theorem local_eq (h : s.WF) (hl : l ∈ s.locals.flatten) (hl' : l' ∈ s.locals.flatten) (he : l.temp = l'.temp) :
    l = l' :=
  List.inj_on_of_nodup_map h.nodup hl hl' he

theorem not_anonymous (h : s.WF) (hl : l ∈ s.locals.flatten) : ¬s.Anonymous (.temp l.temp) := by
  rintro ⟨-, -, -, hn⟩
  obtain ⟨frame, hframe, hl⟩ := List.mem_flatten.1 hl
  exact hn (h.locals_owned frame hframe l hl)

end Stage.WF

/-- A variable in scope, if there is one, that is where a value is, stands for some name. -/
def Stage.Names (s : Stage) (v : Var) (name? : Option String) : Prop :=
  ∀ l ∈ s.locals.flatten, v = .temp l.temp → name? = some l.name

namespace Stage.Names

variable {s : Stage} {name? : Option String}

theorem unit (s : Stage) (name? : Option String) : s.Names .unit name? := nofun

theorem anonymous {v : Var} (hs : s.WF) (h : s.Anonymous v) (name? : Option String) : s.Names v name? :=
  fun _ hl hv => absurd (hv ▸ h) (hs.not_anonymous hl)

theorem leave {v : Var} (h : s.Names v name?) : s.leave.Names v name? :=
  fun l hl => h l ((List.tail_suffix s.locals).flatten.subset hl)

end Stage.Names

mutual

/-- If a variable in scope has the value of an expression, it is the one that the expression stands for. -/
theorem Lowers.standsFor :
    ∀ {loop? : Option LoopLabels} {s s' : Stage} {e : Expr} {τ : Ty} {f : Fragment},
      Lowers sig ρ? loop? s e τ f s' → s.WF → s'.Names f.value e.standsFor?
  | _, _, _, _, _, _, .int, hs | _, _, _, _, _, _, .bool, hs => .anonymous (hs.withTemp _) (.withTemp hs _) _
  | _, _, _, _, _, _, .unary h _, hs | _, _, _, _, _, _, .binary _ h _, hs | _, _, _, _, _, _, .call _ _ h, hs =>
    .anonymous ((h.wf hs).withTemp _) (.withTemp (h.wf hs) _) _
  | _, _, _, _, _, _, .shortCircuit _ h₁ h₂, hs => by
    have hwf := h₂.wf (h₁.wf (hs.withLabels 3))
    exact .anonymous (hwf.withTemp _) (.withTemp hwf _) _
  | _, _, _, _, _, _, .unit, _ | _, _, _, _, _, _, .ifThen .., _ | _, _, _, _, _, _, .ifElseUnit .., _
  | _, _, _, _, _, _, .loop .., _ | _, _, _, _, _, _, .declare .., _ | _, _, _, _, _, _, .control, _
  | _, _, _, _, _, _, .leave _, _ | _, _, _, _, _, _, .leaveWith .., _ => .unit _ _
  | _, _, _, _, _, _, .name hx, hs => fun l hl hv => by
    obtain ⟨rfl, frame, hframe, hmem⟩ := Locals.mem_of_find? hx
    have hsame := hs.local_eq (List.mem_flatten.2 ⟨frame, hframe, hmem⟩) hl (Var.temp.inj hv)
    rw [hsame, Expr.standsFor?]
  | _, _, _, _, _, _, .assign _ h, hs => by
    rw [Expr.standsFor?]
    exact h.standsFor hs
  | _, _, _, _, _, _, .ifElse _ _ h₁ h₂ hm h₃, hs => by
    have hwf := h₁.wf (hs.withLabels 3)
    have hfresh := hm.fresh (h₂.wf hwf) (h₂.locates hwf) h₂.extends.temp_le
    exact .anonymous (h₃.wf (hm.wf (h₂.wf hwf))) (hfresh.anonymous.mono h₃.extends) _
  | _, _, _, _, _, _, .block h, hs => by
    rw [Expr.standsFor?]
    exact (h.standsFor hs.enter (.inr rfl)).leave

theorem LowersStatements.standsFor :
    ∀ {loop? : Option LoopLabels} {s s' : Stage} {es : List Expr} {τ₀ : Ty} {last : Var} {τ : Ty} {f : Fragment},
      LowersStatements sig ρ? loop? s es τ₀ last τ f s' → s.WF → es ≠ [] ∨ last = .unit →
      s'.Names f.value (Expr.lastStandsFor? es)
  | _, s, _, _, _, _, _, _, .nil, _, hlast => by
    rw [hlast.resolve_left (fun h => h rfl)]
    exact .unit s none
  | _, _, _, _ :: es, _, _, _, _, .cons h hs', hs, _ => by
    have hfirst := h.standsFor hs
    have hothers := hs'.standsFor (h.wf hs)
    cases es with
    | nil =>
      cases hs'
      exact hfirst
    | cons e es => exact hothers (.inl (List.cons_ne_nil e es))

end

end Exprc.Lowering

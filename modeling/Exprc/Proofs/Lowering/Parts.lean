/-
How lowering goes through an expression. It lowers the parts in the order of evaluation, and what it does before
the first of them and between them declares nothing. Behind the last one it closes the block, declares the
variable, or only goes on. The instructions that are in no part of the expression join its parts
(`Lowers.weaves`). The copy of a declaration and that of an assignment write variables of the program; all others
write temporaries that nothing owns (`Lowers.parts`).
-/
import Exprc.Proofs.IR.Paths
import Exprc.Proofs.Meaning.Placement
import Exprc.Proofs.Resolution.Sites
import Exprc.Proofs.Soundness.Code

namespace Exprc.Syntax

/-- An expression that is evaluated by a call, of a function or an operator of some name, with the values of its
parts. -/
inductive Expr.Applies : Expr → Location → String → Prop
  | unary {n : Note} {op : UnaryOp} {e : Expr} : Applies (.unary n op e) n.location op.builtin.name
  | binary {n : Note} {op : BinaryOp} {pos : Location} {lhs rhs : Expr} : op.isShortCircuit = false →
      Applies (.binary n op pos lhs rhs) n.location op.builtin.name
  | call {n : Note} {callee : String} {es : List Expr} : Applies (.call n callee es) n.location callee

end Exprc.Syntax

namespace Exprc.Lowering

open Syntax IR Typing

/-! ## Stages between which nothing is declared -/

namespace Stage

/-- A later stage with the same variables: lowering took temporaries and labels, and opened or declared
nothing. -/
structure Idle (s s' : Stage) : Prop where
  later : s.Extends s'
  locals : s'.locals = s.locals
  owned : s'.owned = s.owned
  wf : s.WF → s'.WF

variable {s s' s'' : Stage}

namespace Idle

theorem refl (s : Stage) : s.Idle s := ⟨.refl s, rfl, rfl, id⟩

theorem withTemp (s : Stage) (τ : Ty) : s.Idle (s.withTemp τ) := ⟨.withTemp s τ, rfl, rfl, (·.withTemp τ)⟩

theorem withLabels (s : Stage) (count : Nat) : s.Idle (s.withLabels count) :=
  ⟨.withLabels s count, rfl, rfl, (·.withLabels count)⟩

theorem trans (h : s.Idle s') (h' : s'.Idle s'') : s.Idle s'' :=
  ⟨h.later.trans h'.later, h'.locals.trans h.locals, h'.owned.trans h.owned, h'.wf ∘ h.wf⟩

end Idle

/-- Where the parts of an expression begin: behind the block that it opens, if it opens one. -/
def opened (e : Expr) (s : Stage) : Stage := if e.opensScope then s.enter else s

/-- A temporary that was given out and that no declared name owns. -/
def Anonymous (s : Stage) (v : Var) : Prop := ∃ k < s.nextTemp, v = .temp k ∧ v ∉ s.owned

namespace Anonymous

variable {v : Var}

theorem withTemp (h : s.WF) (τ : Ty) : (s.withTemp τ).Anonymous (.temp s.nextTemp) := by
  refine ⟨s.nextTemp, Nat.lt_succ_self _, rfl, fun hv => ?_⟩
  obtain ⟨k, hk, he⟩ := h.owned_lt _ hv
  cases he
  omega

/-- What no name owns when it is given out no name owns later. -/
theorem mono (h : s.Anonymous v) (hs : s.Extends s') : s'.Anonymous v := by
  obtain ⟨k, hk, rfl, hv⟩ := h
  have hle := hs.temp_le
  refine ⟨k, by omega, rfl, fun hm => ?_⟩
  obtain ⟨new, hnew, hlater⟩ := hs.owned
  rw [hnew] at hm
  rcases List.mem_append.1 hm with hm | hm
  · obtain ⟨n, hn, -, he⟩ := hlater _ hm
    cases he
    omega
  · exact hv hm

end Anonymous

/-- A temporary that was given out between two stages, and that no declared name owns. -/
structure Fresh (s s' : Stage) (v : Var) : Prop where
  new : ∃ k, s.nextTemp ≤ k ∧ v = .temp k
  anonymous : s'.Anonymous v

namespace Fresh

variable {v : Var}

theorem withTemp (h : s'.WF) (hle : s.nextTemp ≤ s'.nextTemp) (τ : Ty) : s.Fresh (s'.withTemp τ) (.temp s'.nextTemp) :=
  ⟨⟨_, hle, rfl⟩, .withTemp h τ⟩

theorem mono (h : s.Fresh s' v) (hs : s'.Extends s'') : s.Fresh s'' v := ⟨h.new, h.anonymous.mono hs⟩

end Fresh

end Stage

/-! ## Parts -/

variable {sig : String → Option Signature} {ρ? : Option Ty}

/-- Expressions lower in order, to code one after the other, and nothing is declared between them. -/
inductive LowersParts (sig : String → Option Signature) (ρ? : Option Ty) :
    Stage → List Expr → List Instruction → Stage → Prop
  | nil {s : Stage} : LowersParts sig ρ? s [] [] s
  | cons {loop? : Option LoopLabels} {s s₀ s₁ s₂ : Stage} {e : Expr} {es : List Expr} {τ : Ty} {f : Fragment}
      {code : List Instruction} :
      s.Idle s₀ → Lowers sig ρ? loop? s₀ e τ f s₁ → LowersParts sig ρ? s₁ es code s₂ →
      LowersParts sig ρ? s (e :: es) (f.code ++ code) s₂

/-- What becomes of the stage behind the last part of an expression with some code: the block is closed, the
variable is declared, and the code has the copy that gives it its value, or nothing is declared. -/
inductive Concludes (code : List Instruction) : Expr → Stage → Stage → Prop
  | block {s : Stage} {n : Note} {es : List Expr} : Concludes code (.block n es) s s.leave
  | declare {s : Stage} {n : Note} {x : Name} {written? : Option WrittenType} {e : Expr} {τ : Ty} {v : Var} :
      ⟨n.location, .copy v (.temp s.nextTemp)⟩ ∈ code →
      Concludes code (.declare n x written? e) s (s.declare x.text τ)
  | plain {e : Expr} {s s' : Stage} : e.opensScope = false → e.binder? = none → s.Idle s' → Concludes code e s s'

/-- An instruction of an expression that is in none of its parts. Lowering comes to the expression at stage `s`
and to the end of the last part at stage `s₁`, and goes on at stage `s'`. -/
inductive Own (s s₁ s' : Stage) : Expr → Instruction → Prop
  | declare {n : Note} {x : Name} {written? : Option WrittenType} {e : Expr} {v : Var} :
      Own s s₁ s' (.declare n x written? e) ⟨n.location, .copy v (.temp s₁.nextTemp)⟩
  | assign {n n' : Note} {l : Location} {x : String} {value : Expr} {target : Local} {v : Var} :
      s.locals.find? x = some target →
      Own s s₁ s' (.assign n l (.name n' x) value) ⟨n'.location, .copy v (.temp target.temp)⟩
  | anonymous {e : Expr} {i : Instruction} : (∀ v ∈ i.op.writes, s'.Anonymous v) → Own s s₁ s' e i

/-- Code that has other code in it, and else only instructions of some kind. -/
structure Adds (own : Instruction → Prop) (inner code : List Instruction) : Prop where
  subset : inner ⊆ code
  others : ∀ i ∈ code, i ∈ inner ∨ own i

namespace Adds

variable {own own' : Instruction → Prop} {i : Instruction} {inner code : List Instruction}

theorem refl (code : List Instruction) : Adds own code code := ⟨List.Subset.refl _, fun _ hi => .inl hi⟩

theorem cons (hi : own i) (h : Adds own inner code) : Adds own inner (i :: code) :=
  ⟨List.subset_cons_of_subset i h.subset, List.forall_mem_cons.2 ⟨.inr hi, h.others⟩⟩

theorem part (part : List Instruction) (h : Adds own inner code) : Adds own (part ++ inner) (part ++ code) := by
  refine ⟨List.append_subset.2 ⟨List.subset_append_left _ _, List.subset_append_of_subset_right _ h.subset⟩,
    List.forall_mem_append.2 ⟨fun i hi => .inl (List.mem_append_left _ hi), fun i hi => ?_⟩⟩
  exact (h.others i hi).imp_left (List.mem_append_right _)

theorem imp (h : Adds own inner code) (hown : ∀ i, own i → own' i) : Adds own' inner code :=
  ⟨h.subset, fun i hi => (h.others i hi).imp_right (hown i)⟩

end Adds

/-! ## Instructions around the parts -/

/-- A label of the loop around, or one that was given out between two stages. -/
def Targets (loop? : Option LoopLabels) (s s' : Stage) (l : Label) : Prop :=
  (∃ labels ∈ loop?, ∃ c, l = labels.target c) ∨ s.nextLabel ≤ l.number ∧ l.number < s'.nextLabel

/-- What an instruction writes is a temporary that was not given out before; or the instruction is the copy of an
assignment, one of some expressions, to a variable that was in scope before. -/
inductive Changes (s : Stage) (es : List Expr) (v : Var) (i : Instruction) : Prop
  | fresh {k : Nat} : s.nextTemp ≤ k → v = .temp k → Changes s es v i
  | assignment {n n' : Note} {pos : Location} {value : Expr} {l : Local} {w : Var} : l ∈ s.locals.flatten →
      .assign n pos (.name n' l.name) value ∈ es → i = ⟨n'.location, .copy w v⟩ → v = .temp l.temp → Changes s es v i

/-- An instruction that joins the parts of an expression. Lowering comes to the expression at stage `s`, to its first
part at stage `s₀` and to the end of the last one at stage `s₁`, and goes on at stage `s'`. -/
structure Joins (loop? : Option LoopLabels) (s s₀ s₁ s' : Stage) (e : Expr) (i : Instruction) : Prop where
  own : Own s s₁ s' e i
  targets : ∀ l ∈ i.op.targets, Targets loop? s s₀ l
  changes : ∀ v ∈ i.op.writes, Changes s [e] v i
  calls : ∀ callee arguments target, i.op = .call callee arguments target → ∃ location name, e.Applies location name

namespace Joins

variable {loop? : Option LoopLabels} {s s₀ s₁ s' : Stage} {e : Expr} {location : Location}

theorem emit {ops : List Op}
    (h : ∀ op ∈ ops, (∀ l ∈ op.targets, Targets loop? s s₀ l) ∧ (∀ v ∈ op.writes, s.Fresh s' v) ∧
      ∀ callee arguments target, op ≠ .call callee arguments target) :
    ∀ i ∈ emit location ops, Joins loop? s s₀ s₁ s' e i := by
  refine List.forall_mem_map.2 fun op hop => ?_
  obtain ⟨htargets, hwrites, hcalls⟩ := h op hop
  refine ⟨.anonymous fun v hv => (hwrites v hv).anonymous, htargets, fun v hv => ?_,
    fun _ _ _ he => absurd he (hcalls _ _ _)⟩
  obtain ⟨k, hk, hv⟩ := (hwrites v hv).new
  exact .fresh hk hv

/-- The call of what is applied to the parts. -/
theorem call {name : String} {arguments : List Var} {τ : Ty} (he : e.Applies location name) (hs : s₁.WF)
    (hle : s.nextTemp ≤ s₁.nextTemp) :
    ∀ i ∈ Lowering.emit location [.call (.named name) arguments (.temp s₁.nextTemp)],
      Joins loop? s s₀ s₁ (s₁.withTemp τ) e i := by
  have hown : ∀ v ∈ [Var.temp s₁.nextTemp], v = .temp s₁.nextTemp := fun v => List.mem_singleton.1
  refine List.forall_mem_singleton.2 ⟨.anonymous fun v hv => ?_, List.forall_mem_nil _,
    fun v hv => .fresh hle (hown v hv), fun _ _ _ _ => ⟨_, _, he⟩⟩
  rw [hown v hv]
  exact .withTemp hs τ

/-- The copy to a variable of the program. -/
theorem copy {v w : Var} (hown : Own s s₁ s' e ⟨location, .copy v w⟩)
    (hw : Changes s [e] w ⟨location, .copy v w⟩) :
    ∀ i ∈ Lowering.emit location [.copy v w], Joins loop? s s₀ s₁ s' e i :=
  List.forall_mem_singleton.2 ⟨hown, List.forall_mem_nil _, List.forall_mem_singleton.2 hw,
    fun _ _ _ he => Op.noConfusion he⟩

end Joins

/-- Expressions lower in order, to code one after the other; nothing is declared between them, instructions of some kind
stand around it, and the loops around them have labels of some kind. -/
inductive Weaves (sig : String → Option Signature) (ρ? : Option Ty) (own : Instruction → Prop)
    (allowed : Label → Prop) : Stage → List Expr → List Instruction → Stage → Prop
  | nil {s : Stage} : Weaves sig ρ? own allowed s [] [] s
  | own {s s' : Stage} {es : List Expr} {i : Instruction} {code : List Instruction} :
      own i → Weaves sig ρ? own allowed s es code s' → Weaves sig ρ? own allowed s es (i :: code) s'
  | part {loop? : Option LoopLabels} {s s₀ s₁ s' : Stage} {e : Expr} {es : List Expr} {τ : Ty} {f : Fragment}
      {code : List Instruction} :
      s.Idle s₀ → (∀ labels ∈ loop?, ∀ c, allowed (labels.target c)) → Lowers sig ρ? loop? s₀ e τ f s₁ →
      Weaves sig ρ? own allowed s₁ es code s' → Weaves sig ρ? own allowed s (e :: es) (f.code ++ code) s'

namespace Weaves

variable {own : Instruction → Prop} {allowed : Label → Prop} {s s₀ s' : Stage} {es : List Expr}
  {code rest : List Instruction}

theorem before (hcode : ∀ i ∈ code, own i) (h : Weaves sig ρ? own allowed s es rest s') :
    Weaves sig ρ? own allowed s es (code ++ rest) s' := by
  induction code with
  | nil => exact h
  | cons i code ih =>
    obtain ⟨hi, hcode⟩ := List.forall_mem_cons.1 hcode
    exact .own hi (ih hcode)

theorem all (hcode : ∀ i ∈ code, own i) : Weaves sig ρ? own allowed s [] code s := by
  rw [← List.append_nil code]
  exact .before hcode .nil

theorem behind (hcode : ∀ i ∈ code, own i) (h : Weaves sig ρ? own allowed s es rest s') :
    Weaves sig ρ? own allowed s es (rest ++ code) s' := by
  induction h with
  | nil => exact .all hcode
  | own hi _ ih => exact .own hi ih
  | part hidle hloop he _ ih =>
    rw [List.append_assoc]
    exact .part hidle hloop he ih

/-- Without the instructions around them, the parts stand one after the other. -/
theorem parts (h : Weaves sig ρ? own allowed s₀ es code s') (hidle : s.Idle s₀) (hnil : s₀ = s ∨ es ≠ []) :
    ∃ inner, LowersParts sig ρ? s es inner s' ∧ Adds own inner code := by
  induction h generalizing s with
  | nil => exact ⟨[], hnil.resolve_right (absurd rfl) ▸ .nil, .refl _⟩
  | own hi _ ih =>
    obtain ⟨inner, hparts, hadds⟩ := ih hidle hnil
    exact ⟨inner, hparts, .cons hi hadds⟩
  | part hidle' _ he _ ih =>
    obtain ⟨inner, hparts, hadds⟩ := ih (.refl _) (.inl rfl)
    exact ⟨_, .cons (hidle.trans hidle') he hparts, .part _ hadds⟩

end Weaves

theorem LowersArguments.weaves {own : Instruction → Prop} {allowed : Label → Prop} {loop? : Option LoopLabels}
    {s s' : Stage} {es : List Expr} {τs : List Ty} {fs : List Fragment}
    (h : LowersArguments sig ρ? loop? s es τs fs s') (hloop : ∀ labels ∈ loop?, ∀ c, allowed (labels.target c)) :
    Weaves sig ρ? own allowed s es (fs.flatMap (·.code)) s' := by
  induction es generalizing s τs fs with
  | nil =>
    cases h
    exact .nil
  | cons e es ih =>
    cases h with
    | cons he hes => exact .part (.refl s) hloop he (ih hes)

theorem LowersStatements.weaves {own : Instruction → Prop} {allowed : Label → Prop} {loop? : Option LoopLabels}
    {s s' : Stage} {es : List Expr} {τ₀ τ : Ty} {last : Var} {f : Fragment}
    (h : LowersStatements sig ρ? loop? s es τ₀ last τ f s') (hloop : ∀ labels ∈ loop?, ∀ c, allowed (labels.target c)) :
    Weaves sig ρ? own allowed s es f.code s' := by
  induction es generalizing s τ₀ last f with
  | nil =>
    cases h
    exact .nil
  | cons e es ih =>
    cases h with
    | cons he hes => exact .part (.refl s) hloop he (ih hes)

/-! ## Going through an expression -/

theorem Merges.idle {location : Location} {τ : Ty} {s s' : Stage} {v : Var} {f : Fragment}
    (h : Merges location τ s v f s') : s.Idle s' := by
  cases h with
  | reuse => exact .refl s
  | copy => exact .withTemp s τ

/-- Both branches of a conditional merge into a temporary that no declared name owns. -/
theorem Merges.fresh {location : Location} {τ : Ty} {t s s' : Stage} {v : Var} {f : Fragment}
    (h : Merges location τ s v f s') (hs : s.WF) (hv : s.Locates t.nextTemp v) (hle : t.nextTemp ≤ s.nextTemp) :
    t.Fresh s' f.value := by
  obtain ⟨k, hk, hk', hvalue, hown⟩ := h.target hs hv hle
  exact ⟨⟨k, hk, hvalue⟩, k, hk', hvalue, by rwa [h.idle.owned, hvalue]⟩

/-- The copy into the variable of both branches, if there is one, joins them. -/
theorem Merges.joins {location : Location} {τ : Ty} {loop? : Option LoopLabels} {s s₀ s₁ s' t t' : Stage} {e : Expr}
    {v : Var} {f : Fragment} (h : Merges location τ t v f t') (hvalue : s.Fresh s' f.value) :
    ∀ i ∈ f.code, Joins loop? s s₀ s₁ s' e i := by
  cases h with
  | reuse => exact List.forall_mem_nil _
  | copy => exact .emit (by simpa [Op.targets, Op.writes] using hvalue)

/-- The code of an expression goes through its parts. -/
theorem Lowers.weaves {loop? : Option LoopLabels} {s s' : Stage} {e : Expr} {τ : Ty} {f : Fragment}
    (h : Lowers sig ρ? loop? s e τ f s') (hs : s.WF) :
    ∃ s₀ s₁, (s.opened e).Idle s₀ ∧ (s₀ = s.opened e ∨ e.parts ≠ []) ∧
      Weaves sig ρ? (Joins loop? s s₀ s₁ s' e) (Targets loop? s s₀) s₀ e.parts f.code s₁ ∧
      Concludes f.code e s₁ s' := by
  have hloop : ∀ s₀, ∀ labels ∈ loop?, ∀ c, Targets loop? s s₀ (labels.target c) :=
    fun _ labels hl c => .inl ⟨labels, hl, c, rfl⟩
  cases h with
  | int | bool =>
    have hvalue := Stage.Fresh.withTemp hs (Nat.le_refl _)
    exact ⟨s, s, .refl s, .inl rfl, .all (.emit (by simpa [Op.targets, Op.writes] using hvalue _)),
      .plain rfl rfl (.withTemp _ _)⟩
  | unit | name => exact ⟨s, s, .refl s, .inl rfl, .nil, .plain rfl rfl (.refl s)⟩
  | control =>
    refine ⟨s, s, .refl s, .inl rfl, .all (.emit ?_), .plain rfl rfl (.refl s)⟩
    simpa [Op.targets, Op.writes] using hloop s _ rfl _
  | leave =>
    exact ⟨s, s, .refl s, .inl rfl, .all (.emit (by simp [Op.targets, Op.writes])), .plain rfl rfl (.refl s)⟩
  | unary h =>
    exact ⟨s, _, .refl s, .inl rfl, .behind (.call .unary (h.wf hs) h.extends.temp_le) (h.weaves (hloop s)),
      .plain rfl rfl (.withTemp _ _)⟩
  | binary hop h =>
    exact ⟨s, _, .refl s, .inl rfl, .behind (.call (.binary hop) (h.wf hs) h.extends.temp_le) (h.weaves (hloop s)),
      .plain rfl rfl (.withTemp _ _)⟩
  | call _ _ h =>
    exact ⟨s, _, .refl s, .inl rfl, .behind (.call .call (h.wf hs) h.extends.temp_le) (h.weaves (hloop s)),
      .plain rfl rfl (.withTemp _ _)⟩
  | @shortCircuit _ _ _ _ _ op _ _ _ _ _ _ h₁ h₂ =>
    have hvalue := Stage.Fresh.withTemp (s := s) (h₂.wf (h₁.wf (hs.withLabels 3)))
      (Nat.le_trans h₁.extends.temp_le h₂.extends.temp_le)
    refine ⟨_, _, .withLabels s 3, .inr (List.cons_ne_nil _ _), ?_, .plain rfl rfl (.withTemp _ _)⟩
    simp only [List.append_assoc]
    refine .part (.refl _) (hloop _) h₁ (.before (.emit ?_) (.part (.refl _) (hloop _) h₂ (.all (.emit ?_))))
    · by_cases hop : op = .logicalOr <;> simp [Op.targets, Op.writes, Targets, Stage.withLabels, hop]
    · simpa [Op.targets, Op.writes, Targets, Stage.withLabels] using hvalue _
  | assign hl h =>
    refine ⟨s, _, .refl s, .inl rfl, .part (f := ⟨[], _⟩) (.refl s) (hloop s) (.name hl)
      (.part (.refl s) (hloop s) h (.all (.copy (.assign hl) ?_))), .plain rfl rfl (.refl _)⟩
    obtain ⟨rfl, frame, hframe, hmem⟩ := Locals.mem_of_find? hl
    exact .assignment (List.mem_flatten.2 ⟨frame, hframe, hmem⟩) List.mem_cons_self rfl rfl
  | ifThen h₁ h₂ =>
    refine ⟨_, _, .withLabels s 2, .inr (List.cons_ne_nil _ _), ?_, .plain rfl rfl (.refl _)⟩
    simp only [List.append_assoc]
    refine .part (.refl _) (hloop _) h₁ (.before (.emit ?_) (.part (.refl _) (hloop _) h₂ (.all (.emit ?_)))) <;>
      simp [Op.targets, Op.writes, Targets, Stage.withLabels]
  | ifElseUnit _ h₁ h₂ h₃ =>
    refine ⟨_, _, .withLabels s 3, .inr (List.cons_ne_nil _ _), ?_, .plain rfl rfl (.refl _)⟩
    simp only [List.append_assoc]
    refine .part (.refl _) (hloop _) h₁ (.before (.emit ?_) (.part (.refl _) (hloop _) h₂ (.before (.emit ?_)
      (.part (.refl _) (hloop _) h₃ (.all (.emit ?_)))))) <;>
      simp [Op.targets, Op.writes, Targets, Stage.withLabels]
  | ifElse _ _ h₁ h₂ hm h₃ =>
    have hwf := h₁.wf (hs.withLabels 3)
    have hvalue := (hm.fresh (t := s) (h₂.wf hwf) ((h₂.locates hwf).mono (.refl _) h₁.extends.temp_le)
      (Nat.le_trans h₁.extends.temp_le h₂.extends.temp_le)).mono h₃.extends
    refine ⟨_, _, .withLabels s 3, .inr (List.cons_ne_nil _ _), ?_, .plain rfl rfl (.refl _)⟩
    simp only [List.append_assoc]
    refine .part (.refl _) (hloop _) h₁ (.before (.emit ?_) (.part (.refl _) (hloop _) h₂ (.before (hm.joins hvalue)
      (.before (.emit ?_) (.part hm.idle (hloop _) h₃ (.all (.emit ?_)))))))
    · simp [Op.targets, Op.writes, Targets, Stage.withLabels]
    · simp [Op.targets, Op.writes, Targets, Stage.withLabels]
    · simp [Op.targets, Op.writes, Targets, Stage.withLabels, hvalue]
  | loop h₁ h₂ =>
    refine ⟨_, _, .withLabels s 3, .inr (List.cons_ne_nil _ _), ?_, .plain rfl rfl (.refl _)⟩
    simp only [List.append_assoc]
    refine .before (.emit ?_) (.part (.refl _) (hloop _) h₁ (.before (.emit ?_) (.part (.refl _) ?_ h₂
      (.all (.emit ?_)))))
    · simp [Op.targets, Op.writes]
    · simp [Op.targets, Op.writes, Targets, Stage.withLabels]
    · rintro _ ⟨⟩ c
      cases c <;> exact .inr (by simp [LoopLabels.target, Stage.withLabels])
    · simp [Op.targets, Op.writes, Targets, Stage.withLabels]
  | block h =>
    refine ⟨_, _, .refl _, .inl rfl, h.weaves ?_, .block⟩
    exact fun labels hl c => .inl ⟨labels, hl, c, rfl⟩
  | declare h =>
    exact ⟨s, _, .refl s, .inl rfl, .part (.refl s) (hloop s) h (.all (.copy .declare (.fresh h.extends.temp_le rfl))),
      .declare (List.mem_append_right _ List.mem_cons_self)⟩
  | leaveWith _ h =>
    refine ⟨s, _, .refl s, .inl rfl, .part (.refl s) (hloop s) h (.all (.emit ?_)), .plain rfl rfl (.refl _)⟩
    simp [Op.targets, Op.writes]

/-- The code of an expression has the code of its parts, and else only instructions of its own. -/
theorem Lowers.parts {loop? : Option LoopLabels} {s s' : Stage} {e : Expr} {τ : Ty} {f : Fragment}
    (h : Lowers sig ρ? loop? s e τ f s') (hs : s.WF) :
    ∃ code s₁, LowersParts sig ρ? (s.opened e) e.parts code s₁ ∧ Concludes f.code e s₁ s' ∧
      Adds (Own s s₁ s' e) code f.code := by
  obtain ⟨s₀, s₁, hidle, hnil, hweaves, hconcludes⟩ := h.weaves hs
  obtain ⟨code, hparts, hadds⟩ := hweaves.parts hidle hnil
  exact ⟨code, s₁, hparts, hconcludes, hadds.imp fun _ => Joins.own⟩

end Exprc.Lowering

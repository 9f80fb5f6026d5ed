/-
Types in notes and what a check makes of them. Whether it succeeds or not, a check only adds types
(`checkExpr_extends`), and if it succeeds it leaves none out (`checkExpr_annotates`). Types that a tree has
already do not lead the check elsewhere: it does what it does on a tree without types, or it comes to an
expression that has another type and fails there (`checkExpr_follows`). So the types that a check has left in a
tree are those that the same check finds again (`checkExpr_repeats`).
-/
import Exprc.Proofs.Resolution.Sites
import Exprc.Proofs.Typing.Tree

namespace Exprc

/-! ## More types -/

namespace Syntax

namespace Expr

/-- The second tree has every type that the first one has. -/
inductive Extends : Expr → Expr → Prop
  | intro {e e' : Expr} : (∀ τ, e.ty? = some τ → e'.ty? = some τ) → List.Forall₂ Extends e.parts e'.parts →
      Extends e e'

theorem Extends.ty? {e e' : Expr} (h : e.Extends e') {τ : Ty} (hτ : e.ty? = some τ) : e'.ty? = some τ := by
  obtain ⟨hty, -⟩ := h
  exact hty τ hτ

theorem Extends.parts {e e' : Expr} (h : e.Extends e') : List.Forall₂ Extends e.parts e'.parts := by
  obtain ⟨-, hparts⟩ := h
  exact hparts

theorem Extends.refl (e : Expr) : e.Extends e := by
  induction e using parts_induction with
  | h e ih => exact .intro (fun _ h => h) (List.forall₂_same.2 ih)

theorem Extends.refl_all (es : List Expr) : List.Forall₂ Extends es es :=
  List.forall₂_same.2 fun e _ => .refl e

/-- A tree has all types that it has when some are taken away. -/
theorem untyped_extends (e : Expr) : e.untyped.Extends e := by
  induction e using parts_induction with
  | h e ih =>
    refine .intro (fun τ hτ => ?_) ?_
    · have hnone : e.untyped.ty? = none := by cases e <;> rfl
      rw [hnone] at hτ
      cases hτ
    · rw [parts_untyped, List.forall₂_map_left_iff]
      exact List.forall₂_same.2 ih

theorem allUntyped_extends (es : List Expr) : List.Forall₂ Extends (allUntyped es) es := by
  rw [allUntyped_map, List.forall₂_map_left_iff]
  exact List.forall₂_same.2 fun e _ => e.untyped_extends

/-- Whether every expression in a tree has a type. -/
def Complete (e : Expr) : Prop := ∀ a ∈ e.subexpressions, a.ty?.isSome = true

end Expr

end Syntax

namespace Typing

open Syntax Checker

/-! ## Checks add types -/

namespace Checker

variable {α β γ δ : Type}

/-- Whether a check leaves a tree of some kind in any case. -/
def Leaves (P : α → Prop) (c : Checker α γ) : Prop := ∀ s, P (c s).tree

namespace Leaves

variable {P : α → Prop} {Q : β → Prop} {c : Checker α γ} {tree : α}

theorem done {found : γ} (h : P tree) : Leaves P (done tree found) := fun _ => h

theorem fail {fault : Fault TypeError} (h : P tree) : Leaves P (fail tree fault : Checker α γ) := fun _ => h

theorem map {f : α → β} (hc : Leaves P c) (hf : ∀ a, P a → Q (f a)) : Leaves Q (map f c) :=
  fun s => hf _ (hc s)

theorem andThen {rebuild : α → β} {rest : α → γ → Checker β δ} (hc : Leaves P c)
    (hrebuild : ∀ a, P a → Q (rebuild a)) (hrest : ∀ a found, P a → Leaves Q (rest a found)) :
    Leaves Q (c.andThen rebuild rest) := by
  intro s
  unfold Checker.andThen
  cases ho : (c s).outcome with
  | error fault => simpa only [ho] using hrebuild _ (hc s)
  | ok found => simpa only [ho] using hrest _ found (hc s) _

theorem ensure {demand : α → γ → Except (Fault TypeError) Unit} (hc : Leaves P c) :
    Leaves P (c.ensure demand) := hc

theorem ask {question : Scopes → Except (Fault TypeError) δ} {rest : δ → Checker α γ} (htree : P tree)
    (hrest : ∀ answer, Leaves P (rest answer)) : Leaves P (ask tree question rest) := by
  intro s
  unfold Checker.ask
  split
  · exact hrest _ s
  · exact htree

theorem declaring {name : String} {τ : Ty} {fault : Fault TypeError} (htree : P tree) (hc : Leaves P c) :
    Leaves P (declaring tree name τ fault c) := by
  intro s
  unfold Checker.declaring
  split
  · exact hc _
  · exact htree

theorem inScope (hc : Leaves P c) : Leaves P (inScope c) := by
  intro s
  rw [inScope_tree]
  exact hc s.push

/-- The type of an expression is added to it, or it has it already. -/
theorem conclude {P : Expr → Prop} {build : Note → Expr} {n : Note} {τ : Ty}
    (h : ∀ n' : Note, (∀ υ, n.ty? = some υ → n'.ty? = some υ) → P (build n')) :
    Leaves P (conclude build n τ) := by
  intro s
  unfold Typing.conclude
  cases hn : n.ty? with
  | none => exact h _ fun υ hυ => by rw [hn] at hυ; cases hυ
  | some known =>
    dsimp only
    split
    · exact h n fun _ hυ => hυ
    · exact h n fun _ hυ => hυ

end Leaves

end Checker

mutual

/-- A check leaves an expression the types that it has. -/
theorem checkExpr_extends (ρ? : Option Ty) : ∀ e : Expr, Leaves e.Extends (checkExpr ρ? e)
  | .int .. | .bool .. | .unit .. | .control .. => by
    rw [checkExpr]
    exact .conclude fun n' hn => .intro hn .nil
  | .name .. | .leave .. => by
    rw [checkExpr]
    exact .ask (.refl _) fun τ => .conclude fun n' hn => .intro hn .nil
  | .unary n op e => by
    rw [checkExpr]
    refine .andThen (checkExpr_extends ρ? e) (fun e' he => .intro (fun _ hn => hn) (.cons he .nil))
      fun e' τ he => ?_
    refine .ask (.intro (fun _ hn => hn) (.cons he .nil)) fun ρ => ?_
    exact .conclude fun n' hn => .intro hn (.cons he .nil)
  | .binary n op l lhs rhs => by
    rw [checkExpr]
    refine .andThen (checkExpr_extends ρ? lhs)
      (fun a ha => .intro (fun _ hn => hn) (.cons ha (.cons (.refl _) .nil))) fun a τ ha => ?_
    refine .andThen (checkExpr_extends ρ? rhs)
      (fun b hb => .intro (fun _ hn => hn) (.cons ha (.cons hb .nil))) fun b υ hb => ?_
    refine .ask (.intro (fun _ hn => hn) (.cons ha (.cons hb .nil))) fun ρ => ?_
    exact .conclude fun n' hn => .intro hn (.cons ha (.cons hb .nil))
  | .assign n l target value => by
    rw [checkExpr]
    split
    · refine .andThen (checkExpr_extends ρ? target)
        (fun a ha => .intro (fun _ hn => hn) (.cons ha (.cons (.refl _) .nil))) fun a τ ha => ?_
      refine .andThen (checkExpr_extends ρ? value)
        (fun b hb => .intro (fun _ hn => hn) (.cons ha (.cons hb .nil))) fun b υ hb => ?_
      split
      · exact .conclude fun n' hn => .intro hn (.cons ha (.cons hb .nil))
      · exact .fail (.intro (fun _ hn => hn) (.cons ha (.cons hb .nil)))
    · exact .fail (.refl _)
  | .ifThen n c t | .loop n c t => by
    rw [checkExpr]
    refine .andThen (checkExpr_extends ρ? c).ensure
      (fun a ha => .intro (fun _ hn => hn) (.cons ha (.cons (.refl _) .nil))) fun a τ ha => ?_
    refine .andThen (checkExpr_extends ρ? t)
      (fun b hb => .intro (fun _ hn => hn) (.cons ha (.cons hb .nil))) fun b υ hb => ?_
    exact .conclude fun n' hn => .intro hn (.cons ha (.cons hb .nil))
  | .ifElse n c t e => by
    rw [checkExpr]
    refine .andThen (checkExpr_extends ρ? c).ensure
      (fun a ha => .intro (fun _ hn => hn) (.cons ha (Expr.Extends.refl_all [t, e]))) fun a τ ha => ?_
    refine .andThen (checkExpr_extends ρ? t)
      (fun b hb => .intro (fun _ hn => hn) (.cons ha (.cons hb (.cons (.refl _) .nil)))) fun b υ hb => ?_
    refine .andThen (checkExpr_extends ρ? e)
      (fun d hd => .intro (fun _ hn => hn) (.cons ha (.cons hb (.cons hd .nil)))) fun d υ hd => ?_
    split
    · exact .conclude fun n' hn => .intro hn (.cons ha (.cons hb (.cons hd .nil)))
    · exact .fail (.intro (fun _ hn => hn) (.cons ha (.cons hb (.cons hd .nil))))
  | .block n es => by
    rw [checkExpr]
    refine .andThen (checkStatements_extends ρ? es .unit).inScope
      (fun es' hes => .intro (fun _ hn => hn) hes) fun es' τ hes => ?_
    exact .conclude fun n' hn => .intro hn hes
  | .declare n x written? e => by
    rw [checkExpr]
    refine .andThen (checkExpr_extends ρ? e) (fun e' he => .intro (fun _ hn => hn) (.cons he .nil))
      fun e' τ he => ?_
    refine .ask (.intro (fun _ hn => hn) (.cons he .nil)) fun τ => ?_
    refine .declaring (.intro (fun _ hn => hn) (.cons he .nil)) ?_
    exact .conclude fun n' hn => .intro hn (.cons he .nil)
  | .call n f es => by
    rw [checkExpr]
    refine .ask (.refl _) fun σ => ?_
    refine .andThen (checkArguments_extends ρ? es σ.parameters)
      (fun es' hes => .intro (fun _ hn => hn) hes) fun es' _ hes => ?_
    exact .conclude fun n' hn => .intro hn hes
  | .leaveWith n e => by
    rw [checkExpr]
    split
    · refine .andThen (checkExpr_extends ρ? e) (fun e' he => .intro (fun _ hn => hn) (.cons he .nil))
        fun e' τ he => ?_
      refine .ask (.intro (fun _ hn => hn) (.cons he .nil)) fun ρ => ?_
      exact .conclude fun n' hn => .intro hn (.cons he .nil)
    · exact .fail (.refl _)

theorem checkStatements_extends (ρ? : Option Ty) : ∀ (es : List Expr) (τ₀ : Ty),
    Leaves (List.Forall₂ Expr.Extends es) (checkStatements ρ? es τ₀)
  | [], _ => by
    rw [checkStatements]
    exact .done .nil
  | e :: es, _ => by
    rw [checkStatements]
    refine .andThen (checkExpr_extends ρ? e) (fun e' he => .cons he (Expr.Extends.refl_all es))
      fun e' τ he => ?_
    exact .map (checkStatements_extends ρ? es τ) fun es' hes => .cons he hes

theorem checkArguments_extends (ρ? : Option Ty) : ∀ (es : List Expr) (τs : List Ty),
    Leaves (List.Forall₂ Expr.Extends es) (checkArguments ρ? es τs)
  | [], _ => by
    rw [checkArguments]
    · exact .done .nil
    · simp
  | e :: es, [] => by
    rw [checkArguments]
    · exact .done (Expr.Extends.refl_all _)
    · simp
  | e :: es, τ :: τs => by
    rw [checkArguments]
    refine .andThen (checkExpr_extends ρ? e).ensure (fun e' he => .cons he (Expr.Extends.refl_all es))
      fun e' _ he => ?_
    exact .map (checkArguments_extends ρ? es τs) fun es' hes => .cons he hes

end

/-! ## Checks that succeed -/

namespace Checker

variable {α β γ δ : Type}

/-- What is known of the tree and of what is found if a check succeeds. -/
def Finds (P : α → γ → Prop) (c : Checker α γ) : Prop :=
  ∀ (s : Scopes) (found : γ), (c s).outcome = .ok found → P (c s).tree found

namespace Finds

variable {P : α → γ → Prop} {Q : β → δ → Prop} {c : Checker α γ}

theorem done {tree : α} {found : γ} (h : P tree found) : Finds P (done tree found) := by
  intro _ _ hfound
  cases hfound
  exact h

theorem fail {tree : α} {fault : Fault TypeError} : Finds P (fail tree fault) :=
  fun _ _ h => by cases h

theorem map {f : α → β} {Q : β → γ → Prop} (hc : Finds P c) (hf : ∀ a found, P a found → Q (f a) found) :
    Finds Q (map f c) :=
  fun s found h => hf _ _ (hc s found h)

theorem andThen {rebuild : α → β} {rest : α → γ → Checker β δ} (hc : Finds P c)
    (hrest : ∀ a found, P a found → Finds Q (rest a found)) : Finds Q (c.andThen rebuild rest) := by
  intro s found h
  obtain ⟨found', hpart, he⟩ := andThen_ok h
  rw [he] at h ⊢
  exact hrest _ _ (hc s found' hpart) _ _ h

theorem ensure {demand : α → γ → Except (Fault TypeError) Unit} (hc : Finds P c) :
    Finds P (c.ensure demand) := by
  intro s found h
  obtain ⟨hpart, -, htree, -⟩ := ensure_ok h
  rw [htree]
  exact hc s found hpart

theorem ask {tree : α} {question : Scopes → Except (Fault TypeError) δ} {rest : δ → Checker α γ}
    (hrest : ∀ s answer, question s = .ok answer → Finds P (rest answer)) :
    Finds P (ask tree question rest) := by
  intro s found h
  obtain ⟨answer, hanswer, he⟩ := ask_ok h
  rw [he] at h ⊢
  exact hrest s answer hanswer s found h

theorem declaring {tree : α} {name : String} {τ : Ty} {fault : Fault TypeError} (hc : Finds P c) :
    Finds P (declaring tree name τ fault c) := by
  intro s found h
  obtain ⟨s', -, he⟩ := declaring_ok h
  rw [he] at h ⊢
  exact hc s' found h

theorem inScope (hc : Finds P c) : Finds P (inScope c) := by
  intro s found h
  obtain ⟨hinner, he⟩ := inScope_ok h
  rw [he]
  exact hc s.push found hinner

end Finds

end Checker

/-- Whether a tree carries a type, and every expression in it some type. -/
def Annotates (e : Expr) (τ : Ty) : Prop := e.ty? = some τ ∧ e.Complete

/-- Whether every expression in some trees carries a type. -/
def AnnotatesAll (es : List Expr) : Prop := ∀ a ∈ Expr.allSubexpressions es, a.ty?.isSome = true

theorem AnnotatesAll.cons {e : Expr} {es : List Expr} (he : e.Complete) (hes : AnnotatesAll es) :
    AnnotatesAll (e :: es) :=
  List.forall_mem_append.2 ⟨he, hes⟩

/-- The type of an expression is the last that is noted. -/
theorem conclude_annotates {build : Note → Expr} {n : Note} {τ : Ty} (hnote : ∀ n', (build n').note = n')
    (hparts : ∀ n', ∀ a ∈ (build n').subexpressions.tail, a.ty?.isSome = true) :
    Finds Annotates (conclude build n τ) := by
  intro s υ h
  obtain ⟨rfl, n', hn', -, he⟩ := conclude_ok h
  have hty : (build n').ty? = some υ := by rw [Expr.ty?, hnote, hn']
  rw [he]
  refine ⟨hty, ?_⟩
  have hall : (build n').subexpressions = build n' :: (build n').subexpressions.tail := by
    cases build n' <;> rfl
  rw [Expr.Complete, hall, List.forall_mem_cons]
  exact ⟨by rw [hty]; rfl, hparts n'⟩

mutual

/-- A check that succeeds leaves the type that it found, and no expression without a type. -/
theorem checkExpr_annotates (ρ? : Option Ty) : ∀ e : Expr, Finds Annotates (checkExpr ρ? e)
  | .int .. | .bool .. | .unit .. | .control .. => by
    rw [checkExpr]
    exact conclude_annotates (fun _ => rfl) fun _ _ ha => nomatch ha
  | .name .. | .leave .. => by
    rw [checkExpr]
    exact .ask fun s τ _ => conclude_annotates (fun _ => rfl) fun _ _ ha => nomatch ha
  | .unary n op e => by
    rw [checkExpr]
    refine .andThen (checkExpr_annotates ρ? e) fun e' τ he => .ask fun _ ρ _ => ?_
    exact conclude_annotates (fun _ => rfl) fun _ => he.2
  | .binary n op l lhs rhs => by
    rw [checkExpr]
    refine .andThen (checkExpr_annotates ρ? lhs) fun a τ ha => ?_
    refine .andThen (checkExpr_annotates ρ? rhs) fun b υ hb => .ask fun _ ρ _ => ?_
    exact conclude_annotates (fun _ => rfl) fun _ => List.forall_mem_append.2 ⟨ha.2, hb.2⟩
  | .assign n l target value => by
    rw [checkExpr]
    split
    · refine .andThen (checkExpr_annotates ρ? target) fun a τ ha => ?_
      refine .andThen (checkExpr_annotates ρ? value) fun b υ hb => ?_
      split
      · exact conclude_annotates (fun _ => rfl) fun _ => List.forall_mem_append.2 ⟨ha.2, hb.2⟩
      · exact .fail
    · exact .fail
  | .ifThen n c t | .loop n c t => by
    rw [checkExpr]
    refine .andThen (checkExpr_annotates ρ? c).ensure fun a _ ha => ?_
    refine .andThen (checkExpr_annotates ρ? t) fun b τ hb => ?_
    exact conclude_annotates (fun _ => rfl) fun _ => List.forall_mem_append.2 ⟨ha.2, hb.2⟩
  | .ifElse n c t e => by
    rw [checkExpr]
    refine .andThen (checkExpr_annotates ρ? c).ensure fun a _ ha => ?_
    refine .andThen (checkExpr_annotates ρ? t) fun b τ hb => ?_
    refine .andThen (checkExpr_annotates ρ? e) fun d υ hd => ?_
    split
    · refine conclude_annotates (fun _ => rfl) fun _ => List.forall_mem_append.2 ⟨ha.2, ?_⟩
      exact List.forall_mem_append.2 ⟨hb.2, hd.2⟩
    · exact .fail
  | .block n es => by
    rw [checkExpr]
    refine .andThen (checkStatements_annotates ρ? es .unit).inScope fun es' τ hes => ?_
    exact conclude_annotates (fun _ => rfl) fun _ => hes
  | .declare n x written? e => by
    rw [checkExpr]
    refine .andThen (checkExpr_annotates ρ? e) fun e' τ he => .ask fun _ τ _ => .declaring ?_
    exact conclude_annotates (fun _ => rfl) fun _ => he.2
  | .call n f es => by
    rw [checkExpr]
    refine .ask fun s σ hσ => ?_
    have hlength : es.length = σ.parameters.length := (callSignature_ok (blame_ok hσ)).2.symm
    refine .andThen (checkArguments_annotates ρ? es σ.parameters hlength) fun es' _ hes => ?_
    exact conclude_annotates (fun _ => rfl) fun _ => hes
  | .leaveWith n e => by
    rw [checkExpr]
    split
    · refine .andThen (checkExpr_annotates ρ? e) fun e' τ he => .ask fun _ ρ _ => ?_
      exact conclude_annotates (fun _ => rfl) fun _ => he.2
    · exact .fail

theorem checkStatements_annotates (ρ? : Option Ty) : ∀ (es : List Expr) (τ₀ : Ty),
    Finds (fun es' _ => AnnotatesAll es') (checkStatements ρ? es τ₀)
  | [], _ => by
    rw [checkStatements]
    exact .done nofun
  | e :: es, _ => by
    rw [checkStatements]
    refine .andThen (checkExpr_annotates ρ? e) fun e' τ he => ?_
    exact .map (checkStatements_annotates ρ? es τ) fun es' _ hes => .cons he.2 hes

/-- Every argument is checked, since there are as many as there are parameters. -/
theorem checkArguments_annotates (ρ? : Option Ty) : ∀ (es : List Expr) (τs : List Ty),
    es.length = τs.length → Finds (fun es' _ => AnnotatesAll es') (checkArguments ρ? es τs)
  | [], _, _ => by
    rw [checkArguments]
    · exact .done nofun
    · simp
  | e :: es, τ :: τs, hlength => by
    rw [checkArguments]
    refine .andThen (checkExpr_annotates ρ? e).ensure fun e' _ he => ?_
    exact .map (checkArguments_annotates ρ? es τs (Nat.succ.inj hlength)) fun es' _ hes => .cons he.2 hes

end

/-! ## Types that are there already -/

/-- Whether a check failed since it found another type for an expression than the one that the expression has. -/
def Clashes {γ : Type} (outcome : Except (Fault TypeError) γ) : Prop :=
  ∃ l known now, known ≠ now ∧ outcome = .error (.at l (.conflict known now))

namespace Checker

variable {α β γ δ : Type}

/-- The check of a tree without types and that of the tree itself come to the same end. The tree itself may
have types that the other one did not get because the check failed. -/
structure Agrees (le : α → α → Prop) (r₀ r : Checked α γ) : Prop where
  outcome : r.outcome = r₀.outcome
  scopes : r.scopes = r₀.scopes
  types : le r₀.tree r.tree
  tree : ∀ found, r.outcome = .ok found → r.tree = r₀.tree

/-- The check of a tree comes to the same end as that of the tree without types, unless it finds an expression
that has another type. -/
def Follows (le : α → α → Prop) (c₀ c : Checker α γ) : Prop :=
  ∀ s, Clashes (c s).outcome ∨ Agrees le (c₀ s) (c s)

namespace Follows

variable {le : α → α → Prop} {le' : β → β → Prop} {c₀ c : Checker α γ} {tree₀ tree : α}

theorem done {found : γ} (h : le tree tree) : Follows le (done tree found) (done tree found) :=
  fun _ => .inr ⟨rfl, rfl, h, fun _ _ => rfl⟩

theorem fail {fault : Fault TypeError} (h : le tree₀ tree) :
    Follows le (fail tree₀ fault : Checker α γ) (fail tree fault) :=
  fun _ => .inr ⟨rfl, rfl, h, fun _ hfound => by cases hfound⟩

theorem map {f : α → β} (hc : Follows le c₀ c) (hf : ∀ a₀ a, le a₀ a → le' (f a₀) (f a)) :
    Follows le' (map f c₀) (map f c) :=
  fun s => (hc s).imp id fun h =>
    ⟨h.outcome, h.scopes, hf _ _ h.types, fun found hfound => congrArg f (h.tree found hfound)⟩

theorem andThen {rebuild₀ rebuild : α → β} {rest₀ rest : α → γ → Checker β δ} (hc : Follows le c₀ c)
    (hrebuild : ∀ a₀ a, le a₀ a → le' (rebuild₀ a₀) (rebuild a))
    (hrest : ∀ a found, Follows le' (rest₀ a found) (rest a found)) :
    Follows le' (c₀.andThen rebuild₀ rest₀) (c.andThen rebuild rest) := by
  intro s
  unfold Checker.andThen
  obtain ⟨l, known, now, hne, hclash⟩ | h := hc s
  · refine .inl ⟨l, known, now, hne, ?_⟩
    simp only [hclash]
  · cases ho : (c s).outcome with
    | error fault =>
      have ho₀ : (c₀ s).outcome = .error fault := h.outcome.symm.trans ho
      simp only [ho, ho₀]
      exact .inr ⟨rfl, h.scopes, hrebuild _ _ h.types, fun _ hfound => by cases hfound⟩
    | ok found =>
      have ho₀ : (c₀ s).outcome = .ok found := h.outcome.symm.trans ho
      simp only [ho, ho₀, ← h.tree found ho, ← h.scopes]
      exact hrest _ found _

theorem ensure {demand : α → γ → Except (Fault TypeError) Unit} (hc : Follows le c₀ c) :
    Follows le (c₀.ensure demand) (c.ensure demand) := by
  intro s
  unfold Checker.ensure
  obtain ⟨l, known, now, hne, hclash⟩ | h := hc s
  · refine .inl ⟨l, known, now, hne, ?_⟩
    simp only [hclash]
    rfl
  · refine .inr ⟨?_, h.scopes, h.types, fun found hfound => ?_⟩
    · dsimp only
      cases ho : (c s).outcome with
      | error fault =>
        rw [← h.outcome, ho]
        rfl
      | ok found => rw [← h.outcome, ho, h.tree found ho]
    · cases ho : (c s).outcome with
      | error fault =>
        simp only [ho] at hfound
        cases hfound
      | ok found' => exact h.tree found' ho

theorem ask {question : Scopes → Except (Fault TypeError) δ} {rest₀ rest : δ → Checker α γ}
    (htree : le tree₀ tree)
    (hrest : ∀ s answer, question s = .ok answer → Follows le (rest₀ answer) (rest answer)) :
    Follows le (ask tree₀ question rest₀) (ask tree question rest) := by
  intro s
  unfold Checker.ask
  cases hanswer : question s with
  | ok answer => exact hrest s answer hanswer s
  | error fault => exact Follows.fail htree s

theorem declaring {name : String} {τ : Ty} {fault : Fault TypeError} (htree : le tree₀ tree)
    (hc : Follows le c₀ c) : Follows le (declaring tree₀ name τ fault c₀) (declaring tree name τ fault c) := by
  intro s
  unfold Checker.declaring
  cases s.declare? name (.value τ) with
  | some s => exact hc s
  | none => exact Follows.fail htree s

theorem inScope (hc : Follows le c₀ c) : Follows le (inScope c₀) (inScope c) := by
  intro s
  unfold Checker.inScope
  obtain ⟨l, known, now, hne, hclash⟩ | h := hc s.push
  · refine .inl ⟨l, known, now, hne, ?_⟩
    simp only [hclash]
  · cases ho : (c s.push).outcome with
    | error fault =>
      have ho₀ : (c₀ s.push).outcome = .error fault := h.outcome.symm.trans ho
      simp only [ho, ho₀]
      exact .inr h
    | ok found =>
      have ho₀ : (c₀ s.push).outcome = .ok found := h.outcome.symm.trans ho
      simp only [ho, ho₀]
      exact .inr ⟨rfl, congrArg ScopeChain.close h.scopes, h.types, fun _ _ => h.tree found ho⟩

/-- A type that an expression has is the one that was found, or the check fails. -/
theorem conclude {build : Note → Expr} {n : Note} {τ : Ty} :
    Follows Expr.Extends (conclude build n.untyped τ) (conclude build n τ) := by
  obtain ⟨l, _ | known⟩ := n
  · exact Follows.done (.refl _)
  · simp only [Typing.conclude, Note.untyped]
    split
    · rename_i hknown
      rw [hknown]
      exact Follows.done (.refl _)
    · rename_i hne
      exact fun s => .inl ⟨l, known, τ, hne, rfl⟩

end Follows

end Checker

theorem isVariable_untyped (e : Expr) : isVariable e.untyped = isVariable e := by cases e <;> rfl

mutual

/-- The types that an expression has do not change what its check does, unless one of them is another type than
the check finds. -/
theorem checkExpr_follows (ρ? : Option Ty) :
    ∀ e : Expr, Follows Expr.Extends (checkExpr ρ? e.untyped) (checkExpr ρ? e)
  | .int .. | .bool .. | .unit .. | .control .. => by
    rw [Expr.untyped, checkExpr, checkExpr]
    exact .conclude
  | .name n x => by
    rw [Expr.untyped, checkExpr, checkExpr]
    exact .ask (Expr.untyped_extends (.name n x)) fun _ τ _ => .conclude
  | .leave n => by
    rw [Expr.untyped, checkExpr, checkExpr]
    exact .ask (Expr.untyped_extends (.leave n)) fun _ τ _ => .conclude
  | .unary n op e => by
    rw [Expr.untyped, checkExpr, checkExpr]
    refine .andThen (checkExpr_follows ρ? e) (fun a₀ a ha => .intro nofun (.cons ha .nil)) fun a τ => ?_
    exact .ask (.intro nofun (.cons (.refl a) .nil)) fun _ ρ _ => .conclude
  | .binary n op l lhs rhs => by
    rw [Expr.untyped, checkExpr, checkExpr]
    -- where the first part fails, the second one keeps the types that it has
    refine .andThen (checkExpr_follows ρ? lhs)
      (fun a₀ a ha => .intro nofun (.cons ha (.cons rhs.untyped_extends .nil))) fun a τ => ?_
    refine .andThen (checkExpr_follows ρ? rhs)
      (fun b₀ b hb => .intro nofun (.cons (.refl a) (.cons hb .nil))) fun b υ => ?_
    exact .ask (.intro nofun (Expr.Extends.refl_all [a, b])) fun _ ρ _ => .conclude
  | .assign n l target value => by
    rw [Expr.untyped, checkExpr, checkExpr, isVariable_untyped, Expr.location_untyped]
    split
    · refine .andThen (checkExpr_follows ρ? target)
        (fun a₀ a ha => .intro nofun (.cons ha (.cons value.untyped_extends .nil))) fun a τ => ?_
      refine .andThen (checkExpr_follows ρ? value)
        (fun b₀ b hb => .intro nofun (.cons (.refl a) (.cons hb .nil))) fun b υ => ?_
      split
      · exact .conclude
      · exact .fail (.intro nofun (Expr.Extends.refl_all [a, b]))
    · exact .fail (Expr.untyped_extends (.assign n l target value))
  | .ifThen n c t | .loop n c t => by
    rw [Expr.untyped, checkExpr, checkExpr]
    refine .andThen (checkExpr_follows ρ? c).ensure
      (fun a₀ a ha => .intro nofun (.cons ha (.cons t.untyped_extends .nil))) fun a _ => ?_
    refine .andThen (checkExpr_follows ρ? t)
      (fun b₀ b hb => .intro nofun (.cons (.refl a) (.cons hb .nil))) fun b υ => ?_
    exact .conclude
  | .ifElse n c t e => by
    rw [Expr.untyped, checkExpr, checkExpr]
    refine .andThen (checkExpr_follows ρ? c).ensure
      (fun a₀ a ha => .intro nofun (.cons ha (Expr.allUntyped_extends [t, e]))) fun a _ => ?_
    refine .andThen (checkExpr_follows ρ? t)
      (fun b₀ b hb => .intro nofun (.cons (.refl a) (.cons hb (.cons e.untyped_extends .nil)))) fun b τ => ?_
    refine .andThen (checkExpr_follows ρ? e)
      (fun d₀ d hd => .intro nofun (.cons (.refl a) (.cons (.refl b) (.cons hd .nil)))) fun d υ => ?_
    split
    · exact .conclude
    · exact .fail (.intro nofun (Expr.Extends.refl_all [a, b, d]))
  | .block n es => by
    rw [Expr.untyped, checkExpr, checkExpr]
    refine .andThen (checkStatements_follows ρ? es .unit).inScope
      (fun es₀ es' hes => .intro nofun hes) fun es' τ => ?_
    exact .conclude
  | .declare n x written? e => by
    rw [Expr.untyped, checkExpr, checkExpr]
    refine .andThen (checkExpr_follows ρ? e) (fun a₀ a ha => .intro nofun (.cons ha .nil)) fun a τ => ?_
    refine .ask (.intro nofun (.cons (.refl a) .nil)) fun _ τ _ => ?_
    exact .declaring (.intro nofun (.cons (.refl a) .nil)) .conclude
  | .call n f es => by
    have hlength : (Expr.allUntyped es).length = es.length := by
      rw [Expr.allUntyped_map, List.length_map]
    rw [Expr.untyped, checkExpr, checkExpr, hlength]
    refine .ask (Expr.untyped_extends (.call n f es)) fun s σ hσ => ?_
    have hparameters : es.length = σ.parameters.length := (callSignature_ok (blame_ok hσ)).2.symm
    refine .andThen (checkArguments_follows ρ? es σ.parameters hparameters)
      (fun es₀ es' hes => .intro nofun hes) fun es' _ => ?_
    exact .conclude
  | .leaveWith n e => by
    rw [Expr.untyped, checkExpr, checkExpr]
    split
    · refine .andThen (checkExpr_follows ρ? e) (fun a₀ a ha => .intro nofun (.cons ha .nil)) fun a τ => ?_
      exact .ask (.intro nofun (.cons (.refl a) .nil)) fun _ ρ _ => .conclude
    · exact .fail (Expr.untyped_extends (.leaveWith n e))

theorem checkStatements_follows (ρ? : Option Ty) : ∀ (es : List Expr) (τ₀ : Ty),
    Follows (List.Forall₂ Expr.Extends) (checkStatements ρ? (Expr.allUntyped es) τ₀) (checkStatements ρ? es τ₀)
  | [], _ => by
    rw [Expr.allUntyped, checkStatements]
    exact .done .nil
  | e :: es, _ => by
    rw [Expr.allUntyped, checkStatements, checkStatements]
    refine .andThen (checkExpr_follows ρ? e)
      (fun a₀ a ha => .cons ha (Expr.allUntyped_extends es)) fun a τ => ?_
    exact .map (checkStatements_follows ρ? es τ) fun es₀ es' hes => .cons (.refl a) hes

theorem checkArguments_follows (ρ? : Option Ty) : ∀ (es : List Expr) (τs : List Ty), es.length = τs.length →
    Follows (List.Forall₂ Expr.Extends) (checkArguments ρ? (Expr.allUntyped es) τs) (checkArguments ρ? es τs)
  | [], _, _ => by
    rw [Expr.allUntyped, checkArguments]
    · exact .done .nil
    · simp
  | e :: es, τ :: τs, hlength => by
    rw [Expr.allUntyped, checkArguments, checkArguments]
    refine .andThen (checkExpr_follows ρ? e).ensure
      (fun a₀ a ha => .cons ha (Expr.allUntyped_extends es)) fun a _ => ?_
    exact .map (checkArguments_follows ρ? es τs (Nat.succ.inj hlength)) fun es₀ es' hes => .cons (.refl a) hes

end

/-! ## Checks that are made again -/

namespace Checker

variable {α β γ δ : Type}

/-- Whether a check of the tree that a check left comes out the same. -/
def Repeats (again : α → Checked α γ) (r : Checked α γ) : Prop := again r.tree = r

namespace Repeats

variable {again : α → Checked α γ} {again' : β → Checked β δ} {check : α → Checker α γ} {c : Checker α γ}
  {s : Scopes} {tree : α}

theorem fail {fault : Fault TypeError} (h : again tree = ⟨tree, .error fault, s⟩) :
    Repeats again (fail tree fault s) := h

theorem map {again' : β → Checked β γ} {f : α → β} (hc : Repeats (check · s) (c s))
    (h : ∀ a, again' (f a) = map f (check a) s) : Repeats again' (map f c s) := by
  have hc : check (c s).tree s = c s := hc
  change again' (f (c s).tree) = _
  rw [h, Checker.map, Checker.map, hc]

theorem ensure {demand : α → γ → Except (Fault TypeError) Unit} (hc : Repeats (check · s) (c s)) :
    Repeats (fun a => (check a).ensure demand s) (c.ensure demand s) := by
  have hc : check (c s).tree s = c s := hc
  change (check (c s).tree).ensure demand s = _
  rw [Checker.ensure, Checker.ensure, hc]

theorem inScope (hc : Repeats (check · s.push) (c s.push)) :
    Repeats (fun a => inScope (check a) s) (inScope c s) := by
  have hc : check (c s.push).tree s.push = c s.push := hc
  change Checker.inScope (check (Checker.inScope c s).tree) s = _
  rw [inScope_tree, Checker.inScope, Checker.inScope, hc]

/-- A part that failed fails again. A part that succeeded succeeds again, and then the rest comes out the same. -/
theorem andThen {rebuild : α → β} {rest : α → γ → Checker β δ} (hc : Repeats (check · s) (c s))
    (h : again' (rebuild (c s).tree) = (check (c s).tree).andThen rebuild rest s)
    (hrest : ∀ a found s', c s = ⟨a, .ok found, s'⟩ → check a s = ⟨a, .ok found, s'⟩ →
      Repeats again' (rest a found s')) :
    Repeats again' (c.andThen rebuild rest s) := by
  have hc : check (c s).tree s = c s := hc
  cases ho : (c s).outcome with
  | error fault =>
    have hfails : c.andThen rebuild rest s = ⟨rebuild (c s).tree, .error fault, (c s).scopes⟩ := by
      simp only [Checker.andThen, ho]
    rw [Repeats, hfails, h]
    simp only [Checker.andThen, hc, ho]
  | ok found =>
    have hsucceeds : c s = ⟨(c s).tree, .ok found, (c s).scopes⟩ := by rw [← ho]
    rw [andThen_run ho]
    exact hrest _ _ _ hsucceeds (hc.trans hsucceeds)

theorem ask {question : Scopes → Except (Fault TypeError) δ} {rest : δ → Checker α γ}
    (h : again tree = ask tree question rest s)
    (hrest : ∀ answer, question s = .ok answer → Repeats again (rest answer s)) :
    Repeats again (ask tree question rest s) := by
  cases hq : question s with
  | error fault =>
    have hfails : Checker.ask tree question rest s = ⟨tree, .error fault, s⟩ := by
      simp only [Checker.ask, hq]
      rfl
    rw [Repeats, hfails, h, hfails]
  | ok answer =>
    rw [ask_run hq]
    exact hrest answer hq

theorem declaring {name : String} {τ : Ty} {fault : Fault TypeError}
    (h : again tree = declaring tree name τ fault c s)
    (hrest : ∀ s', s.declare? name (.value τ) = some s' → Repeats again (c s')) :
    Repeats again (declaring tree name τ fault c s) := by
  cases hd : s.declare? name (.value τ) with
  | none =>
    have hfails : Checker.declaring tree name τ fault c s = ⟨tree, .error fault, s⟩ := by
      simp only [Checker.declaring, hd]
      rfl
    rw [Repeats, hfails, h, hfails]
  | some s' =>
    rw [declaring_run hd]
    exact hrest s' hd

/-- The type that is noted is found again. -/
theorem conclude {again : Expr → Checked Expr Ty} {build : Note → Expr} {n : Note} {τ : Ty}
    (h : ∀ n', again (build n') = conclude build n' τ s) : Repeats again (conclude build n τ s) := by
  unfold Typing.conclude
  cases hn : n.ty? with
  | none =>
    refine (h _).trans ?_
    simp [Typing.conclude, Checker.done]
  | some known =>
    dsimp only
    split
    · rename_i hknown
      refine (h n).trans ?_
      simp [Typing.conclude, hn, hknown]
    · rename_i hne
      refine (h n).trans ?_
      simp [Typing.conclude, hn, hne]

end Repeats

end Checker

mutual

/-- A check of the tree that a check in the same scopes has left comes out the same. -/
theorem checkExpr_repeats (ρ? : Option Ty) :
    ∀ (e : Expr) (s : Scopes), Repeats (checkExpr ρ? · s) (checkExpr ρ? e s)
  | .int .., s | .bool .., s | .unit .., s | .control .., s => by
    rw [checkExpr]
    exact .conclude fun n' => by rw [checkExpr]
  | .name n x, s => by
    rw [checkExpr]
    refine .ask (by rw [checkExpr]) fun τ hτ => .conclude fun n' => ?_
    simp only [checkExpr, ask, blame, blame_ok hτ]
  | .leave n, s => by
    rw [checkExpr]
    refine .ask (by rw [checkExpr]) fun τ hτ => .conclude fun n' => ?_
    simp only [checkExpr, ask, blame, blame_ok hτ]
  | .unary n op e, s => by
    rw [checkExpr]
    refine .andThen (checkExpr_repeats ρ? e s) (by rw [checkExpr]) fun a τ s' _ ha => ?_
    refine .ask (by rw [checkExpr, andThen, ha]) fun ρ hρ => .conclude fun n' => ?_
    simp only [checkExpr, andThen, ha, ask, blame, blame_ok hρ]
  | .binary n op l lhs rhs, s => by
    rw [checkExpr]
    refine .andThen (checkExpr_repeats ρ? lhs s) (by rw [checkExpr]) fun a τ s' _ ha => ?_
    refine .andThen (checkExpr_repeats ρ? rhs s') (by rw [checkExpr, andThen, ha]) fun b υ s'' _ hb => ?_
    refine .ask (by simp only [checkExpr, andThen, ha, hb]) fun ρ hρ => .conclude fun n' => ?_
    simp only [checkExpr, andThen, ha, hb, ask, blame, blame_ok hρ]
  | .assign n l target value, s => by
    rw [checkExpr]
    split
    · rename_i hvariable
      -- a variable is still one after its check, so the second check gets past this question
      have hkept : isVariable (checkExpr ρ? target s).tree = true := by
        rw [← isVariable_untyped, checkExpr_untyped, isVariable_untyped, hvariable]
      refine .andThen (checkExpr_repeats ρ? target s) (by rw [checkExpr, if_pos hkept]) fun a τ s' hs ha => ?_
      have ha' : isVariable a = true := by rwa [hs] at hkept
      refine .andThen (checkExpr_repeats ρ? value s') (by rw [checkExpr, if_pos ha', andThen, ha])
        fun b υ s'' _ hb => ?_
      split
      · rename_i hτ
        exact .conclude fun n' => by simp only [checkExpr, if_pos ha', andThen, ha, hb, if_pos hτ]
      · rename_i hτ
        exact .fail (by simp only [checkExpr, if_pos ha', andThen, ha, hb, if_neg hτ]; rfl)
    · rename_i hvariable
      exact .fail (by rw [checkExpr, if_neg hvariable]; rfl)
  | .ifThen n c t, s => by
    rw [checkExpr]
    refine .andThen (.ensure (checkExpr_repeats ρ? c s)) (by rw [checkExpr]) fun a _ s' _ ha => ?_
    refine .andThen (checkExpr_repeats ρ? t s') (by rw [checkExpr, andThen, ha]) fun b υ s'' _ hb => ?_
    exact .conclude fun n' => by simp only [checkExpr, andThen, ha, hb]
  | .loop n c b, s => by
    rw [checkExpr]
    refine .andThen (.ensure (checkExpr_repeats ρ? c s)) (by rw [checkExpr]) fun a _ s' _ ha => ?_
    refine .andThen (checkExpr_repeats ρ? b s') (by rw [checkExpr, andThen, ha]) fun b υ s'' _ hb => ?_
    exact .conclude fun n' => by simp only [checkExpr, andThen, ha, hb]
  | .ifElse n c t e, s => by
    rw [checkExpr]
    refine .andThen (.ensure (checkExpr_repeats ρ? c s)) (by rw [checkExpr]) fun a _ s' _ ha => ?_
    refine .andThen (checkExpr_repeats ρ? t s') (by rw [checkExpr, andThen, ha]) fun b τ s'' _ hb => ?_
    refine .andThen (checkExpr_repeats ρ? e s'') (by simp only [checkExpr, andThen, ha, hb])
      fun d υ s₃ _ hd => ?_
    split
    · rename_i hτ
      exact .conclude fun n' => by simp only [checkExpr, andThen, ha, hb, hd, if_pos hτ]
    · rename_i hτ
      exact .fail (by simp only [checkExpr, andThen, ha, hb, hd, if_neg hτ]; rfl)
  | .block n es, s => by
    rw [checkExpr]
    refine .andThen (.inScope (checkStatements_repeats ρ? es .unit s.push)) (by rw [checkExpr])
      fun a τ s' _ ha => ?_
    exact .conclude fun n' => by simp only [checkExpr, andThen, ha]
  | .declare n x written? e, s => by
    rw [checkExpr]
    refine .andThen (checkExpr_repeats ρ? e s) (by rw [checkExpr]) fun a τ s' _ ha => ?_
    refine .ask (by rw [checkExpr, andThen, ha]) fun υ hυ => ?_
    refine .declaring (by simp only [checkExpr, andThen, ha, ask, blame, blame_ok hυ]) fun s'' hs => ?_
    exact .conclude fun n' => by simp only [checkExpr, andThen, ha, ask, blame, blame_ok hυ, declaring, hs]
  | .call n f es, s => by
    rw [checkExpr]
    refine .ask (by rw [checkExpr]) fun σ hσ => ?_
    -- arguments are counted before they are checked, and a check leaves as many
    have hlength : (checkArguments ρ? es σ.parameters s).tree.length = es.length := by
      have huntyped := congrArg List.length (checkArguments_untyped ρ? es σ.parameters s)
      rwa [Expr.allUntyped_map, Expr.allUntyped_map, List.length_map, List.length_map] at huntyped
    refine .andThen (checkArguments_repeats ρ? es σ.parameters s)
      (by simp only [checkExpr, ask, hlength, hσ]) fun a _ s' hs ha => ?_
    have ha' : a.length = es.length := by rwa [hs] at hlength
    exact .conclude fun n' => by simp only [checkExpr, ask, ha', blame, blame_ok hσ, andThen, ha]
  | .leaveWith n e, s => by
    rw [checkExpr]
    split
    · rename_i hρ?
      refine .andThen (checkExpr_repeats ρ? e s) (by rw [checkExpr, if_pos hρ?]) fun a τ s' _ ha => ?_
      refine .ask (by rw [checkExpr, if_pos hρ?, andThen, ha]) fun ρ hρ => .conclude fun n' => ?_
      simp only [checkExpr, if_pos hρ?, andThen, ha, ask, blame, blame_ok hρ]
    · rename_i hρ?
      exact .fail (by rw [checkExpr, if_neg hρ?]; rfl)

theorem checkStatements_repeats (ρ? : Option Ty) : ∀ (es : List Expr) (τ₀ : Ty) (s : Scopes),
    Repeats (checkStatements ρ? · τ₀ s) (checkStatements ρ? es τ₀ s)
  | [], τ₀, s => by
    rw [checkStatements]
    exact congrFun (checkStatements.eq_1 ρ? τ₀) s
  | e :: es, _, s => by
    rw [checkStatements]
    refine .andThen (checkExpr_repeats ρ? e s) (by rw [checkStatements]) fun a τ s' _ ha => ?_
    exact .map (checkStatements_repeats ρ? es τ s') fun as => by rw [checkStatements, andThen, ha]

theorem checkArguments_repeats (ρ? : Option Ty) : ∀ (es : List Expr) (τs : List Ty) (s : Scopes),
    Repeats (checkArguments ρ? · τs s) (checkArguments ρ? es τs s)
  | [], _, _ => by
    have hnone : ∀ τs, checkArguments ρ? [] τs = done [] () := fun τs => by
      rw [checkArguments]
      simp
    rw [hnone]
    exact congrFun (hnone _) _
  | e :: es, [], s => by
    have hnone : checkArguments ρ? (e :: es) [] = done (e :: es) () := by
      rw [checkArguments]
      simp
    rw [hnone]
    exact congrFun hnone s
  | e :: es, τ :: τs, s => by
    rw [checkArguments]
    refine .andThen (.ensure (checkExpr_repeats ρ? e s)) (by rw [checkArguments]) fun a _ s' _ ha => ?_
    exact .map (checkArguments_repeats ρ? es τs s') fun as => by rw [checkArguments, andThen, ha]

end

end Typing

end Exprc

/-
What lowering makes of an expression that has a type, as rules. `Lowers loop? s e τ f s'` means: in
the loop `loop?`, with what is in scope and used at stage `s`, the expression `e` of type `τ` has
the fragment `f`, and lowering goes on at stage `s'`. There is one rule for each construct, and a
rule holds all that later proofs need of it: the types of the parts, the variables that names stand
for, the code, and the numbers that are given out.
-/
import Exprc.Lowering
import Exprc.Proofs.Typing.Success

namespace Exprc

namespace Lowering

open Syntax IR Typing

/-! ## Stages -/

/-- A parameter or declared variable: its name, the number of the temporary that it owns, and its
type. -/
structure Local where
  name : String
  temp : Nat
  ty : Ty
deriving DecidableEq, Repr

/-- The parameters and variables in scope, by blocks, the innermost block first. -/
abbrev Locals := List (List Local)

namespace Locals

/-- The variable that a name stands for. -/
def find? (Δ : Locals) (name : String) : Option Local := Δ.findSome? (·.find? (·.name == name))

theorem find?_nil (name : String) : find? [] name = none := rfl

theorem find?_cons (frame : List Local) (Δ : Locals) (name : String) :
    find? (frame :: Δ) name = (frame.find? (·.name == name)).or (find? Δ name) := by
  simp only [find?, List.findSome?_cons]
  cases frame.find? (·.name == name) <;> rfl

/-- Adds a variable to the innermost block. -/
def bind (l : Local) : Locals → Locals
  | [] => [[l]]
  | frame :: below => (l :: frame) :: below

end Locals

/-- Where lowering stands inside a function: what is in scope, the variables that belong to declared
names, the temporaries that were given out with the types of what they hold, and the numbers to give
out next. -/
structure Stage where
  locals : Locals
  owned : List Var
  temps : List (Nat × Ty)
  nextTemp : Nat
  nextLabel : Nat

namespace Stage

/-- Uses one temporary, for a value of some type. -/
def withTemp (s : Stage) (τ : Ty) : Stage :=
  { s with temps := (s.nextTemp, τ) :: s.temps, nextTemp := s.nextTemp + 1 }

/-- Uses some labels. -/
def withLabels (s : Stage) (count : Nat) : Stage := { s with nextLabel := s.nextLabel + count }

/-- Opens a block. -/
def enter (s : Stage) : Stage := { s with locals := [] :: s.locals }

/-- Closes the innermost block. -/
def leave (s : Stage) : Stage := { s with locals := s.locals.tail }

/-- Declares a variable, which owns the next temporary. -/
def declare (s : Stage) (name : String) (τ : Ty) : Stage :=
  { s with
    locals := s.locals.bind ⟨name, s.nextTemp, τ⟩
    owned := .temp s.nextTemp :: s.owned
    temps := (s.nextTemp, τ) :: s.temps
    nextTemp := s.nextTemp + 1 }

end Stage

/-- The signature by which a name is called that stands for no variable. -/
def signatureOf? (functions : List FunctionDefinition) (name : String) : Option Signature :=
  match functions.find? (·.name.text == name) with
  | some f => some f.signature
  | none => (Builtin.ofName? name).bind (·.signature?)

/-! ## Rules -/

/-- The fragment that evaluates operands in order and then calls something by its name. -/
def applied (location : Location) (name : String) (operands : List Fragment) (s : Stage) :
    Fragment :=
  ⟨operands.flatMap (·.code)
    ++ emit location [.call (.named name) (operands.map (·.value)) (.temp s.nextTemp)],
    .temp s.nextTemp⟩

/-- The variable that both branches of a conditional write, when the first one has its value in a
given variable: that variable, if it is a temporary that no declared name owns, or else a copy. -/
inductive Merges (location : Location) (τ : Ty) : Stage → Var → Fragment → Stage → Prop
  | reuse {s : Stage} {v : Var} : v.isTemp = true → v ∉ s.owned → Merges location τ s v ⟨[], v⟩ s
  | copy {s : Stage} {v : Var} : ¬(v.isTemp = true ∧ v ∉ s.owned) →
      Merges location τ s v ⟨emit location [.copy v (.temp s.nextTemp)], .temp s.nextTemp⟩
        (s.withTemp τ)

mutual

/-- An expression of some type has a fragment. `sig` gives the signatures of what can be called, and
`ρ?` is the type that the enclosing function returns, if there is an enclosing function. -/
inductive Lowers (sig : String → Option Signature) (ρ? : Option Ty) :
    Option LoopLabels → Stage → Expr → Ty → Fragment → Stage → Prop
  | int {loop? : Option LoopLabels} {s : Stage} {n : Note} {value : Int64} :
      Lowers sig ρ? loop? s (.int n value) .int
        ⟨emit n.location [.loadInt value (.temp s.nextTemp)], .temp s.nextTemp⟩ (s.withTemp .int)
  | bool {loop? : Option LoopLabels} {s : Stage} {n : Note} {value : Bool} :
      Lowers sig ρ? loop? s (.bool n value) .bool
        ⟨emit n.location [.loadBool value (.temp s.nextTemp)], .temp s.nextTemp⟩ (s.withTemp .bool)
  | unit {loop? : Option LoopLabels} {s : Stage} {n : Note} :
      Lowers sig ρ? loop? s (.unit n) .unit ⟨[], .unit⟩ s
  | name {loop? : Option LoopLabels} {s : Stage} {n : Note} {x : String} {l : Local} :
      s.locals.find? x = some l →
      Lowers sig ρ? loop? s (.name n x) l.ty ⟨[], .temp l.temp⟩ s
  | unary {loop? : Option LoopLabels} {s s₁ : Stage} {n : Note} {op : UnaryOp} {e : Expr} {τ υ : Ty}
      {fs : List Fragment} :
      LowersArguments sig ρ? loop? s [e] [τ] fs s₁ →
      operatorResult op.builtin [τ] = .ok υ →
      Lowers sig ρ? loop? s (.unary n op e) υ (applied n.location op.builtin.name fs s₁)
        (s₁.withTemp υ)
  | binary {loop? : Option LoopLabels} {s s₁ : Stage} {n : Note} {op : BinaryOp} {pos : Location}
      {lhs rhs : Expr} {τ₁ τ₂ υ : Ty} {fs : List Fragment} :
      op.isShortCircuit = false →
      LowersArguments sig ρ? loop? s [lhs, rhs] [τ₁, τ₂] fs s₁ →
      operatorResult op.builtin [τ₁, τ₂] = .ok υ →
      Lowers sig ρ? loop? s (.binary n op pos lhs rhs) υ
        (applied n.location op.builtin.name fs s₁) (s₁.withTemp υ)
  | shortCircuit {loop? : Option LoopLabels} {s s₁ s₂ : Stage} {n : Note} {op : BinaryOp}
      {pos : Location} {lhs rhs : Expr} {f g : Fragment} :
      op.isShortCircuit = true →
      Lowers sig ρ? loop? (s.withLabels 3) lhs .bool f s₁ →
      Lowers sig ρ? loop? s₁ rhs .bool g s₂ →
      Lowers sig ρ? loop? s (.binary n op pos lhs rhs) .bool
        ⟨f.code ++ emit n.location
            [if op == .logicalOr then .branch f.value ⟨s.nextLabel + 1⟩ ⟨s.nextLabel⟩
              else .branch f.value ⟨s.nextLabel⟩ ⟨s.nextLabel + 1⟩, .label ⟨s.nextLabel⟩]
          ++ g.code ++ emit n.location
            [.copy g.value (.temp s₂.nextTemp), .jump ⟨s.nextLabel + 2⟩, .label ⟨s.nextLabel + 1⟩,
              .loadBool (op == .logicalOr) (.temp s₂.nextTemp), .jump ⟨s.nextLabel + 2⟩,
              .label ⟨s.nextLabel + 2⟩],
          .temp s₂.nextTemp⟩ (s₂.withTemp .bool)
  | assign {loop? : Option LoopLabels} {s s₁ : Stage} {n n' : Note} {pos : Location} {x : String}
      {value : Expr} {l : Local} {f : Fragment} :
      s.locals.find? x = some l →
      Lowers sig ρ? loop? s value l.ty f s₁ →
      Lowers sig ρ? loop? s (.assign n pos (.name n' x) value) l.ty
        ⟨f.code ++ emit n'.location [.copy f.value (.temp l.temp)], f.value⟩ s₁
  | ifThen {loop? : Option LoopLabels} {s s₁ s₂ : Stage} {n : Note} {c t : Expr} {τ : Ty}
      {f g : Fragment} :
      Lowers sig ρ? loop? (s.withLabels 2) c .bool f s₁ →
      Lowers sig ρ? loop? s₁ t τ g s₂ →
      Lowers sig ρ? loop? s (.ifThen n c t) .unit
        ⟨f.code ++ emit n.location
            [.branch f.value ⟨s.nextLabel⟩ ⟨s.nextLabel + 1⟩, .label ⟨s.nextLabel⟩]
          ++ g.code ++ emit n.location [.label ⟨s.nextLabel + 1⟩], .unit⟩ s₂
  | ifElseUnit {loop? : Option LoopLabels} {s s₁ s₂ s₃ : Stage} {n : Note} {c t e : Expr}
      {f g h : Fragment} :
      n.ty? = some .unit →
      Lowers sig ρ? loop? (s.withLabels 3) c .bool f s₁ →
      Lowers sig ρ? loop? s₁ t .unit g s₂ →
      Lowers sig ρ? loop? s₂ e .unit h s₃ →
      Lowers sig ρ? loop? s (.ifElse n c t e) .unit
        ⟨f.code ++ emit n.location
            [.branch f.value ⟨s.nextLabel⟩ ⟨s.nextLabel + 1⟩, .label ⟨s.nextLabel⟩]
          ++ g.code ++ emit n.location [.jump ⟨s.nextLabel + 2⟩, .label ⟨s.nextLabel + 1⟩]
          ++ h.code ++ emit n.location [.label ⟨s.nextLabel + 2⟩], .unit⟩ s₃
  | ifElse {loop? : Option LoopLabels} {s s₁ s₂ s₃ s₄ : Stage} {n : Note} {c t e : Expr} {τ : Ty}
      {f g m h : Fragment} :
      n.ty? = some τ → τ ≠ .unit →
      Lowers sig ρ? loop? (s.withLabels 3) c .bool f s₁ →
      Lowers sig ρ? loop? s₁ t τ g s₂ →
      Merges n.location τ s₂ g.value m s₃ →
      Lowers sig ρ? loop? s₃ e τ h s₄ →
      Lowers sig ρ? loop? s (.ifElse n c t e) τ
        ⟨f.code ++ emit n.location
            [.branch f.value ⟨s.nextLabel⟩ ⟨s.nextLabel + 1⟩, .label ⟨s.nextLabel⟩]
          ++ g.code ++ m.code
          ++ emit n.location [.jump ⟨s.nextLabel + 2⟩, .label ⟨s.nextLabel + 1⟩]
          ++ h.code ++ emit n.location [.copy h.value m.value, .label ⟨s.nextLabel + 2⟩],
          m.value⟩ s₄
  | loop {loop? : Option LoopLabels} {s s₁ s₂ : Stage} {n : Note} {c b : Expr} {τ : Ty}
      {f g : Fragment} :
      Lowers sig ρ? loop? (s.withLabels 3) c .bool f s₁ →
      Lowers sig ρ? (some ⟨⟨s.nextLabel⟩, ⟨s.nextLabel + 2⟩⟩) s₁ b τ g s₂ →
      Lowers sig ρ? loop? s (.loop n c b) .unit
        ⟨emit n.location [.label ⟨s.nextLabel⟩] ++ f.code
          ++ emit n.location
            [.branch f.value ⟨s.nextLabel + 1⟩ ⟨s.nextLabel + 2⟩, .label ⟨s.nextLabel + 1⟩]
          ++ g.code ++ emit n.location [.jump ⟨s.nextLabel⟩, .label ⟨s.nextLabel + 2⟩],
          .unit⟩ s₂
  | block {loop? : Option LoopLabels} {s s₁ : Stage} {n : Note} {es : List Expr} {τ : Ty}
      {f : Fragment} :
      LowersStatements sig ρ? loop? s.enter es .unit .unit τ f s₁ →
      Lowers sig ρ? loop? s (.block n es) τ f s₁.leave
  | declare {loop? : Option LoopLabels} {s s₁ : Stage} {n : Note} {x : Name}
      {written? : Option WrittenType} {e : Expr} {τ : Ty} {f : Fragment} :
      Lowers sig ρ? loop? s e τ f s₁ →
      Lowers sig ρ? loop? s (.declare n x written? e) .unit
        ⟨f.code ++ emit n.location [.copy f.value (.temp s₁.nextTemp)], .unit⟩
        (s₁.declare x.text τ)
  | call {loop? : Option LoopLabels} {s s₁ : Stage} {n : Note} {callee : String} {es : List Expr}
      {σ : Signature} {fs : List Fragment} :
      s.locals.find? callee = none → sig callee = some σ →
      LowersArguments sig ρ? loop? s es σ.parameters fs s₁ →
      Lowers sig ρ? loop? s (.call n callee es) σ.result (applied n.location callee fs s₁)
        (s₁.withTemp σ.result)
  | control {labels : LoopLabels} {s : Stage} {n : Note} {c : LoopControl} :
      Lowers sig ρ? (some labels) s (.control n c) .unit
        ⟨emit n.location [.jump (labels.target c)], .unit⟩ s
  | leave {loop? : Option LoopLabels} {s : Stage} {n : Note} :
      ρ? = some .unit →
      Lowers sig ρ? loop? s (.leave n) .unit ⟨emit n.location [.leave .unit], .unit⟩ s
  | leaveWith {loop? : Option LoopLabels} {s s₁ : Stage} {n : Note} {e : Expr} {ρ : Ty}
      {f : Fragment} :
      ρ? = some ρ →
      Lowers sig ρ? loop? s e ρ f s₁ →
      Lowers sig ρ? loop? s (.leaveWith n e) ρ
        ⟨f.code ++ emit n.location [.leave f.value], .unit⟩ s₁

/-- Statements in order have a fragment. Their type and value are those of the last one, or the given
ones if there are none. -/
inductive LowersStatements (sig : String → Option Signature) (ρ? : Option Ty) :
    Option LoopLabels → Stage → List Expr → Ty → Var → Ty → Fragment → Stage → Prop
  | nil {loop? : Option LoopLabels} {s : Stage} {τ : Ty} {last : Var} :
      LowersStatements sig ρ? loop? s [] τ last τ ⟨[], last⟩ s
  | cons {loop? : Option LoopLabels} {s s₁ s₂ : Stage} {e : Expr} {es : List Expr} {τ₀ τ υ : Ty}
      {last : Var} {f g : Fragment} :
      Lowers sig ρ? loop? s e τ f s₁ →
      LowersStatements sig ρ? loop? s₁ es τ f.value υ g s₂ →
      LowersStatements sig ρ? loop? s (e :: es) τ₀ last υ ⟨f.code ++ g.code, g.value⟩ s₂

/-- Arguments of some types have fragments. -/
inductive LowersArguments (sig : String → Option Signature) (ρ? : Option Ty) :
    Option LoopLabels → Stage → List Expr → List Ty → List Fragment → Stage → Prop
  | nil {loop? : Option LoopLabels} {s : Stage} : LowersArguments sig ρ? loop? s [] [] [] s
  | cons {loop? : Option LoopLabels} {s s₁ s₂ : Stage} {e : Expr} {es : List Expr} {τ : Ty}
      {τs : List Ty} {f : Fragment} {fs : List Fragment} :
      Lowers sig ρ? loop? s e τ f s₁ →
      LowersArguments sig ρ? loop? s₁ es τs fs s₂ →
      LowersArguments sig ρ? loop? s (e :: es) (τ :: τs) (f :: fs) s₂

end

/-! ## How stages go on -/

/-- A stage with nothing amiss: some block is open, the temporaries of the variables in scope differ,
belong to declared names and have the types of their variables, and no temporary is still to be given
out that already is in use. -/
structure Stage.WF (s : Stage) : Prop where
  isOpen : s.locals ≠ []
  owned_lt : ∀ v ∈ s.owned, ∃ n < s.nextTemp, v = .temp n
  temps_lt : ∀ p ∈ s.temps, p.1 < s.nextTemp
  temps_nodup : (s.temps.map (·.1)).Nodup
  locals_owned : ∀ frame ∈ s.locals, ∀ l ∈ frame, .temp l.temp ∈ s.owned
  locals_typed : ∀ frame ∈ s.locals, ∀ l ∈ frame, (l.temp, l.ty) ∈ s.temps
  nodup : (s.locals.flatten.map (·.temp)).Nodup

/-- A stage that comes later in the same block. Numbers only grow, and what was declared in between
is in the innermost block and owns temporaries given out in between. -/
structure Stage.Extends (s s' : Stage) : Prop where
  temp_le : s.nextTemp ≤ s'.nextTemp
  label_le : s.nextLabel ≤ s'.nextLabel
  owned : ∃ new, s'.owned = new ++ s.owned ∧
    ∀ v ∈ new, ∃ n, s.nextTemp ≤ n ∧ n < s'.nextTemp ∧ v = .temp n
  temps : s.temps <:+ s'.temps
  locals : ∀ frame below, s.locals = frame :: below → ∃ new, s'.locals = (new ++ frame) :: below

namespace Stage.Extends

theorem refl (s : Stage) : s.Extends s :=
  ⟨Nat.le_refl _, Nat.le_refl _, ⟨[], rfl, nofun⟩, List.suffix_refl _, fun _ _ h => ⟨[], h⟩⟩

theorem trans {s₁ s₂ s₃ : Stage} (h : s₁.Extends s₂) (h' : s₂.Extends s₃) : s₁.Extends s₃ := by
  obtain ⟨new, hnew, hn⟩ := h.owned
  obtain ⟨new', hnew', hn'⟩ := h'.owned
  refine ⟨Nat.le_trans h.temp_le h'.temp_le, Nat.le_trans h.label_le h'.label_le, ?_,
    h.temps.trans h'.temps, ?_⟩
  · refine ⟨new' ++ new, by rw [hnew', hnew, List.append_assoc], fun v hv => ?_⟩
    have h1 := h.temp_le
    have h2 := h'.temp_le
    rcases List.mem_append.1 hv with hv | hv
    · obtain ⟨n, _, _, rfl⟩ := hn' v hv; exact ⟨n, by omega, by omega, rfl⟩
    · obtain ⟨n, _, _, rfl⟩ := hn v hv; exact ⟨n, by omega, by omega, rfl⟩
  · intro frame below hs
    obtain ⟨l, hl⟩ := h.locals frame below hs
    obtain ⟨l', hl'⟩ := h'.locals _ _ hl
    exact ⟨l' ++ l, by rw [hl', List.append_assoc]⟩

theorem withTemp (s : Stage) (τ : Ty) : s.Extends (s.withTemp τ) :=
  ⟨Nat.le_succ _, Nat.le_refl _, ⟨[], rfl, nofun⟩, List.suffix_cons _ _, fun _ _ h => ⟨[], h⟩⟩

theorem withLabels (s : Stage) (count : Nat) : s.Extends (s.withLabels count) :=
  ⟨Nat.le_refl _, Nat.le_add_right _ _, ⟨[], rfl, nofun⟩, List.suffix_refl _,
    fun _ _ h => ⟨[], h⟩⟩

theorem declare (s : Stage) (name : String) (τ : Ty) : s.Extends (s.declare name τ) := by
  refine ⟨Nat.le_succ _, Nat.le_refl _, ⟨[.temp s.nextTemp], rfl, fun v hv => ?_⟩,
    List.suffix_cons _ _, ?_⟩
  · obtain rfl := List.mem_singleton.1 hv
    exact ⟨s.nextTemp, Nat.le_refl _, Nat.lt_succ_self _, rfl⟩
  · intro frame below hs
    exact ⟨[⟨name, s.nextTemp, τ⟩], by simp [Stage.declare, hs, Locals.bind]⟩

/-- The blocks around the innermost one stay as they are. -/
theorem tail {s s' : Stage} (h : s.Extends s') (hs : s.locals ≠ []) :
    s'.locals.tail = s.locals.tail := by
  obtain ⟨frame, below, hl⟩ := List.exists_cons_of_ne_nil hs
  obtain ⟨new, hl'⟩ := h.locals frame below hl
  rw [hl, hl']; rfl

/-- What happens in a block of its own leaves the variables in scope as they were. -/
theorem leave {s s' : Stage} (h : s.enter.Extends s') :
    s'.leave.locals = s.locals ∧ s.Extends s'.leave := by
  obtain ⟨new, hl⟩ := h.locals [] s.locals rfl
  have hs : s'.leave.locals = s.locals := by simp [Stage.leave, hl]
  exact ⟨hs, h.temp_le, h.label_le, h.owned, h.temps, fun frame below hf => ⟨[], by rw [hs, hf]; rfl⟩⟩

end Stage.Extends

theorem Merges.extends {location : Location} {τ : Ty} {s s' : Stage} {v : Var} {f : Fragment}
    (h : Merges location τ s v f s') : s.Extends s' := by
  cases h with
  | reuse => exact .refl s
  | copy => exact .withTemp s τ

theorem Merges.locals_eq {location : Location} {τ : Ty} {s s' : Stage} {v : Var} {f : Fragment}
    (h : Merges location τ s v f s') : s'.locals = s.locals := by
  cases h <;> rfl

mutual

/-- Lowering only goes on. -/
theorem Lowers.extends {sig : String → Option Signature} {ρ? : Option Ty} :
    ∀ {loop? : Option LoopLabels} {s s' : Stage} {e : Expr} {τ : Ty} {f : Fragment},
      Lowers sig ρ? loop? s e τ f s' → s.Extends s'
  | _, s, _, _, _, _, .int | _, s, _, _, _, _, .bool => .withTemp s _
  | _, s, _, _, _, _, .unit | _, s, _, _, _, _, .name _ | _, s, _, _, _, _, .control
  | _, s, _, _, _, _, .leave _ => .refl s
  | _, _, _, _, _, _, .unary h _ | _, _, _, _, _, _, .binary _ h _
  | _, _, _, _, _, _, .call _ _ h => h.extends.trans (.withTemp _ _)
  | _, s, _, _, _, _, .shortCircuit _ h₁ h₂ =>
    (((Stage.Extends.withLabels s 3).trans h₁.extends).trans h₂.extends).trans (.withTemp _ _)
  | _, _, _, _, _, _, .assign _ h | _, _, _, _, _, _, .leaveWith _ h => h.extends
  | _, s, _, _, _, _, .ifThen h₁ h₂ =>
    ((Stage.Extends.withLabels s 2).trans h₁.extends).trans h₂.extends
  | _, s, _, _, _, _, .ifElseUnit _ h₁ h₂ h₃ =>
    (((Stage.Extends.withLabels s 3).trans h₁.extends).trans h₂.extends).trans h₃.extends
  | _, s, _, _, _, _, .ifElse _ _ h₁ h₂ hm h₃ =>
    ((((Stage.Extends.withLabels s 3).trans h₁.extends).trans h₂.extends).trans hm.extends).trans
      h₃.extends
  | _, s, _, _, _, _, .loop h₁ h₂ =>
    ((Stage.Extends.withLabels s 3).trans h₁.extends).trans h₂.extends
  | _, _, _, _, _, _, .block h => h.extends.leave.2
  | _, _, _, _, _, _, .declare h => h.extends.trans (.declare _ _ _)

theorem LowersStatements.extends {sig : String → Option Signature} {ρ? : Option Ty} :
    ∀ {loop? : Option LoopLabels} {s s' : Stage} {es : List Expr} {τ₀ : Ty} {last : Var} {τ : Ty}
      {f : Fragment}, LowersStatements sig ρ? loop? s es τ₀ last τ f s' → s.Extends s'
  | _, s, _, _, _, _, _, _, .nil => .refl s
  | _, _, _, _, _, _, _, _, .cons h hs => h.extends.trans hs.extends

theorem LowersArguments.extends {sig : String → Option Signature} {ρ? : Option Ty} :
    ∀ {loop? : Option LoopLabels} {s s' : Stage} {es : List Expr} {τs : List Ty}
      {fs : List Fragment}, LowersArguments sig ρ? loop? s es τs fs s' → s.Extends s'
  | _, s, _, _, _, _, .nil => .refl s
  | _, _, _, _, _, _, .cons h hs => h.extends.trans hs.extends

end

/-! ## Stages stay well-formed -/

namespace Stage.WF

variable {s s' : Stage}

theorem temps_nodup_cons (h : s.WF) (τ : Ty) :
    (((s.nextTemp, τ) :: s.temps).map (·.1)).Nodup := by
  rw [List.map_cons, List.nodup_cons]
  refine ⟨fun hm => ?_, h.temps_nodup⟩
  obtain ⟨p, hp, he⟩ := List.mem_map.1 hm
  exact absurd (h.temps_lt p hp) (by omega)

theorem withTemp (h : s.WF) (τ : Ty) : (s.withTemp τ).WF where
  isOpen := h.isOpen
  owned_lt v hv := by
    obtain ⟨n, hn, rfl⟩ := h.owned_lt v hv
    exact ⟨n, Nat.lt_succ_of_lt hn, rfl⟩
  temps_lt := List.forall_mem_cons.2
    ⟨Nat.lt_succ_self _, fun p hp => Nat.lt_succ_of_lt (h.temps_lt p hp)⟩
  temps_nodup := h.temps_nodup_cons τ
  locals_owned := h.locals_owned
  locals_typed frame hf l hl := List.mem_cons_of_mem _ (h.locals_typed frame hf l hl)
  nodup := h.nodup

theorem withLabels (h : s.WF) (count : Nat) : (s.withLabels count).WF :=
  ⟨h.isOpen, h.owned_lt, h.temps_lt, h.temps_nodup, h.locals_owned, h.locals_typed, h.nodup⟩

theorem enter (h : s.WF) : s.enter.WF where
  isOpen := List.cons_ne_nil _ _
  owned_lt := h.owned_lt
  temps_lt := h.temps_lt
  temps_nodup := h.temps_nodup
  locals_owned := List.forall_mem_cons.2 ⟨nofun, h.locals_owned⟩
  locals_typed := List.forall_mem_cons.2 ⟨nofun, h.locals_typed⟩
  nodup := by simpa [Stage.enter] using h.nodup

theorem leave (h : s.WF) (h' : s'.WF) (he : s.enter.Extends s') : s'.leave.WF := by
  obtain ⟨hl, hx⟩ := he.leave
  obtain ⟨new, hnew, -⟩ := hx.owned
  refine ⟨by rw [hl]; exact h.isOpen, h'.owned_lt, h'.temps_lt, h'.temps_nodup, ?_, ?_,
    by rw [hl]; exact h.nodup⟩
  · rw [hl, hnew]
    exact fun frame hf l hm => List.mem_append_right _ (h.locals_owned frame hf l hm)
  · rw [hl]
    exact fun frame hf l hm => he.temps.subset (h.locals_typed frame hf l hm)

/-- The temporary of a variable in scope is not given out again. -/
theorem temp_lt (h : s.WF) {frame : List Local} (hf : frame ∈ s.locals) {l : Local}
    (hl : l ∈ frame) : l.temp < s.nextTemp := by
  obtain ⟨n, hn, he⟩ := h.owned_lt _ (h.locals_owned frame hf l hl)
  cases he; exact hn

theorem declare (h : s.WF) (name : String) (τ : Ty) : (s.declare name τ).WF := by
  obtain ⟨frame, below, hs⟩ := List.exists_cons_of_ne_nil h.isOpen
  have hd : (s.declare name τ).locals = (⟨name, s.nextTemp, τ⟩ :: frame) :: below := by
    simp [Stage.declare, hs, Locals.bind]
  refine ⟨by simp [hd], fun v hv => ?_, List.forall_mem_cons.2
    ⟨Nat.lt_succ_self _, fun p hp => Nat.lt_succ_of_lt (h.temps_lt p hp)⟩, h.temps_nodup_cons τ,
    ?_, ?_, ?_⟩
  · rcases List.mem_cons.1 hv with rfl | hv
    · exact ⟨s.nextTemp, Nat.lt_succ_self _, rfl⟩
    · obtain ⟨n, hn, rfl⟩ := h.owned_lt v hv
      exact ⟨n, Nat.lt_succ_of_lt hn, rfl⟩
  · have ho := h.locals_owned
    rw [hs, List.forall_mem_cons] at ho
    rw [hd, List.forall_mem_cons, List.forall_mem_cons]
    exact ⟨⟨List.mem_cons_self, fun l hl => List.mem_cons_of_mem _ (ho.1 l hl)⟩,
      fun fr hfr l hl => List.mem_cons_of_mem _ (ho.2 fr hfr l hl)⟩
  · have ho := h.locals_typed
    rw [hs, List.forall_mem_cons] at ho
    rw [hd, List.forall_mem_cons, List.forall_mem_cons]
    exact ⟨⟨List.mem_cons_self, fun l hl => List.mem_cons_of_mem _ (ho.1 l hl)⟩,
      fun fr hfr l hl => List.mem_cons_of_mem _ (ho.2 fr hfr l hl)⟩
  · have hn := h.nodup
    rw [hd]
    rw [hs] at hn
    simp only [List.flatten_cons, List.cons_append, List.map_cons, List.nodup_cons] at hn ⊢
    refine ⟨fun hm => ?_, hn⟩
    obtain ⟨l, hl, he⟩ := List.mem_map.1 hm
    obtain ⟨fr, hfr, hl⟩ : ∃ fr ∈ s.locals, l ∈ fr := by
      rw [hs]
      exact List.mem_flatten.1 (by rwa [List.flatten_cons])
    exact absurd (h.temp_lt hfr hl) (by omega)

end Stage.WF

theorem Merges.wf {location : Location} {τ : Ty} {s s' : Stage} {v : Var} {f : Fragment}
    (h : Merges location τ s v f s') (hs : s.WF) : s'.WF := by
  cases h with
  | reuse => exact hs
  | copy => exact hs.withTemp τ

mutual

theorem Lowers.wf {sig : String → Option Signature} {ρ? : Option Ty} :
    ∀ {loop? : Option LoopLabels} {s s' : Stage} {e : Expr} {τ : Ty} {f : Fragment},
      Lowers sig ρ? loop? s e τ f s' → s.WF → s'.WF
  | _, _, _, _, _, _, .int, hs | _, _, _, _, _, _, .bool, hs => hs.withTemp _
  | _, _, _, _, _, _, .unit, hs | _, _, _, _, _, _, .name _, hs | _, _, _, _, _, _, .control, hs
  | _, _, _, _, _, _, .leave _, hs => hs
  | _, _, _, _, _, _, .unary h _, hs | _, _, _, _, _, _, .binary _ h _, hs
  | _, _, _, _, _, _, .call _ _ h, hs => (h.wf hs).withTemp _
  | _, _, _, _, _, _, .shortCircuit _ h₁ h₂, hs => (h₂.wf (h₁.wf (hs.withLabels 3))).withTemp _
  | _, _, _, _, _, _, .assign _ h, hs | _, _, _, _, _, _, .leaveWith _ h, hs => h.wf hs
  | _, _, _, _, _, _, .ifThen h₁ h₂, hs => h₂.wf (h₁.wf (hs.withLabels 2))
  | _, _, _, _, _, _, .ifElseUnit _ h₁ h₂ h₃, hs => h₃.wf (h₂.wf (h₁.wf (hs.withLabels 3)))
  | _, _, _, _, _, _, .ifElse _ _ h₁ h₂ hm h₃, hs =>
    h₃.wf (hm.wf (h₂.wf (h₁.wf (hs.withLabels 3))))
  | _, _, _, _, _, _, .loop h₁ h₂, hs => h₂.wf (h₁.wf (hs.withLabels 3))
  | _, _, _, _, _, _, .block h, hs => hs.leave (h.wf hs.enter) h.extends
  | _, _, _, _, _, _, .declare h, hs => (h.wf hs).declare _ _

theorem LowersStatements.wf {sig : String → Option Signature} {ρ? : Option Ty} :
    ∀ {loop? : Option LoopLabels} {s s' : Stage} {es : List Expr} {τ₀ : Ty} {last : Var} {τ : Ty}
      {f : Fragment}, LowersStatements sig ρ? loop? s es τ₀ last τ f s' → s.WF → s'.WF
  | _, _, _, _, _, _, _, _, .nil, hs => hs
  | _, _, _, _, _, _, _, _, .cons h hes, hs => hes.wf (h.wf hs)

theorem LowersArguments.wf {sig : String → Option Signature} {ρ? : Option Ty} :
    ∀ {loop? : Option LoopLabels} {s s' : Stage} {es : List Expr} {τs : List Ty}
      {fs : List Fragment}, LowersArguments sig ρ? loop? s es τs fs s' → s.WF → s'.WF
  | _, _, _, _, _, _, .nil, hs => hs
  | _, _, _, _, _, _, .cons h hes, hs => hes.wf (h.wf hs)

end

end Lowering

end Exprc

/-
The calls of built-in functions that a run makes, in order: the operators that it applies and what it
prints and reads. With the arguments and the result of each call they tell all that the outside sees of a
run.
-/
import Exprc.IR.Machine
import Mathlib

namespace Exprc.IR

/-- A call of a built-in function that gave a result. -/
structure Call where
  callee : Builtin
  arguments : List Value
  result : Value
deriving DecidableEq, Repr

/-- The built-in function that the next step calls, if it does call one, and the arguments. -/
def State.applies? (m : Module) (s : State) : Option (Builtin × List Value) :=
  match s.active.rest with
  | ⟨_, .call (.named name) arguments _⟩ :: _ =>
    match m.function? name, Builtin.ofName? name with
    | none, some b => (arguments.mapM s.active.frame.read?).map (b, ·)
    | _, _ => none
  | _ => none

/-- The call of a built-in function that the next step makes, if it makes one and it gives a result. -/
def State.call? (m : Module) (sink : Sink) (s : State) : Option Call :=
  (s.applies? m).bind fun (b, values) =>
    match (s.world.callBuiltin sink b values).1 with
    | .ok result => some ⟨b, values, result⟩
    | .error _ => none

/-- The calls of built-in functions that a machine makes in some number of steps. -/
def Progress.calls (m : Module) (sink : Sink) : Nat → Progress → List Call
  | _, .ended _ | 0, .running _ => []
  | steps + 1, .running s => (s.call? m sink).toList ++ (s.step m sink).calls m sink steps

/-- The calls of built-in functions that a run on some input makes in some number of steps. -/
def Module.calls (m : Module) (sink : Sink) (input : List UInt8) (steps : Nat) : List Call :=
  (m.start input).calls m sink steps

/-! ## The next step -/

theorem mapM_eq_some {α β : Type} {g : α → Option β} {as : List α} {bs : List β} :
    as.mapM g = some bs ↔ List.Forall₂ (fun a b => g a = some b) as bs := by
  induction as generalizing bs with
  | nil => exact ⟨fun h => by cases h; exact .nil, fun h => by cases h; rfl⟩
  | cons a as ih =>
    rw [List.mapM_cons]
    constructor
    · intro h
      obtain ⟨b, hb, h⟩ := Option.bind_eq_some_iff.1 h
      obtain ⟨bs', hbs, h⟩ := Option.bind_eq_some_iff.1 h
      cases h
      exact .cons hb (ih.1 hbs)
    · rintro (_ | ⟨ha, has⟩)
      rw [ha, ih.2 has]
      rfl

section

variable {m : Module} {sink : Sink} {s : State} {i : Instruction} {rest : List Instruction} {name : String}
  {arguments : List Var} {target : Var} {values : List Value}

/-- Only a call calls. -/
theorem State.call?_eq_none (h : ∀ i rest, s.active.rest = i :: rest → ∀ callee arguments target,
    i.op ≠ .call callee arguments target) : s.call? m sink = none := by
  have happlies : s.applies? m = none := by
    unfold applies?
    split
    · rename_i hrest
      exact absurd rfl (h _ _ hrest _ _ _)
    · rfl
  rw [call?, happlies]
  rfl

/-- A call of a function of the module calls no built-in function. -/
theorem State.call?_of_function (hrest : s.active.rest = i :: rest)
    (hop : i.op = .call (.named name) arguments target) {f : Function} (hf : m.function? name = some f) :
    s.call? m sink = none := by
  obtain ⟨location, op⟩ := i
  cases hop
  have happlies : s.applies? m = none := by
    simp only [applies?, hrest, hf]
  rw [call?, happlies]
  rfl

/-- A call of a built-in function. -/
theorem State.applies?_of_builtin (hrest : s.active.rest = i :: rest)
    (hop : i.op = .call (.named name) arguments target) (hf : m.function? name = none) {b : Builtin}
    (hb : Builtin.ofName? name = some b)
    (hvalues : List.Forall₂ (fun v x => s.active.frame.read? v = some x) arguments values) :
    s.applies? m = some (b, values) := by
  have hread := mapM_eq_some.2 hvalues
  obtain ⟨location, op⟩ := i
  cases hop
  simp only [applies?, hrest, hf, hb, hread, Option.map_some]

/-- What calls a built-in function. -/
theorem State.exists_of_applies? {b : Builtin} (h : s.applies? m = some (b, values)) :
    ∃ location name arguments target rest,
      s.active.rest = ⟨location, .call (.named name) arguments target⟩ :: rest ∧ m.function? name = none ∧
      Builtin.ofName? name = some b ∧ arguments.mapM s.active.frame.read? = some values := by
  unfold applies? at h
  split at h
  · rename_i location name arguments target rest hrest
    split at h
    · rename_i b' hf hb
      obtain ⟨values', hvalues, he⟩ := Option.map_eq_some_iff.1 h
      cases he
      exact ⟨location, name, arguments, target, rest, hrest, hf, hb, hvalues⟩
    · cases h
  · cases h

theorem State.call?_of_builtin {b : Builtin} (h : s.applies? m = some (b, values)) {result : Value}
    {world : World} (hcall : s.world.callBuiltin sink b values = (.ok result, world)) :
    s.call? m sink = some ⟨b, values, result⟩ := by
  simp only [call?, h, Option.bind_some, hcall]

end

end Exprc.IR

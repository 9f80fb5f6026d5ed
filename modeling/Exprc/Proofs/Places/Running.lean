/-
Runs without places. A machine on code without places is in lockstep with the machine on the code: after each
step they hold the same, without places (`State.step_unplaced`), so both runs end alike and on the same world
(`Module.run?_unplaced`).
-/
import Exprc.IR.Machine
import Exprc.Proofs.Places.Erasure

namespace Exprc.IR

/-! ## Machines -/

/-- An activation without places. -/
def Activation.unplaced (a : Activation) : Activation :=
  ⟨a.function.unplaced, a.rest.map (·.unplaced), a.frame⟩

/-- A waiting function without places. -/
def Waiting.unplaced (w : Waiting) : Waiting := ⟨w.caller.unplaced, w.target⟩

/-- A machine at work without places. -/
def State.unplaced (s : State) : State := ⟨s.active.unplaced, s.waiting.map (·.unplaced), s.world⟩

/-- The end of a run without the place of its fault. -/
def Ending.unplaced (e : Ending) : Ending := ⟨e.outcome.mapError Fault.unplaced, e.world⟩

/-- A machine without places. -/
def Progress.unplaced : Progress → Progress
  | running s => running s.unplaced
  | ended e => ended e.unplaced

/-! ## Steps -/

theorem codeBehind?_unplaced (l : Label) : ∀ code : List Instruction,
    codeBehind? l (code.map (·.unplaced)) = (codeBehind? l code).map (·.map (·.unplaced))
  | [] => rfl
  | i :: code => by
    rw [List.map_cons, codeBehind?, codeBehind?, codeBehind?_unplaced l code]
    cases codeBehind? l code with
    | some rest => rfl
    | none =>
      change (if i.op = .label l then _ else _) = Option.map _ (if i.op = .label l then _ else _)
      split <;> rfl

theorem Module.function?_unplaced (m : Module) (name : String) :
    m.unplaced.function? name = (m.function? name).map (·.unplaced) := by
  rw [function?, unplaced, List.find?_map]
  rfl

theorem Module.entry?_unplaced (m : Module) : m.unplaced.entry? = m.entry?.map (·.unplaced) := by
  rw [Module.entry?, unplaced, List.find?_map]
  rfl

theorem activate_unplaced (f : Function) (arguments : List Value) (l : Location) (depth : Nat) :
    activate f.unplaced arguments .nowhere depth =
      ((activate f arguments l depth).map (·.unplaced)).mapError Fault.unplaced := by
  unfold activate
  change (if maxDepth ≤ depth then _ else if arguments.length ≠ f.parameters.length then _ else _) = _
  split
  · rfl
  · split <;> rfl

namespace State

variable {α : Type} (s : State)

theorem andThen_unplaced {r r' : Except (Fault RuntimeError) α} {next next' : α → Progress}
    (h : r' = r.mapError Fault.unplaced) (hnext : ∀ a, next' a = (next a).unplaced) :
    s.unplaced.andThen r' next' = (s.andThen r next).unplaced := by
  subst h
  cases r with
  | ok a => exact hnext a
  | error fault => rfl

theorem read_unplaced (l : Location) (v : Var) :
    s.unplaced.read .nowhere v = (s.read l v).mapError Fault.unplaced := by
  change s.active.frame.read .nowhere v = (s.active.frame.read l v).mapError Fault.unplaced
  unfold Frame.read
  cases s.active.frame.read? v <;> rfl

theorem readAll_unplaced (l : Location) : ∀ vs : List Var,
    vs.mapM (s.unplaced.read .nowhere) = (vs.mapM (s.read l)).mapError Fault.unplaced
  | [] => rfl
  | v :: vs => by
    rw [List.mapM_cons, List.mapM_cons, read_unplaced s l v, readAll_unplaced l vs]
    cases s.read l v with
    | error fault => rfl
    | ok value => cases vs.mapM (s.read l) <;> rfl

theorem goto_unplaced (l : Location) (target : Label) :
    s.unplaced.goto .nowhere target = (s.goto l target).unplaced := by
  unfold goto
  have hcode : s.unplaced.active.function.code = s.active.function.code.map (·.unplaced) := rfl
  rw [hcode, codeBehind?_unplaced]
  cases codeBehind? target s.active.function.code <;> rfl

theorem leave_unplaced (sink : Sink) (value : Value) :
    s.unplaced.leave sink value = (s.leave sink value).unplaced := by
  obtain ⟨active, _ | ⟨w, waiting⟩, world⟩ := s
  · simp only [leave, unplaced, List.map_nil]
    cases sink.flushFailure? world.output <;> rfl
  · rfl

theorem call_unplaced (m : Module) (sink : Sink) (l : Location) (callee : Var) (arguments : List Value)
    (target : Var) :
    s.unplaced.call m.unplaced sink .nowhere callee arguments target =
      (s.call m sink l callee arguments target).unplaced := by
  cases callee with
  | temp | unit => rfl
  | named name =>
    simp only [call, m.function?_unplaced]
    cases m.function? name with
    | some f =>
      have hdepth : s.unplaced.waiting.length = s.waiting.length := List.length_map _
      simp only [Option.map_some, hdepth, activate_unplaced f arguments l]
      cases activate f arguments l (s.waiting.length + 1) <;> rfl
    | none =>
      cases Builtin.ofName? name with
      | none => rfl
      | some b =>
        simp only [Option.map_none, unplaced]
        cases (s.world.callBuiltin sink b arguments).1 <;> rfl

theorem execute_unplaced (m : Module) (sink : Sink) (i : Instruction) :
    execute m.unplaced sink s.unplaced i.unplaced = (execute m sink s i).unplaced := by
  obtain ⟨l, op⟩ := i
  cases op with
  | loadInt | loadBool | label => rfl
  | copy source target => exact s.andThen_unplaced (s.read_unplaced l source) fun _ => rfl
  | call callee arguments target =>
    exact s.andThen_unplaced (s.readAll_unplaced l arguments) fun values =>
      s.call_unplaced m sink l callee values target
  | jump target => exact s.goto_unplaced l target
  | branch condition ifTrue ifFalse =>
    refine s.andThen_unplaced (s.read_unplaced l condition) fun value => ?_
    match value with
    | .bool true => exact s.goto_unplaced l ifTrue
    | .bool false => exact s.goto_unplaced l ifFalse
    | .int _ | .unit => rfl
  | leave v => exact s.andThen_unplaced (s.read_unplaced l v) (s.leave_unplaced sink)

/-- Machines that are the same without places are so after a step. -/
theorem step_unplaced (m : Module) (sink : Sink) :
    s.unplaced.step m.unplaced sink = (s.step m sink).unplaced := by
  obtain ⟨⟨f, _ | ⟨i, rest⟩, frame⟩, waiting, world⟩ := s
  · exact andThen_unplaced _ (read_unplaced _ .nowhere f.result) (leave_unplaced _ sink)
  · exact execute_unplaced ⟨⟨f, rest, frame⟩, waiting, world⟩ m sink i

end State

/-! ## Runs -/

theorem Module.start_unplaced (m : Module) (input : List UInt8) :
    m.unplaced.start input = (m.start input).unplaced := by
  unfold start
  rw [m.entry?_unplaced]
  cases m.entry? with
  | none => rfl
  | some f =>
    simp only [Option.map_some, activate_unplaced f [] .nowhere 0]
    cases activate f [] .nowhere 0 <;> rfl

theorem Progress.endWithin?_unplaced (m : Module) (sink : Sink) : ∀ (steps : Nat) (p : Progress),
    p.unplaced.endWithin? m.unplaced sink steps = (p.endWithin? m sink steps).map (·.unplaced)
  | 0, .ended e | _ + 1, .ended e => rfl
  | 0, .running s => rfl
  | steps + 1, .running s => by
    change (s.unplaced.step m.unplaced sink).endWithin? m.unplaced sink steps = _
    rw [s.step_unplaced m sink]
    exact endWithin?_unplaced m sink steps (s.step m sink)

/-- A run of a program without places ends as the run of the program does, and on the same world. -/
theorem Module.run?_unplaced (m : Module) (sink : Sink) (input : List UInt8) (steps : Nat) :
    m.unplaced.run? sink input steps = (m.run? sink input steps).map (·.unplaced) := by
  rw [run?, m.start_unplaced]
  exact Progress.endWithin?_unplaced m sink steps (m.start input)

end Exprc.IR

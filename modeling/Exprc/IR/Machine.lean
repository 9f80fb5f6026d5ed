/-
Running the intermediate representation. A machine executes one instruction in each step. It holds
the active function, the functions that wait for it to return, and the world outside. A function
that is being executed is what is left of its code and the values of its variables; a jump looks
its label up in the whole code of the function.
-/
import Exprc.IR.World

namespace Exprc.IR

/-! ## Frames -/

/-- The values of the variables of a function that is being executed. -/
abbrev Frame := List (Var × Value)

namespace Frame

/-- The value of a variable. The unit variable always has one. -/
def read? (frame : Frame) (v : Var) : Option Value :=
  if v = .unit then some .unit else frame.lookup v

/-- Gives a variable a value. -/
def write (v : Var) (value : Value) : Frame → Frame
  | [] => [(v, value)]
  | (w, old) :: rest => if w = v then (v, value) :: rest else (w, old) :: write v value rest

/-- The frame in which parameters have the values of arguments. -/
def ofArguments (parameters : List Var) (arguments : List Value) : Frame :=
  (parameters.zip arguments).foldl (fun frame (v, value) => frame.write v value) []

/-- The value of a variable that an instruction needs. -/
def read (frame : Frame) (location : Location) (v : Var) : Except (Fault RuntimeError) Value :=
  match frame.read? v with
  | some value => .ok value
  | none => .error (.at location (.unassigned v))

end Frame

/-! ## Jumps -/

/-- The code behind a label. If a label stands in several places, the last one counts. -/
def codeBehind? (l : Label) : List Instruction → Option (List Instruction)
  | [] => none
  | i :: rest =>
    match codeBehind? l rest with
    | some code => some code
    | none => if i.op = .label l then some rest else none

/-! ## The machine -/

/-- A function that is being executed. -/
structure Activation where
  function : Function
  rest : List Instruction
  frame : Frame

/-- A function that waits for the result of a call. -/
structure Waiting where
  caller : Activation
  target : Var

/-- A machine at work. -/
structure State where
  active : Activation
  waiting : List Waiting
  world : World

/-- How a run ends. -/
structure Ending where
  outcome : Except (Fault RuntimeError) Value
  world : World

/-- A machine at work or at its end. -/
inductive Progress where
  | running (s : State)
  | ended (e : Ending)

/-- The most functions that can be under execution at once. -/
def maxDepth : Nat := 1000

/-- Begins the execution of a function below `depth` others. -/
def activate (f : Function) (arguments : List Value) (location : Location) (depth : Nat) :
    Except (Fault RuntimeError) Activation :=
  if maxDepth ≤ depth then .error (.at location (.stackOverflow f.name))
  else if arguments.length ≠ f.parameters.length then
    .error (.at location (.wrongCount f.name f.parameters.length arguments.length))
  else .ok ⟨f, f.code, .ofArguments f.parameters arguments⟩

namespace State

/-- Goes on with a result, or ends with its fault. -/
def andThen {α : Type} (s : State) (r : Except (Fault RuntimeError) α) (next : α → Progress) :
    Progress :=
  match r with
  | .ok a => next a
  | .error fault => .ended ⟨.error fault, s.world⟩

/-- The value of a variable of the active function. -/
def read (s : State) (location : Location) (v : Var) : Except (Fault RuntimeError) Value :=
  s.active.frame.read location v

/-- Gives a variable of the active function a value. -/
def write (s : State) (v : Var) (value : Value) : State :=
  { s with active := { s.active with frame := s.active.frame.write v value } }

/-- Goes on behind a label. -/
def goto (s : State) (location : Location) (l : Label) : Progress :=
  match codeBehind? l s.active.function.code with
  | some rest => .running { s with active := { s.active with rest } }
  | none => .ended ⟨.error (.at location (.undefinedLabel l)), s.world⟩

/-- Returns a value from the active function. When no function waits for it the run ends, and what
was printed is flushed. -/
def leave (sink : Sink) (s : State) (value : Value) : Progress :=
  match s.waiting with
  | w :: waiting => .running (write { s with active := w.caller, waiting } w.target value)
  | [] =>
    match sink.flushFailure? s.world.output with
    | some reason => .ended ⟨.error (.unlocated (.flushFailed reason)), s.world⟩
    | none => .ended ⟨.ok value, s.world⟩

/-- Calls what a variable names: a function of the module, or else a built-in function. -/
def call (m : Module) (sink : Sink) (s : State) (location : Location) (callee : Var)
    (arguments : List Value) (target : Var) : Progress :=
  match callee with
  | .named name =>
    match m.function? name, Builtin.ofName? name with
    | some f, _ =>
      s.andThen (activate f arguments location (s.waiting.length + 1)) fun activation =>
        .running { s with active := activation, waiting := ⟨s.active, target⟩ :: s.waiting }
    | none, some b =>
      let (result, world) := s.world.callBuiltin sink b arguments
      match result with
      | .ok value => .running (write { s with world } target value)
      | .error cause => .ended ⟨.error (.at location cause), world⟩
    | none, none => .ended ⟨.error (.at location (.unknownFunction name)), s.world⟩
  | callee => .ended ⟨.error (.at location (.notFunction callee)), s.world⟩

/-- Executes one instruction, which the machine has already passed. -/
def execute (m : Module) (sink : Sink) (s : State) (i : Instruction) : Progress :=
  match i.op with
  | .loadInt n target => .running (s.write target (.int n))
  | .loadBool b target => .running (s.write target (.bool b))
  | .copy source target =>
    s.andThen (s.read i.location source) fun value => .running (s.write target value)
  | .call callee arguments target =>
    s.andThen (arguments.mapM (s.read i.location)) fun values =>
      s.call m sink i.location callee values target
  | .label _ => .running s
  | .jump l => s.goto i.location l
  | .branch condition ifTrue ifFalse =>
    s.andThen (s.read i.location condition) fun
      | .bool true => s.goto i.location ifTrue
      | .bool false => s.goto i.location ifFalse
      | value => .ended ⟨.error (.at i.location (.notBool condition value)), s.world⟩
  | .leave value => s.andThen (s.read i.location value) (s.leave sink)

/-- One step: the next instruction, or at the end of the code the return of the result. -/
def step (m : Module) (sink : Sink) (s : State) : Progress :=
  match s.active.rest with
  | [] => s.andThen (s.read .nowhere s.active.function.result) (s.leave sink)
  | i :: rest => execute m sink { s with active := { s.active with rest } } i

end State

/-! ## Runs -/

/-- A machine before its first step. -/
def Module.start (m : Module) (input : List UInt8) : Progress :=
  let world : World := { input }
  match m.entry? with
  | none => .ended ⟨.error (.unlocated .noEntryPoint), world⟩
  | some f =>
    match activate f [] .nowhere 0 with
    | .ok activation => .running ⟨activation, [], world⟩
    | .error fault => .ended ⟨.error fault, world⟩

/-- The end that a machine reaches in at most the given number of steps. -/
def Progress.endWithin? (m : Module) (sink : Sink) : Nat → Progress → Option Ending
  | _, .ended e => some e
  | 0, .running _ => none
  | steps + 1, .running s => (s.step m sink).endWithin? m sink steps

/-- How a run on some input ends, if it does so in at most the given number of steps. -/
def Module.run? (m : Module) (sink : Sink) (input : List UInt8) (steps : Nat) : Option Ending :=
  (m.start input).endWithin? m sink steps

end Exprc.IR

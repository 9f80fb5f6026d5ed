/-
Programs from assembly texts, and how they run. A text is a list of instructions with names for places
among them; a name that begins with a dot belongs to the last other name above it. A program runs together
with routines from elsewhere, of which only this much is known: they print and read what they should, and
keep `rbp`, `rsp` and the memory that their caller uses.
-/
import Exprc.Assembly.Instr
import Exprc.Proofs.Assembly.Cpu
import Exprc.Proofs.IR.Calls

namespace Exprc.Assembly

open IR

/-! ## Places -/

/-- What a symbol stands for: a name of the whole text, or a name inside of what such a name stands for. -/
structure Place where
  outer : String
  inner? : Option String
deriving DecidableEq, Repr

/-- The place that a symbol stands for below the name `scope`. -/
def Symbol.place (scope : String) : Symbol → Place
  | plain name | function name => ⟨name, none⟩
  | inner name => ⟨scope, some name⟩

/-- The name to which inner names belong below a line. -/
def Line.scope (above : String) : Line → String
  | label (.plain name) | label (.function name) => name
  | _ => above

/-- The number of instructions in a line. -/
def Line.size : Line → Nat
  | instr .. => 1
  | _ => 0

/-- The instructions of a text, each with the name to which inner names belong there. -/
def instructionsOf (scope : String) : List Line → List (String × Instr)
  | [] => []
  | .instr i _ :: lines => (scope, i) :: instructionsOf scope lines
  | l :: lines => instructionsOf (l.scope scope) lines

/-- The places that a text names, each with the number of instructions above it. -/
def placesOf (scope : String) (above : Nat) : List Line → List (Place × Nat)
  | [] => []
  | .label s :: lines => (s.place scope, above) :: placesOf ((Line.label s).scope scope) above lines
  | l :: lines => placesOf scope (above + l.size) lines

/-- The names from other texts that a text uses. -/
def importsOf (lines : List Line) : List String :=
  lines.filterMap fun
    | .imported (.plain name) => some name
    | _ => none

/-! ## Programs -/

/-- The symbol to which an instruction passes control. -/
def Instr.target? : Instr → Option Symbol
  | call s | jump s | jumpIf _ s => some s
  | _ => none

/-- The places that a text with some places and imports can refer to. -/
def referents (places : List (Place × Nat)) (imports : List String) : List Place :=
  places.map (·.1) ++ imports.map fun name => ⟨name, none⟩

/-- A program. No two of its places have one name, and none has the name of something from another text.
Each symbol to which an instruction passes control stands for a place or for something from another
text. -/
structure Program where
  instructions : List (String × Instr)
  places : List (Place × Nat)
  imports : List String
  distinct : (referents places imports).Nodup
  known : ∀ i ∈ instructions, ∀ s ∈ i.2.target?, s.place i.1 ∈ referents places imports

/-- The program of a text. -/
def assemble? (lines : List Line) : Option Program :=
  if h : (referents (placesOf "" 0 lines) (importsOf lines)).Nodup ∧
      ∀ i ∈ instructionsOf "" lines, ∀ s ∈ i.2.target?,
        s.place i.1 ∈ referents (placesOf "" 0 lines) (importsOf lines) then
    some ⟨instructionsOf "" lines, placesOf "" 0 lines, importsOf lines, h.1, h.2⟩
  else none

namespace Program

/-- The number of the instruction at a place. -/
def find? (p : Program) (place : Place) : Option Nat := p.places.lookup place

end Program

/-! ## Surroundings -/

/-- The arguments with which a routine is called. -/
def Cpu.arguments (c : Cpu) : Builtin → List Value
  | .printInt => [.int (.ofBitVec (c.reg .rdi))]
  | .printBool => [.bool (c.reg .rdi != 0)]
  | _ => []

/-- What a program runs with: where its output goes, where its instructions are in memory, and how the
routines leave the processor. A routine may use registers and the memory below the stack as it likes. -/
structure Surroundings where
  sink : Sink
  address : Nat → Word
  names : Names
  /-- The processor after a call of a routine, when some calls were made before. -/
  after : (earlier : List Call) → Call → Cpu → Cpu
  rbp : ∀ earlier call c, (after earlier call c).reg .rbp = c.reg .rbp
  rsp : ∀ earlier call c, (after earlier call c).reg .rsp = c.reg .rsp
  memory : ∀ earlier call c a, (c.reg .rsp).toNat ≤ a → (after earlier call c).memory a = c.memory a
  result : ∀ earlier call c n, call.result = .int n → (after earlier call c).reg .rax = n.toBitVec

/-! ## Runs -/

/-- A program at work. -/
structure Process where
  cpu : Cpu
  next : Nat
  world : World
  calls : List Call

/-- How a program ends: with a status, after some calls of routines. -/
structure Exit where
  status : Nat
  world : World
  calls : List Call

/-- What comes of a step: a program is at work, at its end, or stuck. -/
inductive Outcome where
  | running (s : Process)
  | exited (e : Exit)
  | stuck

namespace Process

variable (p : Program) (env : Surroundings)

/-- Goes on at a place. -/
def goto (s : Process) (place : Place) : Outcome :=
  match p.find? place with
  | some next => .running { s with next }
  | none => .stuck

/-- Calls a routine. -/
def callRoutine (s : Process) (b : Builtin) : Outcome :=
  let arguments := s.cpu.arguments b
  match s.world.callBuiltin env.sink b arguments with
  | (.ok result, world) =>
    let call : Call := ⟨b, arguments, result⟩
    .running ⟨env.after s.calls call s.cpu, s.next + 1, world, s.calls ++ [call]⟩
  | (.error _, _) => .stuck

/-- Calls what stands at a place, or a routine. -/
def call (s : Process) (place : Place) : Outcome :=
  match p.find? place with
  | some next => .running { s with cpu := s.cpu.push (env.address (s.next + 1)), next }
  | none =>
    match Builtin.ofName? place.outer with
    | some b => if place.outer ∈ p.imports ∧ place.inner? = none then s.callRoutine env b else .stuck
    | none => .stuck

/-- Returns to the instruction whose address is on the stack. -/
def ret (s : Process) : Outcome :=
  match (List.range p.instructions.length).find? fun n => env.address n = s.cpu.pop.1 with
  | some next => .running { s with cpu := s.cpu.pop.2, next }
  | none => .stuck

/-- Ends the program, if that is what the system is called for. -/
def syscall (s : Process) : Outcome :=
  if s.cpu.reg .rax = 60 then .exited ⟨(s.cpu.reg .rdi).toNat % 256, s.world, s.calls⟩ else .stuck

/-- One step: the next instruction. -/
def step (s : Process) : Outcome :=
  match p.instructions[s.next]? with
  | none => .stuck
  | some (scope, i) =>
    match i with
    | .jump target => s.goto p (target.place scope)
    | .jumpIf cond target =>
      match s.cpu.flags.holds? cond with
      | some true => s.goto p (target.place scope)
      | some false => .running { s with next := s.next + 1 }
      | none => .stuck
    | .call target => s.call p env (target.place scope)
    | .plain .ret => s.ret p env
    | .plain .syscall => s.syscall
    | i =>
      match s.cpu.exec env.names i with
      | some cpu => .running { s with cpu, next := s.next + 1 }
      | none => .stuck

end Process

/-- The end that a program reaches in at most the given number of steps. -/
def Outcome.exitWithin? (p : Program) (env : Surroundings) : Nat → Outcome → Option Exit
  | _, .exited e => some e
  | _, .stuck | 0, .running _ => none
  | steps + 1, .running s => (s.step p env).exitWithin? p env steps

/-- How a run ends that starts at `_start`, if it does so in at most the given number of steps. -/
def Program.run? (p : Program) (env : Surroundings) (cpu : Cpu) (input : List UInt8) (steps : Nat) :
    Option Exit :=
  ((⟨cpu, 0, { input }, []⟩ : Process).goto p ⟨"_start", none⟩).exitWithin? p env steps

end Exprc.Assembly

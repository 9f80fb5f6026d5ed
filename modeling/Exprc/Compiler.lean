/-
The compiler as a whole. A source text goes through the stages in order: it is parsed, checked,
lowered, and then either run or made into assembly and built. Each stage that succeeds leaves a
report; the first one that fails ends the work with a diagnostic.
-/
import Exprc.Assembly.Codegen
import Exprc.IR.Machine
import Exprc.Lowering
import Exprc.Syntax.Parser
import Exprc.Toolchain
import Exprc.Typing.Checker

namespace Exprc.Compiler

open Text Typing

/-! ## Reports -/

/-- What a stage has achieved. -/
inductive Report where
  | parsed (functions : Nat)
  | checked (τ : Ty)
  | lowered (instructions : Nat)
  | generated (lines : Nat)
  | interpreted (value : IR.Value)
  | built (path : String)
deriving DecidableEq, Repr

namespace Report

/-- The name of the stage. -/
def stage : Report → String
  | parsed _ => "parse"
  | checked _ => "type check"
  | lowered _ => "lower"
  | generated _ => "codegen"
  | interpreted _ => "interpret"
  | built _ => "build"

/-- What the stage has achieved, in words. -/
def detail : Report → String
  | parsed functions => toString functions ++ " function(s)"
  | checked τ => "top level is " ++ τ.text
  | lowered instructions => toString instructions ++ " instruction(s)"
  | generated lines => toString lines ++ " line(s) of assembly"
  | interpreted value => "result is " ++ value.text
  | built path => "wrote " ++ path

/-- A report as a terminal shows it. -/
def styled (r : Report) : Styled :=
  [inked .boldGreen "done", raw (" " ++ r.stage ++ " (" ++ r.detail ++ ")")]

end Report

/-! ## Stages -/

/-- Work that leaves reports and may fail. -/
abbrev Work := ExceptT Diagnostic (StateM (List Report))

/-- Leaves a report. -/
def report (r : Report) : Work Unit := modify (· ++ [r])

/-- What a stage gives. -/
def stage {ε α : Type} [Cause ε] (result : Except (Fault ε) α) : Work α :=
  match result with
  | .ok a => return a
  | .error fault => throw fault.diagnostic

/-- Parses and checks a source text. -/
def check (source : Source) : Work Syntax.Module := do
  let m ← ExceptT.mk (return Syntax.Parser.module.readSource source)
  report (.parsed m.functions.length)
  let checked := checkModule m
  let τ ← stage checked.outcome
  report (.checked τ)
  return checked.tree

/-- Parses, checks and lowers a source text. -/
def lower (source : Source) : Work IR.Module := do
  let m ← stage (Exprc.lower (← check source))
  report (.lowered m.size)
  return m

/-- Makes assembly from a source text. -/
def generate (options : Assembly.Options) (source : Source) : Work String := do
  let text := Assembly.render (← stage (Assembly.generate options (← lower source)))
  report (.generated (linesOf text.toList).length)
  return text

/-- Makes an executable file from a source text. -/
def build (options : Assembly.Options) (host : Toolchain.Host) (source : Source)
    (output : String) : Work Unit := do
  stage (Toolchain.build host (← generate options source) output)
  report (.built output)

/-! ## Runs -/

/-- How the attempt to run a source text ends. -/
structure Execution where
  outcome : Except Diagnostic IR.Value
  world : IR.World
  reports : List Report

/-- Runs a source text on some input, if the run takes at most the given number of steps. A text
that cannot be lowered is not run. -/
def interpret? (source : Source) (sink : IR.Sink) (input : List UInt8) (steps : Nat) :
    Option Execution :=
  match (lower source).run [] with
  | (.error d, reports) => some ⟨.error d, { input }, reports⟩
  | (.ok m, reports) =>
    (m.run? sink input steps).map fun ending =>
      match ending.outcome with
      | .ok value => ⟨.ok value, ending.world, reports ++ [.interpreted value]⟩
      | .error fault => ⟨.error fault.diagnostic, ending.world, reports⟩

end Exprc.Compiler

/-
From assembly to an executable file. The work is left to two tools, an assembler and a linker; a
`Host` says what happens when files are written and tools are run, and `build` runs the tools in
order until one fails.
-/
import Exprc.Assembly.Routines
import Exprc.Diagnostic
import Exprc.Text.Blank

namespace Exprc.Toolchain

/-! ## Commands -/

/-- A program to run and its arguments. -/
structure Command where
  program : String
  arguments : List String
deriving DecidableEq, Repr

/-- All words of a command. -/
def Command.words (c : Command) : List String := c.program :: c.arguments

/-- The command that assembles a text. -/
def assembleCommand (input output : String) : Command :=
  ⟨"nasm", ["-f", "elf64", "-o", output, input]⟩

/-- The command that links objects. -/
def linkCommand (inputs : List String) (output : String) : Command :=
  ⟨"gcc", ["-nostdlib", "-static", "-no-pie", "-o", output] ++ inputs⟩

/-! ## Failures -/

/-- The tools. -/
inductive Tool where
  | assembler | linker
deriving DecidableEq, Repr

/-- The word for a tool. -/
def Tool.name : Tool → String
  | assembler => "assembler"
  | linker => "linker"

/-- Why no executable is built. -/
inductive BuildError where
  | noDirectory (reason : String)
  | notWritten (path reason : String)
  | notStarted (tool : Tool) (program reason : String)
  /-- The tool ran and failed, with a status and messages of its own. -/
  | failed (tool : Tool) (program status messages : String)
deriving DecidableEq, Repr

/-- The text of a failure. -/
def BuildError.message : BuildError → String
  | noDirectory reason => "failed to create build directory: " ++ reason
  | notWritten path reason => "failed to write `" ++ path ++ "`: " ++ reason
  | notStarted tool program reason =>
    "failed to run " ++ tool.name ++ " `" ++ program ++ "`: " ++ reason
  | failed tool program status messages =>
    tool.name ++ " `" ++ program ++ "` failed (" ++ status ++ "):\n" ++ messages

instance : Cause BuildError := ⟨fun _ => .build, BuildError.message⟩

/-! ## Building -/

/-- How the run of a tool ends. -/
inductive ToolResult where
  | notStarted (reason : String)
  | succeeded
  | failed (status messages : String)
deriving DecidableEq, Repr

/-- The machine on which executables are built: a directory for the files in between, for each file
why it cannot be written, if so, and how each tool ends. -/
structure Host where
  directory : Except String String
  writeFailure? : (path contents : String) → Option String
  run : Command → ToolResult

/-- A machine on which none of the tools is installed. -/
def Host.bare : Host where
  directory := .ok "build"
  writeFailure? _ _ := none
  run _ := .notStarted "No such file or directory (os error 2)"

/-- Writes a file. -/
def Host.write (h : Host) (path contents : String) : Except (Fault BuildError) Unit :=
  match h.writeFailure? path contents with
  | some reason => .error (.unlocated (.notWritten path reason))
  | none => .ok ()

/-- Runs a tool. -/
def Host.runTool (h : Host) (tool : Tool) (c : Command) : Except (Fault BuildError) Unit :=
  match h.run c with
  | .succeeded => .ok ()
  | .notStarted reason => .error (.unlocated (.notStarted tool c.program reason))
  | .failed status messages =>
    let messages := String.ofList (Text.trimEnd messages.toList)
    .error (.unlocated (.failed tool c.program status messages))

/-- Builds an executable from an assembly text and the support routines. -/
def build (h : Host) (assembly output : String) : Except (Fault BuildError) Unit := do
  let directory ← h.directory.mapError fun reason => .unlocated (.noDirectory reason)
  let path (name : String) := directory ++ "/" ++ name
  h.write (path "program.s") assembly
  h.write (path "runtime.s") (Assembly.render Assembly.Routines.all)
  h.runTool .assembler (assembleCommand (path "program.s") (path "program.o"))
  h.runTool .assembler (assembleCommand (path "runtime.s") (path "runtime.o"))
  h.runTool .linker (linkCommand [path "program.o", path "runtime.o"] output)

end Exprc.Toolchain

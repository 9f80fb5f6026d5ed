/-
What a command line answers: an exit code, a text for standard output and messages for standard
error. The answer is a function of the command line and of the surroundings it runs in.
-/
import Exprc.CommandLine.Arguments
import Exprc.Compiler
import Exprc.IR.Text
import Exprc.Text.ControlSequence
import Exprc.Text.Utf8

namespace Exprc.CommandLine

open Text

/-! ## Surroundings and answers -/

/-- What a command line can reach. -/
structure Surroundings where
  /-- The bytes on standard input. -/
  stdin : List UInt8 := []
  /-- The bytes of a file, if it exists. -/
  file? : String → Option (List UInt8) := fun _ => none
  host : Toolchain.Host := .bare

/-- Why a source text cannot be had. -/
inductive SourceError where
  | missing (path : String)
  | notText (path? : Option String)
deriving DecidableEq, Repr

/-- The text of a failure. -/
def SourceError.message : SourceError → String
  | missing path => "Source file '" ++ path ++ "' does not exist!"
  | notText (some path) => "Failed to read '" ++ path ++ "': stream did not contain valid UTF-8"
  | notText none => "Failed to read stdin: stream did not contain valid UTF-8"

/-- A message. -/
inductive Message where
  /-- How the program is to be used, perhaps because there is no source text to work on. -/
  | usage (reason? : Option SourceError)
  | text (s : Styled)
deriving DecidableEq, Repr

/-- What a command line answers. -/
structure Response where
  succeeds : Bool
  output : String := ""
  messages : List Message := []
deriving DecidableEq, Repr

/-- The answer to a request for the version. -/
def versionText : String := "minic 0.1.0\n"

/-- How the program is to be used. -/
def usage : Styled :=
  [inked .boldGreen "Usage:", raw (" minic [OPTIONS] <COMMAND>\n\n"
    ++ "Commands: interpret [SOURCE], ir [SOURCE], asm [SOURCE], compile [SOURCE] [-o OUTPUT]\n"
    ++ "Options: --verbose, --emit-debug-info, --version")]

/-- A message in styles. -/
def Message.styled : Message → Styled
  | usage none => CommandLine.usage
  | usage (some e) =>
    [inked .boldRed "error:", raw (" " ++ e.message ++ "\n\n")] ++ CommandLine.usage
  | text s => s

/-- A message on a stream that is no terminal. How to use the program is always written in styles,
which are then taken out together with all other control sequences. -/
def Message.onStream : Message → String
  | usage reason? => forStream (usage reason?).styled.coloured
  | text s => s.plain

/-! ## Sources -/

/-- The source text to work on. -/
def Surroundings.source (s : Surroundings) (path? : Option String) : Except SourceError Source :=
  match path? with
  | some path =>
    match s.file? path with
    | none => .error (.missing path)
    | some bytes =>
      match decodeUtf8? bytes with
      | none => .error (.notText path)
      | some contents => .ok ⟨contents, .file path⟩
  | none =>
    match decodeUtf8? s.stdin with
    | none => .error (.notText none)
    | some contents => .ok ⟨contents, .stdin⟩

/-- The input of a program that is run: nothing, if standard input held the program itself. -/
def Surroundings.programInput (s : Surroundings) (path? : Option String) : List UInt8 :=
  if path?.isSome then s.stdin else []

/-! ## Answers -/

/-- The answer when some work on a source has ended. -/
def respond (i : Invocation) (source : Source) (output : String)
    (reports : List Compiler.Report) (failure? : Option Diagnostic) : Response :=
  let shown := if i.verbose then reports.map fun r => Message.text r.styled else []
  match failure? with
  | none => { succeeds := true, output, messages := shown }
  | some d => { succeeds := false, output, messages := shown ++ [.text (d.render source)] }

/-- The answer to an invocation that works on a source. -/
def work (i : Invocation) (source : Source) (w : Compiler.Work String) : Response :=
  match w.run [] with
  | (.ok output, reports) => respond i source output reports none
  | (.error d, reports) => respond i source "" reports (some d)

/-- The answer to an invocation, if the program that it runs takes at most the given number of
steps. -/
def Invocation.answer? (i : Invocation) (s : Surroundings) (colours : Bool) (steps : Nat) :
    Option Response :=
  match s.source i.source? with
  | .error e =>
    some { succeeds := false, messages := [.usage (some e)] }
  | .ok source =>
    let options : Assembly.Options := { debugInfo := i.debugInfo, colours }
    match i.command with
    | .interpret =>
      (Compiler.interpret? source {} (s.programInput i.source?) steps).map fun e =>
        match e.outcome with
        | .ok _ => respond i source e.world.output e.reports none
        | .error d => respond i source e.world.output e.reports (some d)
    | .ir => some (work i source (return (← Compiler.lower source).styled.render colours))
    | .asm => some (work i source (Compiler.generate options source))
    | .compile output => some (work i source do
        Compiler.build options s.host source output
        return "")

/-- The answer to a command line. -/
def answer? (s : Surroundings) (colours : Bool) (steps : Nat) (words : List String) :
    Option Response :=
  match request? {} words with
  | none => some { succeeds := false, messages := [.usage none] }
  | some .version => some { succeeds := true, output := versionText }
  | some (.invocation i) => i.answer? s colours steps

end Exprc.CommandLine

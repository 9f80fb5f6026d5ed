/-
The words of a command line. In front stand options for every command, then the name of a command,
then its own words: options, and at most one source. Words are read from left to right, and the
first one that makes no sense ends the reading; so does a request for the version.
-/
namespace Exprc.CommandLine

/-! ## What can be asked for -/

/-- The commands. -/
inductive Command where
  | interpret
  | ir
  | asm
  /-- Builds the executable file `output`. -/
  | compile (output : String)
deriving DecidableEq, Repr

/-- A command to carry out. Without a source the program is read from standard input. -/
structure Invocation where
  command : Command
  source? : Option String
  verbose : Bool
  debugInfo : Bool
deriving DecidableEq, Repr

/-- What a command line asks for. -/
inductive Request where
  | version
  | invocation (i : Invocation)
deriving DecidableEq, Repr

/-- The executable that is built when no other is named. -/
def defaultOutput : String := "a.out"

/-! ## Options -/

/-- The options that every command has. Each may be given once in front of the name of the command
and once behind it. -/
structure Flags where
  verbose : Bool := false
  debugInfo : Bool := false
deriving DecidableEq, Repr

/-- Sets the option that a word names, unless it is set already. -/
def Flags.set? (f : Flags) (word : String) : Option Flags :=
  if word = "--verbose" ∧ !f.verbose then some { f with verbose := true }
  else if word = "--emit-debug-info" ∧ !f.debugInfo then some { f with debugInfo := true }
  else none

/-- Whether a word is an option, or several in one word, rather than a name. A single dash is a
name. -/
def isOption (word : String) : Bool :=
  match word.toList with
  | ['-'] => false
  | '-' :: _ => true
  | _ => false

/-- What follows some beginning of a word. -/
def behind? (start word : String) : Option String :=
  if start.toList.isPrefixOf word.toList then some (String.ofList (word.toList.drop start.length))
  else none

/-- The value that a word gives to the output option: `--output=x`, `-o=x` or `-ox`. -/
def attachedOutput? (word : String) : Option String :=
  match behind? "--output=" word, behind? "-o=" word, behind? "-o" word with
  | some value, _, _ => some value
  | none, some value, _ => some value
  | none, none, value? => value?

/-! ## The words of a command -/

/-- What has been read of the words of a command. -/
structure Progress where
  flags : Flags := {}
  source? : Option String := none
  output? : Option String := none
deriving DecidableEq, Repr

/-- Takes a source. There is at most one, and its name is not empty. -/
def Progress.addSource? (p : Progress) (word : String) : Option Progress :=
  if p.source?.isNone ∧ word ≠ "" then some { p with source? := some word } else none

/-- Takes the name of the executable. There is at most one, and it is not empty. -/
def Progress.addOutput? (p : Progress) (word : String) : Option Progress :=
  if p.output?.isNone ∧ word ≠ "" then some { p with output? := some word } else none

/-- Reads the words of a command, which may have the output option. Behind a double dash every word
is a source. -/
def readWords? (hasOutput : Bool) : List String → Progress → Option Progress
  | [], p => some p
  | "--" :: sources, p => sources.foldlM Progress.addSource? p
  | word :: rest, p =>
    if !isOption word then (p.addSource? word).bind (readWords? hasOutput rest)
    else match p.flags.set? word with
      | some flags => readWords? hasOutput rest { p with flags }
      | none =>
        if !hasOutput then none
        else if word = "-o" ∨ word = "--output" then
          match rest with
          | value :: rest =>
            if isOption value then none
            else (p.addOutput? value).bind (readWords? hasOutput rest)
          | [] => none
        else ((attachedOutput? word).bind p.addOutput?).bind (readWords? hasOutput rest)

/-- The invocation of a command with options that were given in front of its name. -/
def readCommand? (before : Flags) (name : String) (words : List String) : Option Invocation := do
  let p ← readWords? (name == "compile") words {}
  let command ← match name with
    | "interpret" => some Command.interpret
    | "ir" => some .ir
    | "asm" => some .asm
    | "compile" => some (.compile (p.output?.getD defaultOutput))
    | _ => none
  return ⟨command, p.source?, before.verbose || p.flags.verbose,
    before.debugInfo || p.flags.debugInfo⟩

/-! ## The whole command line -/

/-- Whether a word in front of a command asks for the version. -/
def asksVersion (word : String) : Bool := word == "--version" || (behind? "-V" word).isSome

/-- What a command line asks for, if it makes sense. -/
def request? (flags : Flags) : List String → Option Request
  | [] => none
  | word :: rest =>
    if asksVersion word then some .version
    else if isOption word then (flags.set? word).bind (request? · rest)
    else (readCommand? flags word rest).map .invocation

end Exprc.CommandLine

/-
The program: gathers what its command line needs, and prints the answer to it. It starts no other
programs, so a request for an executable ends where the assembler would be needed.
-/
import Exprc.CommandLine.Response

namespace Exprc.CommandLine

/-- The bytes of a file, if there is one. -/
def readFile? (path : String) : IO (Option (List UInt8)) := do
  try
    return some (← IO.FS.readBinFile path).toList
  catch _ =>
    return none

/-- What an invocation needs of its surroundings. -/
def Invocation.surroundings (i : Invocation) : IO Surroundings := do
  let file? ← match i.source? with
    | some path => readFile? path
    | none => pure none
  let stdin ← if i.source?.isNone || i.command == .interpret then
      pure (← (← IO.getStdin).readBinToEnd).toList
    else pure []
  return { stdin, file? := fun _ => file? }

/-- Prints a response; gives back the exit code. -/
def Response.print (r : Response) : IO UInt32 := do
  IO.print r.output
  for message in r.messages do
    IO.eprintln message.onStream
  return if r.succeeds then 0 else 1

/-- More steps than a run can take in any time there is. -/
def unlimited : Nat := 1000000000000000000

end Exprc.CommandLine

open Exprc.CommandLine

/-- Answers a command line. -/
def main (words : List String) : IO UInt32 := do
  let surroundings ← match request? {} words with
    | some (.invocation i) => i.surroundings
    | _ => pure {}
  match answer? surroundings false unlimited words with
  | some response => response.print
  | none => return 1

import Mathlib.Tactic.DeprecateTo
import ScopedScript.CommandLine

/-!
# The program

Reads arguments, files, lines and the time, and prints.  What is printed is decided elsewhere.
The time of day is that of `Std.Time`, which is here by way of `Mathlib.Tactic.DeprecateTo`.
-/

namespace ScopedScript

/-- What a file holds, if it can be opened. -/
def readFile? (path : String) : IO (Option (List UInt8)) := do
  try return some (← IO.FS.readBinFile path).toList
  catch _ => return none

/-- The seconds since the epoch. -/
def secondsNow : IO Float := do
  let now ← Std.Time.Timestamp.now
  return Float.ofInt now.toNanosecondsSinceUnixEpoch.val / 1000000000.0

/-- The code that the program ends with. -/
def Ending.code : Ending → UInt32
  | .resumed => 0
  | .exited code => code.toUInt32
  | .raised => 1

/-- Asks for a line, sets the clock, replies, and goes on until the conversation is over. -/
partial def promptLoop (session : Session) : IO Ending := do
  let stdout ← IO.getStdout
  stdout.putStr promptText
  stdout.flush
  let read ← (← IO.getStdin).getLine
  let line := if read.isEmpty then "EOF" else read
  let (reply, session) := (session.setClock (← secondsNow)).respond line
  stdout.putStr reply.output
  stdout.flush
  if reply.stop then return .resumed
  match reply.passedOn with
  | some trouble =>
    let (told, ending) := session.reporter.handle trouble
    stdout.putStr told
    return ending
  | none => promptLoop session

end ScopedScript

open ScopedScript in
/-- Runs a script, or opens the prompt. -/
def main (args : List String) : IO UInt32 := do
  let stdout ← IO.getStdout
  let color ← stdout.isTty
  let clock := Clock.starting (← secondsNow)
  match Options.ofArgs args with
  | .error .help => stdout.putStr usageText; return 0
  | .error .usage => return 2
  | .ok options =>
    match options.file with
    | some path =>
      let (said, ending) := runScript options path (← readFile? path) color clock
      stdout.putStr said
      return ending.code
    | none =>
      stdout.putStr greeting
      return (← promptLoop (promptSession options color clock)).code

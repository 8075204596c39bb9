import ScopedScript.Program
import ScopedScript.Reporter
import ScopedScript.Tree.Print

/-!
# Sessions

A session runs one source after the other on one machine, so that what one source defines
the next can use.  It can show the tokens and the trees of a source before running it.

## Main definitions

* `Session`: a machine, a reporter, and what is to be shown.
* `Session.run`: runs a source.
* `RunFailure.trouble`: what a failed run means to a reporter.
-/

namespace ScopedScript

/-- **A session**: the machine, the reporter, how the source is called, what to show
before running it, and the limits. -/
structure Session where
  machine : Machine
  reporter : Reporter
  path : String
  showTokens : Bool
  showTrees : Bool
  limits : Limits

/-- What a failed run means to a reporter.  A loop without end is over only when someone
interrupts it. -/
def RunFailure.trouble (failure : RunFailure) : Trouble :=
  match failure.report? with
  | some report => .report report
  | none =>
    match failure with
    | .halt .pastEnd => .unknown "IndexError: list index out of range"
    | .stop .tooLong => .interrupted
    | _ => .tooDeep

/-- Prints the display of every token. -/
def dumpTokens (tokens : List Token) : Eval Unit :=
  tokens.forM fun token => Eval.print token.text

/-- Prints the tokens and the trees of a source, as asked for.  Trees are shown only if
the whole source can be read. -/
def dump (showTokens showTrees : Bool) (source : String) : Run Unit := do
  let scanned := scan source
  if showTokens then Run.ofEval (dumpTokens scanned.tokens)
  if showTrees && scanned.errors.isEmpty then
    let reading := readProgram scanned.tokens
    if let some h := reading.halt then throw (.halt h)
    if reading.errors.isEmpty then
      Run.ofEval (reading.statements.forM fun statement => Eval.print statement.text)

namespace Session

/-- A new session on a new machine. -/
def new (reporter : Reporter) (path : Option String) (showTokens showTrees : Bool)
    (clock : Clock) : Session :=
  ⟨.initial clock, reporter, path.getD promptPath, showTokens, showTrees, .standard⟩

/-- **Runs a source** and makes it the one that reports are about. -/
def run (source : String) : EStateM RunFailure Session Value := fun session =>
  let session := { session with
    reporter := session.reporter.register (some session.path) source }
  let step := do
    dump session.showTokens session.showTrees source
    ScopedScript.run session.limits source
  match step session.machine with
  | .ok value machine => .ok value { session with machine := machine }
  | .error failure machine => .error failure { session with machine := machine }

/-- The session with its clock set: the next reading is `seconds`. -/
def setClock (session : Session) (seconds : Float) : Session :=
  let ticks := session.machine.ticks
  { session with machine := { session.machine with
    clock := fun tick => Clock.starting seconds (tick - ticks) } }

/-- What was printed since the last time this was asked. -/
def takeOutput (session : Session) : List String × Session :=
  (session.machine.output.toList,
    { session with machine := { session.machine with output := #[] } })

end Session

/-- Printed lines as text. -/
def linesText (lines : List String) : String := String.join (lines.map (· ++ "\n"))

end ScopedScript

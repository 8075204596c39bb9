import ScopedScript.Evaluate
import ScopedScript.Scope
import ScopedScript.Token.Scan
import ScopedScript.Tree.Parse

/-!
# Running programs

From source text to results: scanning, reading, scope analysis and execution.  Nothing is
executed unless the whole source passes the stages before.

## Main definitions

* `Limits`: how deep evaluation may nest and how long a loop may go on.
* `RunFailure`: why a run ended early, with `RunFailure.report?`.
* `load`: a source as a program with its references located.
* `Machine.initial`: a machine with its native functions.
* `run`, `runExpression`, `runStatement`: run a source on a machine.
-/

namespace ScopedScript

/-- How deep evaluation may nest, and how many rounds a loop may have. -/
structure Limits where
  depth : Nat
  rounds : Nat

/-- The limits in use.  The depth is counted in nested expressions and statements, of
which every call takes a few. -/
def Limits.standard : Limits := ⟨20000, Nat.pow 2 62⟩

/-- **Why a run ended early.**  The scan and parse errors of a source come together; where
a single expression or statement is read, its one parse error comes alone. -/
inductive RunFailure where
  | scan (errors : List ScanError)
  | parse (tokens : List Token) (errors : List ParseError)
  | malformed (tokens : List Token) (e : ParseError)
  | halt (h : ParseHalt)
  | resolve (e : ScopeError)
  | stop (s : Stop)
deriving DecidableEq

namespace RunFailure

/-- What is reported about a failure that the program is to blame for. -/
def report? : RunFailure → Option Report
  | scan errors => some (.batch (errors.map ScanError.diagnostic))
  | parse tokens errors => some (.batch (errors.map (·.diagnostic tokens)))
  | malformed tokens e => some (.single (e.diagnostic tokens))
  | resolve e => some (.single e.diagnostic)
  | stop (.error e) => some (.single e.diagnostic)
  | _ => none

end RunFailure

/-! ## Loading -/

/-- The tokens of a source without lexical faults. -/
def loadTokens (source : String) : Except RunFailure (List Token) :=
  let scanned := scan source
  if scanned.errors.isEmpty then .ok scanned.tokens else .error (.scan scanned.errors)

/-- The statements of a token list without parse errors. -/
def loadStatements (tokens : List Token) : Except RunFailure (List Stmt) :=
  let reading := readProgram tokens
  match reading.halt with
  | some h => .error (.halt h)
  | none =>
    if reading.errors.isEmpty then .ok reading.statements
    else .error (.parse tokens reading.errors)

/-- **A source as a program**, with its references located. -/
def load (source : String) : Except RunFailure (List Stmt) := do
  let tokens ← loadTokens source
  let statements ← loadStatements tokens
  (analyze statements).mapError .resolve

/-- A single tree read from a source by `reader`. -/
def loadSingle {α : Type} (reader : Reader α) (source : String) : Except RunFailure α := do
  let tokens ← loadTokens source
  match reader tokens with
  | .ok tree _ => .ok tree
  | .error (.error e) _ => .error (.malformed tokens e)
  | .error (.halt h) _ => .error (.halt h)

/-! ## Machines -/

/-- Binds a global name. -/
def Machine.bindGlobal (machine : Machine) (name : String) (value : Value) : Machine :=
  { machine with
    heap := { machine.heap with frames := machine.heap.frames.bind 0 name value } }

/-- Puts a native function on the heap and binds it globally. -/
def Machine.addNative (machine : Machine) (native : Native) : Machine :=
  let (value, heap) := machine.heap.addNative native
  { machine with heap := heap }.bindGlobal native.name value

/-- **A new machine**: the global frame with the native function `clock`. -/
def Machine.initial (clock : Clock) : Machine :=
  let (_, heap) := Heap.empty.pushFrame .global
  Machine.addNative ⟨heap, .global, #[], clock, 0⟩ ⟨"clock", 0, .clock⟩

/-! ## Running -/

/-- A run on a machine.  The machine is kept however the run ends. -/
abbrev Run := EStateM RunFailure Machine

/-- What was computed before the machine is touched. -/
def Run.ofExcept {α : Type} : Except RunFailure α → Run α
  | .ok a => return a
  | .error failure => throw failure

/-- An evaluation as part of a run. -/
def Run.ofEval {α : Type} (step : Eval α) : Run α := step.adaptExcept .stop

/-- Executes statements in order and gives the value of the last one; `value` if there is
none. -/
def execAll (limits : Limits) : Value → List Stmt → Eval Value
  | value, [] => return value
  | _, statement :: rest => do
    let outcome ← exec limits.rounds limits.depth statement
    execAll limits outcome.value rest

/-- **Runs a source.**  The result is the value of its last statement. -/
def run (limits : Limits) (source : String) : Run Value := do
  let statements ← Run.ofExcept (load source)
  Run.ofEval (execAll limits .nil statements)

/-- **Evaluates a source that is one expression.**  Without scope analysis, every variable
in it is global. -/
def runExpression (limits : Limits) (source : String) : Run Value := do
  let expr ← Run.ofExcept (loadSingle readExpression source)
  Run.ofEval (eval limits.rounds limits.depth expr)

/-- **Executes the statement at the front of a source**, without scope analysis. -/
def runStatement (limits : Limits) (source : String) : Run Value := do
  let statement ← Run.ofExcept (loadSingle readDeclaration source)
  Outcome.value <$> Run.ofEval (exec limits.rounds limits.depth statement)

end ScopedScript

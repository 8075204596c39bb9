import ScopedScript.Heap

/-!
# The machine

The state of a running interpreter, and the steps that evaluation is made of.  A step
either gives a value or stops; the state is kept in both cases, so what was printed and
assigned before an error stays.

## Main definitions

* `Clock`: what a clock shows each time it is read.
* `Machine`: the heap, the current environment, what was printed, the clock.
* `Stop`: why evaluation ended early.
* `Eval`: a step of evaluation.
* `Eval.inEnvironment`: runs a step in another environment and comes back.

## Main results

* `Eval.environment_inEnvironment`: it does come back, however the step ends.
-/

namespace ScopedScript

/-- **What a clock shows**, in seconds, at every tick of a machine. -/
abbrev Clock := Nat → Float

/-- The clock that shows `start` first, and on which every tick takes a microsecond. -/
def Clock.starting (start : Float) : Clock := fun tick => start + tick.toFloat / 1000000.0

/-- **The state of an interpreter.**  The machine ticks when the clock is read and when an
operator is applied, so no two readings and no two results have the same tick. -/
structure Machine where
  heap : Heap
  environment : Environment
  output : Array String
  clock : Clock
  ticks : Nat

/-- **Why evaluation ended early**: an error of the program, trees and calls nested
deeper than allowed, or a loop that went on for longer than allowed. -/
inductive Stop where
  | error (e : RuntimeError)
  | tooDeep
  | tooLong
deriving DecidableEq

/-- **A step of evaluation.** -/
abbrev Eval := EStateM Stop Machine

/-- **How a statement completed**: normally, with the value of its expression if it has
one and nil otherwise, or returning from the enclosing function. -/
inductive Outcome where
  | normal (value : Value)
  | returned (value : Value)

namespace Outcome

/-- Normal completion without a value. -/
def done : Outcome := .normal .nil

/-- The value a statement completed with. -/
def value : Outcome → Value
  | normal value => value
  | returned value => value

/-- Whether a statement completed by returning. -/
def isReturn : Outcome → Bool
  | normal _ => false
  | returned _ => true

end Outcome

namespace Eval

/-- Ends with an error of the program. -/
def fail {α : Type} (e : RuntimeError) : Eval α := throw (.error e)

/-- A computation that does not touch the state. -/
def ofExcept {α : Type} : Except RuntimeError α → Eval α
  | .ok a => return a
  | .error e => fail e

/-- An operation on the frames. -/
def onFrames {α : Type} (op : FrameM α) : Eval α := fun machine =>
  let frames := machine.heap.frames
  let machine := { machine with heap := { machine.heap with frames := .empty } }
  match op frames with
  | .ok a frames => .ok a { machine with heap := { machine.heap with frames := frames } }
  | .error e frames =>
    .error (.error e) { machine with heap := { machine.heap with frames := frames } }

/-- A step on the heap that always succeeds. -/
def onHeap {α : Type} (op : Heap → α × Heap) : Eval α := fun machine =>
  let heap := machine.heap
  let machine := { machine with heap := .empty }
  let (a, heap) := op heap
  .ok a { machine with heap := heap }

/-- Prints a line. -/
def print (line : String) : Eval Unit := fun machine =>
  .ok () { machine with output := machine.output.push line }

/-- The tick that it is, and the machine goes on to the next one. -/
def tick : Eval Nat := fun machine =>
  .ok machine.ticks { machine with ticks := machine.ticks + 1 }

/-- The current environment. -/
def environment : Eval Environment := fun machine => .ok machine.environment machine

/-- **Runs a step in another environment** and comes back to the current one however the
step ends. -/
def inEnvironment {α : Type} (env : Environment) (step : Eval α) : Eval α := fun machine =>
  let outer := machine.environment
  match step { machine with environment := env } with
  | .ok a machine => .ok a { machine with environment := outer }
  | .error stop machine => .error stop { machine with environment := outer }

/-- The state after a step, whether it succeeded or not. -/
def after {α : Type} (step : Eval α) (machine : Machine) : Machine :=
  match step machine with
  | .ok _ machine => machine
  | .error _ machine => machine

/-- A step in another environment comes back, however it ends. -/
@[simp]
theorem environment_inEnvironment {α : Type} (env : Environment) (step : Eval α)
    (machine : Machine) :
    (after (inEnvironment env step) machine).environment = machine.environment := by
  unfold after inEnvironment
  split <;> rename_i h <;> split at h <;> cases h <;> rfl

end Eval

end ScopedScript

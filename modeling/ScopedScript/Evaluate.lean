import ScopedScript.Machine

/-!
# Evaluation

Expressions are evaluated to values and statements executed to outcomes.  Both count down
how much deeper trees and calls may nest, and stop when nothing is left; a loop counts
its rounds in the same way.

## Main definitions

* `eval`, `exec`: expressions and statements.
* `invoke`, `construct`, `apply`: calls.
* `iterate`, `runStatements`: loops and sequences of statements.
* `unaryValue`, `binaryValue`: the operators.
-/

namespace ScopedScript

/-! ## Operators -/

/-- The value of a unary operator. -/
def unaryValue (origin : Nat) (op : Token) (operand : Value) : Except RuntimeError Value :=
  match op.kind with
  | .minus => (operand.toNumber op).map fun x => .ofResult origin (-x)
  | .bang => (operand.truth op).map fun b => .bool !b
  | _ => .error (.onToken op (.unknownUnary op.lexeme))

/-- The value of an operator on numbers, if it is one. -/
def numberOperator? (origin : Nat) (kind : TokenKind) (x y : Float) : Option Value :=
  match kind with
  | .minus => some (.ofResult origin (x - y))
  | .star => some (.ofResult origin (x * y))
  | .slash => some (.quotient origin x y)
  | .greater => some (.bool (x > y))
  | .greaterEqual => some (.bool (x ≥ y))
  | .less => some (.bool (x < y))
  | .lessEqual => some (.bool (x ≤ y))
  | _ => none

/-- The value of a binary operator.  All but addition and equality take numbers, the left
one tested first. -/
def binaryValue (origin : Nat) (op : Token) (left right : Value) : Except RuntimeError Value :=
  match op.kind with
  | .plus => left.add origin right op
  | .equalEqual => .ok (.bool (left.equals right))
  | .bangEqual => .ok (.bool !(left.equals right))
  | kind => do
    let x ← left.toNumber op
    let y ← right.toNumber op
    match numberOperator? origin kind x y with
    | some value => .ok value
    | none => .error (.onToken op (.unknownBinary op.lexeme))

namespace Eval

/-! ## Variables and properties -/

/-- The value of a variable: `hops` frames out, or global. -/
def lookup (name : Token) (hops : Option Int) : Eval Value := do
  match hops with
  | some hops => onFrames (Frames.getAt (← environment) hops name)
  | none => onFrames (Frames.get .global name)

/-- Assigns a variable: `hops` frames out, or global. -/
def assign (name : Token) (hops : Option Int) (value : Value) : Eval Unit := do
  match hops with
  | some hops => onFrames (Frames.assignAt (← environment) hops name value)
  | none => onFrames (Frames.assign .global name value)

/-- Binds a name in the current frame. -/
def define (name : Token) (value : Value) : Eval Unit := do
  onFrames (Frames.define (← environment) name value)

/-- A method bound to an instance: its environment is a new frame that has `this`. -/
def bindMethod (method : Closure) (object : Value) : Eval Closure := do
  let env ← onHeap (·.pushFrame method.environment)
  onFrames (Frames.define env (.ident "this" 0) object)
  return { method with environment := env }

/-- The instance that a value refers to, if it refers to one. -/
def instance? (value : Value) : Eval (Option (Nat × Instance)) := do
  match value with
  | .instance handle =>
    return (← get).heap.instances[handle.index]?.map (handle.index, ·)
  | _ => return none

/-- A property of an instance: a field, or else a method of its class. -/
def property (object : Value) (name : Token) : Eval Value := do
  match ← instance? object with
  | none => fail (.onToken name .noProperties)
  | some (_, target) =>
    match target.fields.get? name.lexeme with
    | some value => return value
    | none =>
      match (← get).heap.method? target name.lexeme with
      | some method =>
        let bound ← bindMethod method object
        onHeap (·.addFunction bound)
      | none => fail (.onToken name (.undefinedProperty name.lexeme))

/-! ## Sequences and loops -/

/-- Executes statements in order, up to the first that returns. -/
def runStatements (exec : Stmt → Eval Outcome) : List Stmt → Eval Outcome
  | [] => return .done
  | statement :: rest => do
    match ← exec statement with
    | .returned value => return .returned value
    | .normal _ => runStatements exec rest

/-- Executes statements in an environment. -/
def runIn (exec : Stmt → Eval Outcome) (env : Environment) (statements : List Stmt) :
    Eval Outcome :=
  inEnvironment env (runStatements exec statements)

/-- Repeats `body` while `condition` holds and it does not return, for at most `rounds`
rounds. -/
def iterate (condition : Eval Bool) (body : Eval Outcome) : Nat → Eval Outcome
  | 0 => throw .tooLong
  | rounds + 1 => do
    if ← condition then
      match ← body with
      | .returned value => return .returned value
      | .normal _ => iterate condition body rounds
    else return .done

/-! ## Calls -/

/-- Binds parameters to arguments in the frame of an environment. -/
def bindParameters (env : Environment) : List Token → List Value → Eval Unit
  | param :: params, arg :: args => do
    onFrames (Frames.define env param arg)
    bindParameters env params args
  | _, _ => return ()

/-- Calls a function: its body runs in a new frame inside its own environment. -/
def invoke (exec : Stmt → Eval Outcome) (closure : Closure) (args : List Value) :
    Eval Value := do
  let env ← onHeap (·.pushFrame closure.environment)
  bindParameters env closure.params args
  let outcome ← runIn exec env closure.body
  if closure.initializer then onFrames (Frames.getAt closure.environment 0 (.ident "this" 0))
  else
    match outcome with
    | .returned value => return value
    | .normal _ => return .nil

/-- Calls a class: makes an instance and runs the initializer on it. -/
def construct (exec : Stmt → Eval Outcome) (handle : Handle) (cls : ClassDef)
    (args : List Value) : Eval Value := do
  let object ← onHeap (·.addInstance handle)
  match cls.initializer? with
  | some initializer =>
    let bound ← bindMethod initializer object
    let _ ← invoke exec bound args
    return object
  | none => return object

/-- Calls a native function. -/
def runNative (native : Native) (args : List Value) : Eval Value := do
  match native.action with
  | .clock =>
    let now ← tick
    return .number ((← get).clock now)
  | .collect => return .list args

/-- Calls a value, which has to be callable with that many arguments. -/
def apply (exec : Stmt → Eval Outcome) (callee : Value) (paren : Token) (args : List Value) :
    Eval Value := do
  match (← get).heap.callable? callee with
  | none => fail (.onToken paren .notCallable)
  | some callable =>
    if args.length ≠ callable.arity then
      fail (.onToken paren (.wrongArity callable.arity args.length))
    else
      match callable with
      | .function closure => invoke exec closure args
      | .native code => runNative code args
      | .class handle cls => construct exec handle cls args

/-! ## Classes -/

/-- The closures of a class's methods; of two methods with one name the later counts. -/
def methodTable (env : Environment) (methods : List FunctionDecl) : NameMap Closure :=
  methods.foldl
    (fun table method =>
      table.insert method.name.lexeme
        ⟨method.name.lexeme, method.params, method.body, env, method.name.lexeme = "init"⟩)
    .empty

/-- Declares a class in the current frame.  Its name is bound before its methods are
made. -/
def declareClass (name : Token) (methods : List FunctionDecl) : Eval Unit := do
  define name .nil
  let env ← environment
  let cls ← onHeap (·.addClass ⟨name.lexeme, methodTable env methods⟩)
  onFrames (Frames.assign env name cls)

/-- Puts a function declared in the current environment on the heap. -/
def closure (name : String) (params : List Token) (body : List Stmt) : Eval Value := do
  let env ← environment
  onHeap (·.addFunction ⟨name, params, body, env, false⟩)

end Eval

open Eval

/-! ## Expressions and statements -/

variable (rounds : Nat)

mutual

/-- **Evaluates an expression.**  Loops go for at most `rounds` rounds. -/
def eval : Nat → Expr → Eval Value
  | 0, _ => throw .tooDeep
  | _ + 1, .literal value => return value
  | _ + 1, .variable name hops _ => Eval.lookup name hops
  | depth + 1, .assign name value hops _ => do
    let value ← eval depth value
    Eval.assign name hops value
    return value
  | depth + 1, .group inner => eval depth inner
  | depth + 1, .unary op operand => do
    let operand ← eval depth operand
    ofExcept (unaryValue (← tick) op operand)
  | depth + 1, .binary left op right => do
    let left ← eval depth left
    let right ← eval depth right
    ofExcept (binaryValue (← tick) op left right)
  | depth + 1, .logical left op right => do
    let holds ← ofExcept ((← eval depth left).truth op)
    if holds == (op.kind == .or) then return .bool holds
    else return .bool (← ofExcept ((← eval depth right).truth op))
  | depth + 1, .conditional condition whenTrue whenFalse => do
    if ← ofExcept ((← eval depth condition).truth none) then eval depth whenTrue
    else eval depth whenFalse
  | depth + 1, .sequence items => return .list (← items.mapM (eval depth))
  | depth + 1, .call callee paren args => do
    let callee ← eval depth callee
    let args ← args.mapM (eval depth)
    apply (exec depth) callee paren args
  | _ + 1, .lambda _ params body => closure "anonymous" params body
  | depth + 1, .get object name => do
    property (← eval depth object) name
  | depth + 1, .set object name value => do
    match ← instance? (← eval depth object) with
    | none => fail (.onToken name .noFields)
    | some (index, _) =>
      let value ← eval depth value
      onHeap fun heap => ((), heap.setField index name.lexeme value)
      return value
  | _ + 1, .this keyword hops _ => Eval.lookup (.ident "this" keyword.line) hops

/-- **Executes a statement.** -/
def exec : Nat → Stmt → Eval Outcome
  | 0, _ => throw .tooDeep
  | depth + 1, .expression inner => return .normal (← eval depth inner)
  | depth + 1, .print inner => do
    print (← eval depth inner).text
    return .done
  | _ + 1, .var name none => do
    define name .nil
    return .done
  | depth + 1, .var name (some initializer) => do
    define name (← eval depth initializer)
    return .done
  | depth + 1, .block statements => do
    let env ← onHeap (·.pushFrame (← environment))
    runIn (exec depth) env statements
  | depth + 1, .branch condition whenTrue whenFalse => do
    if ← ofExcept ((← eval depth condition).truth none) then exec depth whenTrue
    else
      match whenFalse with
      | some whenFalse => exec depth whenFalse
      | none => return .done
  | depth + 1, .loop condition body =>
    iterate (do ofExcept ((← eval depth condition).truth none)) (exec depth body) rounds
  | _ + 1, .function (.mk name params body) => do
    define name (← closure name.lexeme params body)
    return .done
  | _ + 1, .return _ none => return .returned .nil
  | depth + 1, .return _ (some value) => return .returned (← eval depth value)
  | _ + 1, .class name methods => do
    declareClass name methods
    return .done

end

end ScopedScript

import ScopedScript.Evaluate

/-!
# What evaluating a node does

Evaluating an expression or executing a statement takes actions on the machine and has other
nodes evaluated, some of them in another environment.  The plan of a node spells this out as
data: what happens first, and for each result what happens next.  A plan does not say how
deep the nodes it calls may nest, so one plan serves every depth.

Evaluation is defined without plans; `Task.run_succ` says that it does what the plan of the
node says.  What holds of every action, and is kept from one action to the next, then holds
of evaluation by an induction over plans that is made once.

## Main definitions

* `Action`: the actions on the machine.
* `Task`: an expression to evaluate or a statement to execute.
* `Plan`: actions and tasks, one after the other.
* `Expr.plan`, `Stmt.plan`: the plans of the nodes.

## Main results

* `Task.run_succ`: evaluation follows the plan.
* `invoke_eq`, `construct_eq`, `apply_eq`, `runIn_eq`: and so do calls and blocks.
-/

namespace ScopedScript

/-! ## Actions and plans -/

/-- **The actions on the machine** that evaluation consists of, with their results. -/
inductive Action : Type → Type 1 where
  | compute {α : Type} (result : Except RuntimeError α) : Action α
  | tick : Action Nat
  | giveUp : Action Outcome
  | lookup (name : Token) (hops : Option Int) : Action Value
  | assign (name : Token) (hops : Option Int) (value : Value) : Action Unit
  | define (name : Token) (value : Value) : Action Unit
  | property (object : Value) (name : Token) : Action Value
  | instance? (value : Value) : Action (Option (Nat × Instance))
  | setField (index : Nat) (name : String) (value : Value) : Action Unit
  | makeFunction (name : String) (params : List Token) (body : List Stmt) : Action Value
  | declareFunction (name : Token) (params : List Token) (body : List Stmt) : Action Unit
  | declareClass (name : Token) (methods : List FunctionDecl) : Action Unit
  | print (line : String) : Action Unit
  | openBlock : Action Environment
  | openCall (closure : Closure) (args : List Value) : Action Environment
  | receiver (closure : Closure) : Action Value
  | callable? (callee : Value) : Action (Option Callable)
  | create (handle : Handle) : Action Value
  | bindMethod (method : Closure) (object : Value) : Action Closure
  | native (code : Native) (args : List Value) : Action Value

/-- What an action does. -/
def Action.run {α : Type} : Action α → Eval α
  | compute result => Eval.ofExcept result
  | tick => Eval.tick
  | giveUp => throw .tooLong
  | lookup name hops => Eval.lookup name hops
  | assign name hops value => Eval.assign name hops value
  | define name value => Eval.define name value
  | property object name => Eval.property object name
  | instance? value => Eval.instance? value
  | setField index name value => Eval.onHeap fun heap => ((), heap.setField index name value)
  | makeFunction name params body => Eval.closure name params body
  | declareFunction name params body => do
    Eval.define name (← Eval.closure name.lexeme params body)
  | declareClass name methods => Eval.declareClass name methods
  | print line => Eval.print line
  | openBlock => do Eval.onHeap (·.pushFrame (← Eval.environment))
  | openCall closure args => do
    let env ← Eval.onHeap (·.pushFrame closure.environment)
    Eval.bindParameters env closure.params args
    return env
  | receiver closure =>
    Eval.onFrames (Frames.getAt closure.environment 0 (.ident "this" 0))
  | callable? callee => do return (← get).heap.callable? callee
  | create handle => Eval.onHeap (·.addInstance handle)
  | bindMethod method object => Eval.bindMethod method object
  | native code args => Eval.runNative code args

/-- **What there is to do**: evaluate an expression or execute a statement. -/
inductive Task where
  | expr (e : Expr)
  | stmt (s : Stmt)

/-- What a task results in. -/
abbrev Task.Result : Task → Type
  | expr _ => Value
  | stmt _ => Outcome

/-- **Actions and tasks, one after the other.**  What comes next depends on the result of
what came before. -/
inductive Plan : Type → Type 1 where
  | done {α : Type} (result : α) : Plan α
  | act {α β : Type} (action : Action β) (next : β → Plan α) : Plan α
  | call {α : Type} (task : Task) (next : task.Result → Plan α) : Plan α
  | within {α β : Type} (env : Environment) (inner : Plan β) (next : β → Plan α) : Plan α

namespace Plan

/-- Follows a plan, given what tasks do. -/
def run (perform : (task : Task) → Eval task.Result) {α : Type} : Plan α → Eval α
  | done result => pure result
  | act action next => action.run >>= fun b => (next b).run perform
  | call task next => perform task >>= fun r => (next r).run perform
  | within env inner next =>
    Eval.inEnvironment env (inner.run perform) >>= fun b => (next b).run perform

variable {α : Type}

/-! ## Sequences, loops and calls -/

/-- Evaluates expressions in order. -/
def evalAll : List Expr → (List Value → Plan α) → Plan α
  | [], next => next []
  | e :: es, next => .call (.expr e) fun v => evalAll es fun vs => next (v :: vs)

/-- Executes statements in order, up to the first that returns. -/
def execAll : List Stmt → Plan Outcome
  | [] => .done .done
  | s :: ss => .call (.stmt s) fun
    | .returned value => .done (.returned value)
    | .normal _ => execAll ss

/-- Repeats a statement while a condition holds and it does not return. -/
def repeatWhile (condition : Expr) (body : Stmt) : Nat → Plan Outcome
  | 0 => .act .giveUp .done
  | rounds + 1 => .call (.expr condition) fun v => .act (.compute (v.truth none)) fun holds =>
    if holds then .call (.stmt body) fun
      | .returned value => .done (.returned value)
      | .normal _ => repeatWhile condition body rounds
    else .done .done

/-- Calls a function. -/
def invoke (closure : Closure) (args : List Value) (next : Value → Plan α) : Plan α :=
  .act (.openCall closure args) fun env => .within env (execAll closure.body) fun outcome =>
    if closure.initializer then .act (.receiver closure) next
    else
      match outcome with
      | .returned value => next value
      | .normal _ => next .nil

/-- Calls a class. -/
def construct (handle : Handle) (cls : ClassDef) (args : List Value) : Plan Value :=
  .act (.create handle) fun object =>
    match cls.initializer? with
    | some initializer => .act (.bindMethod initializer object) fun bound =>
      invoke bound args fun _ => .done object
    | none => .done object

/-- Calls a value, which has to be callable with that many arguments. -/
def apply (callee : Value) (paren : Token) (args : List Value) : Plan Value :=
  .act (.callable? callee) fun
    | none => .act (.compute (.error (.onToken paren .notCallable))) .done
    | some callable =>
      if args.length ≠ callable.arity then
        .act (.compute (.error (.onToken paren (.wrongArity callable.arity args.length)))) .done
      else
        match callable with
        | .function closure => invoke closure args .done
        | .native code => .act (.native code args) .done
        | .class handle cls => construct handle cls args

end Plan

/-! ## The plans of the nodes -/

/-- **The plan of an expression.** -/
def Expr.plan : Expr → Plan Value
  | .literal value => .done value
  | .variable name hops _ => .act (.lookup name hops) .done
  | .assign name value hops _ =>
    .call (.expr value) fun v => .act (.assign name hops v) fun _ => .done v
  | .group inner => .call (.expr inner) .done
  | .unary op operand => .call (.expr operand) fun v => .act .tick fun origin =>
    .act (.compute (unaryValue origin op v)) .done
  | .binary left op right => .call (.expr left) fun a => .call (.expr right) fun b =>
    .act .tick fun origin => .act (.compute (binaryValue origin op a b)) .done
  | .logical left op right => .call (.expr left) fun a => .act (.compute (a.truth op)) fun holds =>
    if holds == (op.kind == .or) then .done (.bool holds)
    else .call (.expr right) fun b => .act (.compute (b.truth op)) fun holds => .done (.bool holds)
  | .conditional condition whenTrue whenFalse => .call (.expr condition) fun v =>
    .act (.compute (v.truth none)) fun holds =>
      if holds then .call (.expr whenTrue) .done else .call (.expr whenFalse) .done
  | .sequence items => Plan.evalAll items fun vs => .done (.list vs)
  | .call callee paren args => .call (.expr callee) fun f =>
    Plan.evalAll args fun vs => Plan.apply f paren vs
  | .lambda _ params body => .act (.makeFunction "anonymous" params body) .done
  | .get object name => .call (.expr object) fun o => .act (.property o name) .done
  | .set object name value => .call (.expr object) fun o => .act (.instance? o) fun
    | none => .act (.compute (.error (.onToken name .noFields))) .done
    | some (index, _) =>
      .call (.expr value) fun v => .act (.setField index name.lexeme v) fun _ => .done v
  | .this keyword hops _ => .act (.lookup (.ident "this" keyword.line) hops) .done

/-- **The plan of a statement.** -/
def Stmt.plan (rounds : Nat) : Stmt → Plan Outcome
  | .expression inner => .call (.expr inner) fun v => .done (.normal v)
  | .print inner => .call (.expr inner) fun v => .act (.print v.text) fun _ => .done .done
  | .var name none => .act (.define name .nil) fun _ => .done .done
  | .var name (some initializer) =>
    .call (.expr initializer) fun v => .act (.define name v) fun _ => .done .done
  | .block statements => .act .openBlock fun env => .within env (Plan.execAll statements) .done
  | .branch condition whenTrue whenFalse => .call (.expr condition) fun v =>
    .act (.compute (v.truth none)) fun holds =>
      if holds then .call (.stmt whenTrue) .done
      else
        match whenFalse with
        | some whenFalse => .call (.stmt whenFalse) .done
        | none => .done .done
  | .loop condition body => Plan.repeatWhile condition body rounds
  | .function (.mk name params body) =>
    .act (.declareFunction name params body) fun _ => .done .done
  | .return _ none => .done (.returned .nil)
  | .return _ (some value) => .call (.expr value) fun v => .done (.returned v)
  | .class name methods => .act (.declareClass name methods) fun _ => .done .done

namespace Task

/-- The plan of a task. -/
def plan (rounds : Nat) : (task : Task) → Plan task.Result
  | expr e => e.plan
  | stmt s => s.plan rounds

/-- What a task does, at a depth. -/
def run (rounds depth : Nat) : (task : Task) → Eval task.Result
  | expr e => eval rounds depth e
  | stmt s => exec rounds depth s

end Task

/-! ## Evaluation follows the plan -/

section

variable (rounds depth : Nat) {α : Type}

-- Plans, tasks and actions that are written out unfold by themselves here.
attribute [local simp] Plan.run Task.run Action.run

theorem Plan.run_evalAll (es : List Expr) (next : List Value → Plan α) :
    (Plan.evalAll es next).run (Task.run rounds depth) =
      es.mapM (eval rounds depth) >>= fun vs => (next vs).run (Task.run rounds depth) := by
  induction es generalizing next with
  | nil => simp [Plan.evalAll]
  | cons e es ih => simp [Plan.evalAll, ih]

theorem Plan.run_execAll (ss : List Stmt) :
    (Plan.execAll ss).run (Task.run rounds depth) = Eval.runStatements (exec rounds depth) ss := by
  induction ss with
  | nil => rfl
  | cons s ss ih =>
    simp only [Plan.execAll, Plan.run, Task.run, Eval.runStatements]
    congr 1
    funext outcome
    cases outcome with
    | returned value => rfl
    | normal value => exact ih

/-- A block in another environment follows its plan. -/
theorem runIn_eq (env : Environment) (ss : List Stmt) :
    Eval.runIn (exec rounds depth) env ss =
      (Plan.within env (Plan.execAll ss) .done).run (Task.run rounds depth) := by
  simp [Plan.run_execAll, Eval.runIn]

theorem Plan.run_repeatWhile (condition : Expr) (body : Stmt) (n : Nat) :
    (Plan.repeatWhile condition body n).run (Task.run rounds depth) =
      Eval.iterate (do Eval.ofExcept ((← eval rounds depth condition).truth none))
        (exec rounds depth body) n := by
  induction n with
  | zero => rfl
  | succ n ih =>
    -- both evaluate the condition, and both go round again or stop
    simp only [Plan.repeatWhile, Plan.run, Task.run, Action.run, Eval.iterate, bind_assoc]
    congr 1
    funext v
    congr 1
    funext holds
    cases holds with
    | false => rfl
    | true =>
      simp only [if_true, Plan.run, Task.run]
      congr 1
      funext outcome
      cases outcome with
      | returned value => rfl
      | normal value => exact ih

/-- Calling a function follows its plan. -/
theorem Plan.run_invoke (closure : Closure) (args : List Value) (next : Value → Plan α) :
    (Plan.invoke closure args next).run (Task.run rounds depth) =
      Eval.invoke (exec rounds depth) closure args >>= fun v =>
        (next v).run (Task.run rounds depth) := by
  -- both run the body in the new frame; they differ in when the result is picked
  simp only [Plan.invoke, Plan.run, Action.run, Eval.invoke, Plan.run_execAll, Eval.runIn,
    bind_assoc, pure_bind]
  congr 1
  funext env
  congr 1
  funext _
  congr 1
  funext outcome
  split
  · rfl
  · cases outcome <;> simp

theorem invoke_eq (closure : Closure) (args : List Value) :
    Eval.invoke (exec rounds depth) closure args =
      (Plan.invoke closure args .done).run (Task.run rounds depth) := by
  simp [Plan.run_invoke]

/-- Calling a class follows its plan. -/
theorem construct_eq (handle : Handle) (cls : ClassDef) (args : List Value) :
    Eval.construct (exec rounds depth) handle cls args =
      (Plan.construct handle cls args).run (Task.run rounds depth) := by
  simp only [Plan.construct, Plan.run, Action.run, Eval.construct]
  congr 1
  funext object
  cases cls.initializer? with
  | none => rfl
  | some initializer => simp [Plan.run_invoke]

/-- Calling a value follows its plan. -/
theorem apply_eq (callee : Value) (paren : Token) (args : List Value) :
    Eval.apply (exec rounds depth) callee paren args =
      (Plan.apply callee paren args).run (Task.run rounds depth) := by
  simp only [Plan.apply, Plan.run, Action.run, Eval.apply, bind_assoc, pure_bind]
  congr 1
  funext machine
  cases machine.heap.callable? callee with
  | none => simp [Eval.ofExcept]
  | some callable =>
    dsimp only
    split
    · simp [Eval.ofExcept]
    · cases callable with
      | function closure => exact invoke_eq rounds depth closure args
      | native code => simp
      | «class» handle cls => exact construct_eq rounds depth handle cls args

/-- **Evaluation follows the plan of an expression**, one level deeper. -/
theorem eval_succ (e : Expr) :
    eval rounds (depth + 1) e = e.plan.run (Task.run rounds depth) := by
  cases e with
  | literal | «variable» | assign | group | unary | binary | lambda | get | this =>
    simp [eval, Expr.plan]
  | logical left op right =>
    simp only [eval, Expr.plan, Plan.run, Task.run, Action.run]
    congr 1
    funext a
    congr 1
    funext holds
    split <;> simp
  | conditional c a b =>
    simp only [eval, Expr.plan, Plan.run, Task.run, Action.run]
    congr 1
    funext v
    congr 1
    funext holds
    split <;> simp
  | sequence items => simp [eval, Expr.plan, Plan.run_evalAll]
  | call callee paren args =>
    simp [eval, Expr.plan, Plan.run_evalAll, apply_eq]
  | set object name value =>
    simp only [eval, Expr.plan, Plan.run, Task.run, Action.run]
    congr 1
    funext o
    congr 1
    funext target
    cases target <;> simp [Eval.ofExcept]

/-- **Execution follows the plan of a statement**, one level deeper. -/
theorem exec_succ (s : Stmt) :
    exec rounds (depth + 1) s = (s.plan rounds).run (Task.run rounds depth) := by
  cases s with
  | expression | print | «class» => simp [exec, Stmt.plan]
  | var name initializer => cases initializer <;> simp [exec, Stmt.plan]
  | «return» keyword value => cases value <;> simp [exec, Stmt.plan]
  | function decl => cases decl; simp [exec, Stmt.plan]
  | block ss => simp [exec, Stmt.plan, Plan.run_execAll, Eval.runIn]
  | branch c a b =>
    simp only [exec, Stmt.plan, Plan.run, Task.run, Action.run]
    congr 1
    funext v
    congr 1
    funext holds
    split
    · simp
    · cases b <;> simp
  | loop c body => simp [exec, Stmt.plan, Plan.run_repeatWhile]

/-- **A task follows its plan.** -/
theorem Task.run_succ (task : Task) :
    task.run rounds (depth + 1) = (task.plan rounds).run (Task.run rounds depth) := by
  cases task with
  | expr e => exact eval_succ rounds depth e
  | stmt s => exact exec_succ rounds depth s

theorem Task.run_zero (task : Task) : task.run rounds 0 = throw .tooDeep := by
  cases task with
  | expr e => rw [Task.run, eval]
  | stmt s => rw [Task.run, exec]

end

end ScopedScript

import ScopedScript.Program
import ScopedScript.Proofs.Plan

/-!
# The environment is restored

Whatever a program does, evaluation comes back to the environment it started in: after a
value, after a statement that completed or returned, and after every way of ending early.
Only blocks and calls work in another environment, and they come back from it; so this is an
induction over plans, with nothing to show for the actions but that none of them moves.

The induction is made for any relation between the machine before and the machine after, so
that it serves for what else every step respects.

## Main definitions

* `Eval.Respects R step`: `R` holds between the machine before a step and the one after,
  however the step ends.
* `Respected R`: the relations that evaluation as a whole respects.
* `Request`: what can be asked of a machine.

## Main results

* `Respected.task`, `Respected.plan`: evaluation respects such a relation.
* `sameEnvironment_respected`: staying in the same environment is one.
* `environment_restored`: every evaluation comes back, and after any requests the current
  environment is the global one.
-/

namespace ScopedScript

/-- The machine with other frames. -/
def Machine.withFrames (machine : Machine) (frames : Frames) : Machine :=
  { machine with heap := { machine.heap with frames := frames } }

/-! ## What every step respects -/

namespace Eval

variable {α β : Type} {R : Machine → Machine → Prop}

theorem onFrames_eq (op : FrameM α) (machine : Machine) :
    onFrames op machine =
      match op machine.heap.frames with
      | .ok a frames => .ok a (machine.withFrames frames)
      | .error e frames => .error (.error e) (machine.withFrames frames) := rfl

/-- `R` holds between the machine before a step and the one after, however the step ends. -/
def Respects (R : Machine → Machine → Prop) (step : Eval α) : Prop :=
  ∀ machine, R machine (step.after machine)

theorem after_bind (step : Eval α) (next : α → Eval β) (machine : Machine) :
    (step >>= next).after machine =
      match step machine with
      | .ok a machine => (next a).after machine
      | .error _ machine => machine := by
  change after (EStateM.bind step next) machine = _
  unfold after EStateM.bind
  cases step machine <;> rfl

/-- Steps in a row respect a relation that goes on from one to the other. -/
theorem Respects.bind (ht : ∀ a b c, R a b → R b c → R a c) {step : Eval α} {next : α → Eval β}
    (h : Respects R step) (hn : ∀ a, Respects R (next a)) : Respects R (step >>= next) := by
  intro machine
  rw [after_bind]
  have hs := h machine
  unfold after at hs
  cases hm : step machine with
  | ok a machine' =>
    rw [hm] at hs
    exact ht _ _ _ hs (hn a machine')
  | error stop machine' =>
    rw [hm] at hs
    exact hs

end Eval

/-- **The relations that evaluation respects**: those that every action respects, that can be
chained, and that do not mind a step that is taken in another environment. -/
structure Respected (R : Machine → Machine → Prop) : Prop where
  refl : ∀ machine, R machine machine
  trans : ∀ a b c, R a b → R b c → R a c
  enter : ∀ {machine machine' : Machine} (env : Environment),
    R { machine with environment := env } machine' →
      R machine { machine' with environment := machine.environment }
  act : ∀ {α : Type} (action : Action α), Eval.Respects R action.run

namespace Respected

variable {R : Machine → Machine → Prop} {α : Type}

/-- A step in another environment respects what the step does, as it comes back whether it fails or
not. -/
theorem inEnvironment (hR : Respected R) (env : Environment) {step : Eval α}
    (h : Eval.Respects R step) : Eval.Respects R (Eval.inEnvironment env step) := by
  intro machine
  have hs := h { machine with environment := env }
  unfold Eval.after at hs
  unfold Eval.after Eval.inEnvironment
  cases hm : step { machine with environment := env } with
  | ok a machine' | error stop machine' =>
    rw [hm] at hs
    exact hR.enter env hs

/-- A plan respects what the tasks it calls respect. -/
theorem plan (hR : Respected R) {perform : (task : Task) → Eval task.Result}
    (hp : ∀ task, Eval.Respects R (perform task)) (p : Plan α) :
    Eval.Respects R (p.run perform) := by
  -- A plan is actions and tasks in a row, so it is enough that each of them respects `R`.
  induction p with
  | done result => exact hR.refl
  | act action next ih => exact (hR.act action).bind hR.trans ih
  | call task next ih => exact (hp task).bind hR.trans ih
  | within env inner next ih ihn => exact (hR.inEnvironment env ih).bind hR.trans ihn

/-- **Evaluation respects what every action respects.** -/
theorem task (hR : Respected R) (rounds depth : Nat) (task : Task) :
    Eval.Respects R (task.run rounds depth) := by
  induction depth generalizing task with
  | zero =>
    rw [Task.run_zero]
    exact hR.refl
  | succ depth ih =>
    rw [Task.run_succ]
    exact hR.plan ih _

end Respected

/-! ## Staying in the same environment -/

/-- The machine is in the same environment as before. -/
def SameEnvironment (before after : Machine) : Prop := after.environment = before.environment

namespace SameEnvironment

variable {α β : Type}

theorem bind {step : Eval α} {next : α → Eval β} (h : Eval.Respects SameEnvironment step)
    (hn : ∀ a, Eval.Respects SameEnvironment (next a)) :
    Eval.Respects SameEnvironment (step >>= next) :=
  h.bind (fun _ _ _ hab hbc => hbc.trans hab) hn

theorem onFrames (op : FrameM α) : Eval.Respects SameEnvironment (Eval.onFrames op) := by
  intro machine
  rw [Eval.after, Eval.onFrames_eq]
  cases op machine.heap.frames <;> rfl

theorem ofExcept (result : Except RuntimeError α) :
    Eval.Respects SameEnvironment (Eval.ofExcept result) := by
  intro machine
  cases result <;> rfl

/-- What is done with the current environment respects it if that does. -/
theorem environment_then {next : Environment → Eval α}
    (hn : ∀ env, Eval.Respects SameEnvironment (next env)) :
    Eval.Respects SameEnvironment (Eval.environment >>= next) :=
  bind (fun _ => rfl) hn

theorem bindMethod (method : Closure) (object : Value) :
    Eval.Respects SameEnvironment (Eval.bindMethod method object) :=
  bind (fun _ => rfl) fun _ => bind (onFrames _) fun _ _ => rfl

theorem bindParameters (env : Environment) (params : List Token) (args : List Value) :
    Eval.Respects SameEnvironment (Eval.bindParameters env params args) := by
  induction params generalizing args with
  | nil => exact fun _ => rfl
  | cons param params ih =>
    cases args with
    | nil => exact fun _ => rfl
    | cons arg args => exact bind (onFrames _) fun _ => ih args

theorem instance? (value : Value) : Eval.Respects SameEnvironment (Eval.instance? value) := by
  intro machine
  cases value <;> rfl

/-- Reading a property leaves the current environment alone. -/
theorem property (object : Value) (name : Token) :
    Eval.Respects SameEnvironment (Eval.property object name) := by
  refine bind (instance? object) fun target => ?_
  cases target with
  | none => exact fun _ => rfl
  | some target =>
    dsimp only
    cases target.2.fields.get? name.lexeme with
    | some value => exact fun _ => rfl
    | none =>
      refine bind (fun _ => rfl) fun machine => ?_
      cases machine.heap.method? target.2 name.lexeme with
      | some method => exact bind (bindMethod method object) fun _ _ => rfl
      | none => exact fun _ => rfl

theorem runNative (code : Native) (args : List Value) :
    Eval.Respects SameEnvironment (Eval.runNative code args) := by
  intro machine
  obtain ⟨name, arity, action⟩ := code
  cases action <;> rfl

/-- No action moves to another environment. -/
theorem act (action : Action α) : Eval.Respects SameEnvironment action.run := by
  cases action with
  | compute result => exact ofExcept result
  | lookup name hops =>
    cases hops with
    | some hops => exact environment_then fun _ => onFrames _
    | none => exact onFrames _
  | assign name hops value =>
    cases hops with
    | some hops => exact environment_then fun _ => onFrames _
    | none => exact onFrames _
  | define name value => exact environment_then fun _ => onFrames _
  | property object name => exact property object name
  | instance? value => exact instance? value
  | declareClass name methods =>
    refine bind (environment_then fun _ => onFrames _) fun _ => environment_then fun _ => ?_
    exact bind (fun _ => rfl) fun _ => onFrames _
  | makeFunction name params body => exact environment_then fun _ _ => rfl
  | declareFunction name params body =>
    exact bind (environment_then fun _ _ => rfl) fun _ => environment_then fun _ => onFrames _
  | openCall closure args =>
    exact bind (fun _ => rfl) fun _ => bind (bindParameters _ _ _) fun _ _ => rfl
  | receiver closure => exact onFrames _
  | bindMethod method object => exact bindMethod method object
  | native code args => exact runNative code args
  | tick | giveUp | setField | print | openBlock | callable? | create => exact fun _ => rfl

end SameEnvironment

/-- Every action leaves the current environment as it was. -/
theorem sameEnvironment_respected : Respected SameEnvironment where
  refl _ := rfl
  trans _ _ _ hab hbc := hbc.trans hab
  enter _ _ := rfl
  act := SameEnvironment.act

/-! ## Requests -/

/-- **What can be asked of a machine**: to run a source, or to evaluate or execute a source
that is a single expression or statement. -/
inductive Request where
  | program (source : String)
  | expression (source : String)
  | statement (source : String)

/-- What a request does. -/
def Request.perform (limits : Limits) : Request → Run Value
  | program source => run limits source
  | expression source => runExpression limits source
  | statement source => runStatement limits source

/-- The machine after a run, however it ended. -/
def Run.after {α : Type} (step : Run α) (machine : Machine) : Machine :=
  match step machine with
  | .ok _ machine => machine
  | .error _ machine => machine

/-- The machine after requests, one after the other; each may fail. -/
def Machine.serve (limits : Limits) (machine : Machine) (requests : List Request) : Machine :=
  requests.foldl (fun machine request => (request.perform limits).after machine) machine

/-- What a request leaves behind: nothing if its source is refused, and otherwise what the
evaluation leaves. -/
theorem Run.after_ofExcept_bind {α β : Type} (loaded : Except RunFailure α) (step : α → Run β)
    (machine : Machine) :
    (Run.ofExcept loaded >>= step).after machine =
      match loaded with
      | .ok a => (step a).after machine
      | .error _ => machine := by
  cases loaded <;> rfl

theorem Run.after_ofEval {α : Type} (step : Eval α) (machine : Machine) :
    (Run.ofEval step).after machine = step.after machine := by
  change Run.after (EStateM.adaptExcept RunFailure.stop step) machine = _
  unfold Run.after Eval.after EStateM.adaptExcept
  cases step machine <;> rfl

theorem Run.after_map {α β : Type} (f : α → β) (step : Run α) (machine : Machine) :
    (f <$> step).after machine = step.after machine := by
  change Run.after (EStateM.map f step) machine = _
  unfold Run.after EStateM.map
  cases step machine <;> rfl

namespace Respected

variable {R : Machine → Machine → Prop}

/-- Statements in a row respect what each of them does. -/
theorem execAll (hR : Respected R) (limits : Limits) (value : Value) (ss : List Stmt) :
    Eval.Respects R (execAll limits value ss) := by
  induction ss generalizing value with
  | nil => exact hR.refl
  | cons s ss ih =>
    exact (hR.task limits.rounds limits.depth (.stmt s)).bind hR.trans fun outcome =>
      ih outcome.value

/-- A request respects what evaluation respects. -/
theorem perform (hR : Respected R) (limits : Limits) (request : Request) (machine : Machine) :
    R machine ((request.perform limits).after machine) := by
  cases request with
  | program source =>
    rw [Request.perform, run, Run.after_ofExcept_bind]
    -- a source that is refused leaves the machine as it was
    cases load source with
    | ok ss =>
      dsimp only
      rw [Run.after_ofEval]
      exact hR.execAll limits .nil ss machine
    | error failure => exact hR.refl machine
  | expression source =>
    rw [Request.perform, runExpression, Run.after_ofExcept_bind]
    cases loadSingle readExpression source with
    | ok e =>
      dsimp only
      rw [Run.after_ofEval]
      exact hR.task limits.rounds limits.depth (.expr e) machine
    | error failure => exact hR.refl machine
  | statement source =>
    rw [Request.perform, runStatement, Run.after_ofExcept_bind]
    cases loadSingle readDeclaration source with
    | ok s =>
      dsimp only
      rw [Run.after_map, Run.after_ofEval]
      exact hR.task limits.rounds limits.depth (.stmt s) machine
    | error failure => exact hR.refl machine

/-- Requests in a row respect what each of them does. -/
theorem serve (hR : Respected R) (limits : Limits) (requests : List Request)
    (machine : Machine) : R machine (machine.serve limits requests) := by
  induction requests generalizing machine with
  | nil => exact hR.refl machine
  | cons request requests ih =>
    exact hR.trans _ _ _ (hR.perform limits request machine) (ih _)

end Respected

/-- **The environment is restored.**  Expressions, statements, blocks and calls come back to
the environment they started in, however they end; so after any requests, of which any may
have failed anywhere, the current environment is the global one. -/
theorem environment_restored (rounds depth : Nat) (machine : Machine) :
    (∀ e, ((eval rounds depth e).after machine).environment = machine.environment) ∧
      (∀ s, ((exec rounds depth s).after machine).environment = machine.environment) ∧
      (∀ env ss, ((Eval.runIn (exec rounds depth) env ss).after machine).environment =
        machine.environment) ∧
      (∀ callee paren args,
        ((Eval.apply (exec rounds depth) callee paren args).after machine).environment =
          machine.environment) ∧
      (∀ closure args,
        ((Eval.invoke (exec rounds depth) closure args).after machine).environment =
          machine.environment) ∧
      (∀ handle cls args,
        ((Eval.construct (exec rounds depth) handle cls args).after machine).environment =
          machine.environment) ∧
      (∀ code args, ((Eval.runNative code args).after machine).environment =
        machine.environment) ∧
      ∀ limits clock requests,
        ((Machine.initial clock).serve limits requests).environment = .global := by
  have hR := sameEnvironment_respected
  have hp : ∀ task, Eval.Respects SameEnvironment (Task.run rounds depth task) :=
    hR.task rounds depth
  refine ⟨fun e => hp (.expr e) machine, fun s => hp (.stmt s) machine, fun env ss => ?_,
    fun callee paren args => ?_, fun closure args => ?_, fun handle cls args => ?_,
    fun code args => SameEnvironment.runNative code args machine, fun limits clock requests => ?_⟩
  · rw [runIn_eq]
    exact hR.plan hp _ machine
  · rw [apply_eq]
    exact hR.plan hp _ machine
  · rw [invoke_eq]
    exact hR.plan hp _ machine
  · rw [construct_eq]
    exact hR.plan hp _ machine
  · exact hR.serve limits requests (Machine.initial clock)

end ScopedScript

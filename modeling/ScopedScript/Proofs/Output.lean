import ScopedScript.Proofs.Restore
import ScopedScript.Proofs.Results

/-!
# What was printed before

Evaluation prints, but it never looks at what has been printed.  So where other lines were printed
before, it does the same and prints the same, after them.  This is shown of every action, and holds
of evaluation because plans are made of actions.

## Main definitions

* `Machine.preceded`: the machine, with lines printed before its own.
* `Oblivious`: steps that do not look at what has been printed.

## Main results

* `Oblivious.task`: evaluation is oblivious.
* `run_oblivious`: and so are runs of sources.
-/

namespace ScopedScript

/-- The machine, with lines printed before its own. -/
def Machine.preceded (lines : Array String) (machine : Machine) : Machine :=
  { machine with output := lines ++ machine.output }

/-- The same result, with lines printed before on the machine it is left with. -/
def precededResult {ε α : Type} (lines : Array String) :
    EStateM.Result ε Machine α → EStateM.Result ε Machine α
  | .ok a machine => .ok a (machine.preceded lines)
  | .error e machine => .error e (machine.preceded lines)

/-- **The step does not look at what has been printed.**  With other lines before, it ends in the
same way and changes the machine in the same way. -/
def Oblivious {ε α : Type} (step : EStateM ε Machine α) : Prop :=
  ∀ lines machine, step (machine.preceded lines) = precededResult lines (step machine)

namespace Oblivious

variable {ε α β : Type}

theorem pure (a : α) : Oblivious (pure a : EStateM ε Machine α) := fun _ _ => rfl

/-- Steps in a row that do not look at what was printed. -/
theorem bind {step : EStateM ε Machine α} {next : α → EStateM ε Machine β} (h : Oblivious step)
    (hn : ∀ a, Oblivious (next a)) : Oblivious (step >>= next) := by
  intro lines machine
  change EStateM.bind step next _ = precededResult lines (EStateM.bind step next machine)
  unfold EStateM.bind
  rw [h lines machine]
  cases step machine with
  | ok a machine' => exact hn a lines machine'
  | error e machine' => rfl

/-- A step in another environment does not look at what was printed if the step does not. -/
theorem inEnvironment (env : Environment) {step : Eval α} (h : Oblivious step) :
    Oblivious (Eval.inEnvironment env step) := by
  intro lines machine
  have hs := h lines { machine with environment := env }
  unfold Eval.inEnvironment
  dsimp only
  rw [show step { machine.preceded lines with environment := env } = _ from hs]
  cases step { machine with environment := env } <;> rfl

/-! ## Actions -/

theorem onFrames (op : FrameM α) : Oblivious (Eval.onFrames op) := by
  intro lines machine
  have hheap : (machine.preceded lines).heap = machine.heap := rfl
  rw [Eval.onFrames_eq, Eval.onFrames_eq, hheap]
  cases op machine.heap.frames <;> rfl

theorem ofExcept (result : Except RuntimeError α) : Oblivious (Eval.ofExcept result) := by
  cases result <;> exact fun _ _ => rfl

theorem environment_then {next : Environment → Eval α} (hn : ∀ env, Oblivious (next env)) :
    Oblivious (Eval.environment >>= next) :=
  bind (fun _ _ => rfl) hn

/-- Printing adds a line, whatever was printed before. -/
theorem print (line : String) : Oblivious (Eval.print line) := by
  intro lines machine
  simp [Eval.print, precededResult, Machine.preceded]

theorem bindMethod (method : Closure) (object : Value) :
    Oblivious (Eval.bindMethod method object) :=
  bind (fun _ _ => rfl) fun _ => bind (onFrames _) fun _ _ _ => rfl

theorem bindParameters (env : Environment) (params : List Token) (args : List Value) :
    Oblivious (Eval.bindParameters env params args) := by
  induction params generalizing args with
  | nil => exact fun _ _ => rfl
  | cons param params ih =>
    cases args with
    | nil => exact fun _ _ => rfl
    | cons arg args => exact bind (onFrames _) fun _ => ih args

theorem instance? (value : Value) : Oblivious (Eval.instance? value) := by
  cases value <;> exact fun _ _ => rfl

theorem property (object : Value) (name : Token) : Oblivious (Eval.property object name) := by
  refine bind (instance? object) fun target => ?_
  cases target with
  | none => exact fun _ _ => rfl
  | some target =>
    dsimp only
    cases target.2.fields.get? name.lexeme with
    | some value => exact fun _ _ => rfl
    | none =>
      intro lines machine
      have hget : ∀ m, (get : Eval Machine) m = .ok m m := fun _ => rfl
      have hheap : (machine.preceded lines).heap = machine.heap := rfl
      dsimp only
      rw [bind_of_ok (hget _), bind_of_ok (hget _), hheap]
      cases machine.heap.method? target.2 name.lexeme with
      | some method => exact bind (bindMethod method object) (fun _ _ _ => rfl) lines machine
      | none => rfl

theorem runNative (code : Native) (args : List Value) : Oblivious (Eval.runNative code args) := by
  obtain ⟨name, arity, action⟩ := code
  cases action <;> exact fun _ _ => rfl

/-- No action looks at what has been printed. -/
theorem act (action : Action α) : Oblivious action.run := by
  cases action with
  | compute result => exact ofExcept result
  | lookup name hops =>
    cases hops with
    | some hops => exact environment_then fun _ => onFrames _
    | none => exact onFrames _
  | assign name hops value =>
    cases hops with
    | some hops => exact environment_then fun _ => onFrames _
    | none => exact onFrames _
  | define name value => exact environment_then fun _ => onFrames _
  | property object name => exact property object name
  | instance? value => exact instance? value
  | declareClass name methods =>
    refine bind (environment_then fun _ => onFrames _) fun _ => environment_then fun _ => ?_
    exact bind (fun _ _ => rfl) fun _ => onFrames _
  | makeFunction name params body => exact environment_then fun _ _ _ => rfl
  | declareFunction name params body =>
    exact bind (environment_then fun _ _ _ => rfl) fun _ => environment_then fun _ => onFrames _
  | print line => exact print line
  | openCall closure args =>
    exact bind (fun _ _ => rfl) fun _ => bind (bindParameters _ _ _) fun _ _ _ => rfl
  | receiver closure => exact onFrames _
  | bindMethod method object => exact bindMethod method object
  | native code args => exact runNative code args
  | tick | giveUp | setField | openBlock | callable? | create => exact fun _ _ => rfl

/-! ## Evaluation -/

/-- A plan does not look at what was printed if its tasks do not. -/
theorem plan {perform : (task : Task) → Eval task.Result} (hp : ∀ task, Oblivious (perform task))
    (p : Plan α) : Oblivious (p.run perform) := by
  induction p with
  | done result => exact pure result
  | act action next ih => exact (act action).bind ih
  | call task next ih => exact (hp task).bind ih
  | within env inner next ih ihn => exact (inEnvironment env ih).bind ihn

/-- **Evaluation does not look at what has been printed.** -/
theorem task (rounds depth : Nat) (task : Task) : Oblivious (task.run rounds depth) := by
  induction depth generalizing task with
  | zero =>
    rw [Task.run_zero]
    exact fun _ _ => rfl
  | succ depth ih =>
    rw [Task.run_succ]
    exact plan ih _

theorem execAll (limits : Limits) (value : Value) (ss : List Stmt) :
    Oblivious (execAll limits value ss) := by
  induction ss generalizing value with
  | nil => exact pure value
  | cons s ss ih => exact (task limits.rounds limits.depth (.stmt s)).bind fun _ => ih _

theorem ofEval {step : Eval α} (h : Oblivious step) : Oblivious (Run.ofEval step) := by
  intro lines machine
  change EStateM.adaptExcept RunFailure.stop step _ =
    precededResult lines (EStateM.adaptExcept RunFailure.stop step machine)
  unfold EStateM.adaptExcept
  rw [h lines machine]
  cases step machine <;> rfl

end Oblivious

/-- **A run does not look at what has been printed.** -/
theorem run_oblivious (limits : Limits) (source : String) : Oblivious (run limits source) := by
  have hload : Oblivious (Run.ofExcept (load source)) := by
    cases load source <;> exact fun _ _ => rfl
  exact hload.bind fun ss => (Oblivious.execAll limits .nil ss).ofEval

end ScopedScript

import ScopedScript.Proofs.Moments
import ScopedScript.Proofs.Operators
import ScopedScript.Proofs.Scope.Agreement

/-!
# Which token a run-time error is reported at

The actions that evaluation consists of fail in few ways.  Leaving defects aside, an error is about
a name that is looked up, about an operator and its operands, about a call, or about a property;
and each of these is reported at a token of the node that is evaluated.  The one error that is
reported nowhere is about a condition without a truth.

The plan of a node shows which actions it takes, whatever was computed before, and so which errors
the node itself can raise.

## Main definitions

* `Task.token?`: the token at which the errors of a node are reported.
* `RuntimeError.PointsTo`: an error is reported there, or is about a condition.
* `Plan.Points`: all errors of a plan's own actions are as expected.

## Main results

* `Action.points`: what the actions fail with.
* `Task.plan_points`: what the node's own actions fail with.
* `Moment.Raises.pointsTo`: a moment raises a defect, or an error at the token of its node.
-/

namespace ScopedScript

/-! ## Errors and tokens -/

/-- **The token at which the errors of a node are reported**: a name, an operator, the parenthesis
of a call, or `this`. -/
def Task.token? : Task → Option Token
  | expr (.variable name _ _) | expr (.assign name _ _ _) => some name
  | expr (.unary op _) | expr (.binary _ op _) | expr (.logical _ op _) => some op
  | expr (.call _ paren _) => some paren
  | expr (.get _ name) | expr (.set _ name _) => some name
  | expr (.this keyword _ _) => some keyword
  | stmt (.class name _) => some name
  | _ => none

/-- The error has the line and the text of a token. -/
def RuntimeError.IsAt (e : RuntimeError) (t : Token) : Prop :=
  e.line = some t.line ∧ e.subject = t.lexeme

/-- **Where an error may be reported**: at the token, or nowhere if it is about a condition that
has no truth. -/
def RuntimeError.PointsTo (token? : Option Token) (e : RuntimeError) : Prop :=
  (∃ t, token? = some t ∧ e.IsAt t) ∨ ∃ shown, e = ⟨.noTruth shown, none, ""⟩

theorem RuntimeError.IsAt.onToken (t : Token) (fault : RuntimeFault) :
    (RuntimeError.onToken t fault).IsAt t := ⟨rfl, rfl⟩

section Operators

variable {origin : Nat} {e : RuntimeError} {op : Token}

theorem Value.truth_isAt {value : Value} (h : value.truth (some op) = .error e) : e.IsAt op := by
  rw [Value.truth_eq_error h]
  exact .onToken _ _

/-- Errors of unary operators are at the operator. -/
theorem unaryValue_isAt {operand : Value} (h : unaryValue origin op operand = .error e) :
    e.IsAt op := by
  rcases unaryValue_eq_error h with rfl | rfl | ⟨-, rfl⟩ <;> exact .onToken _ _

/-- Errors of binary operators are at the operator. -/
theorem binaryValue_isAt {left right : Value} (h : binaryValue origin op left right = .error e) :
    e.IsAt op := by
  rcases binaryValue_eq_error h with rfl | ⟨operand, rfl⟩ | ⟨-, -, rfl⟩ <;> exact .onToken _ _

end Operators

/-! ## Steps -/

/-- The operation on frames fails with a defect, or as expected. -/
def FrameM.Points (ok : RuntimeError → Prop) {α : Type} (op : FrameM α) : Prop :=
  ∀ ⦃frames e frames'⦄, op frames = .error e frames' → e.fault.isDefect = true ∨ ok e

/-- The step fails with a defect, or as expected. -/
def Eval.Points (ok : RuntimeError → Prop) {α : Type} (step : Eval α) : Prop :=
  ∀ ⦃machine e machine'⦄, step machine = .error (.error e) machine' → e.fault.isDefect = true ∨ ok e

variable {ok : RuntimeError → Prop}

namespace Frames

variable {α β : Type} {env : Environment} {name : Token}

/-- What is reported in a row of frame operations is reported by one of them. -/
theorem points_bind {op : FrameM α} {next : α → FrameM β} (h : FrameM.Points ok op)
    (hn : ∀ a, FrameM.Points ok (next a)) : FrameM.Points ok (op >>= next) := by
  intro frames e frames' he
  rcases bind_eq_error_iff.1 he with he | ⟨a, mid, -, he⟩
  · exact h he
  · exact hn a he

/-- Failing reports the error, unless it is a defect. -/
theorem points_throw {e : RuntimeError} (h : e.fault.isDefect = true ∨ ok e) :
    FrameM.Points ok (throw e : FrameM α) := by
  intro frames e' frames' he
  cases he
  exact h

theorem points_pure (a : α) : FrameM.Points ok (pure a) := by
  intro frames e frames' he
  cases he

theorem points_modify (f : Frames → Frames) : FrameM.Points ok (modify f) := by
  intro frames e frames' he
  cases he

theorem points_read : FrameM.Points ok EStateM.get := by
  intro frames e frames' he
  cases he

/-- A token that cannot be a name is a defect, and so nothing is reported. -/
theorem points_requireName : FrameM.Points ok (requireName name) := by
  unfold requireName
  split
  · exact points_pure ()
  · exact points_throw (.inl rfl)

theorem points_define (value : Value) : FrameM.Points ok (define env name value) :=
  points_bind points_requireName fun _ => points_modify _

/-- Looking a name up reports only that it is undefined. -/
theorem points_get (h : ok (undefined name)) : FrameM.Points ok (get env name) := by
  refine points_bind points_requireName fun _ => points_bind points_read fun frames => ?_
  split
  · exact points_pure _
  · exact points_throw (.inr h)

/-- Assigning to a name reports only that it is undefined. -/
theorem points_assign (h : ok (undefined name)) (value : Value) :
    FrameM.Points ok (assign env name value) := by
  refine points_bind points_requireName fun _ => points_bind points_read fun frames => ?_
  split
  · exact points_modify _
  · exact points_throw (.inr h)

/-- A frame that is not where it should be is a defect. -/
theorem points_locateAt (distance : Int) : FrameM.Points ok (locateAt env distance name) := by
  have hancestor : FrameM.Points ok (ancestor env distance name.lexeme) := by
    unfold ancestor
    split
    · exact points_pure _
    · exact points_throw (.inl rfl)
  refine points_bind points_requireName fun _ => points_bind hancestor fun frame =>
    points_bind points_read fun frames => ?_
  split
  · exact points_pure _
  · exact points_throw (.inl rfl)

/-- Looking a name up at a distance can only be a defect. -/
theorem points_getAt (distance : Int) : FrameM.Points ok (getAt env distance name) := by
  rw [getAt, ← bind_pure_comp]
  exact points_bind (points_locateAt distance) fun _ => points_pure _

theorem points_assignAt (distance : Int) (value : Value) :
    FrameM.Points ok (assignAt env distance name value) :=
  points_bind (points_locateAt distance) fun _ => points_modify _

end Frames

namespace Eval

variable {α β : Type}

/-- What is reported in a row of steps is reported by one of them. -/
theorem points_bind {step : Eval α} {next : α → Eval β} (h : step.Points ok)
    (hn : ∀ a, (next a).Points ok) : (step >>= next).Points ok := by
  intro machine e machine' he
  rcases bind_eq_error_iff.1 he with he | ⟨a, mid, -, he⟩
  · exact h he
  · exact hn a he

/-- A step that always succeeds reports nothing. -/
theorem points_of_ok {step : Eval α} (h : ∀ machine, ∃ a machine', step machine = .ok a machine') :
    step.Points ok := by
  intro machine e machine' he
  obtain ⟨a, mid, hs⟩ := h machine
  rw [hs] at he
  cases he

theorem points_fail {e : RuntimeError} (h : ok e) : (fail e : Eval α).Points ok := by
  intro machine e' machine' he
  cases he
  exact .inr h

/-- A step on the frames reports what the operation on them does. -/
theorem points_onFrames {op : FrameM α} (h : FrameM.Points ok op) : (onFrames op).Points ok := by
  intro machine e machine' he
  rw [onFrames_eq] at he
  cases hr : op machine.heap.frames with
  | ok a frames =>
    rw [hr] at he
    cases he
  | error e' frames =>
    rw [hr] at he
    cases he
    exact h hr

/-- An operation on frames, in the environment that is read first. -/
theorem points_onFramesHere {op : Environment → FrameM α} (h : ∀ env, FrameM.Points ok (op env)) :
    (environment >>= fun env => onFrames (op env)).Points ok :=
  points_bind (points_of_ok fun machine => ⟨_, machine, rfl⟩) fun env => points_onFrames (h env)

theorem points_onHeap (op : Heap → α × Heap) : (onHeap op).Points ok :=
  points_of_ok fun _ => ⟨_, _, rfl⟩

end Eval

/-! ## Actions -/

namespace Action

/-- **What an action may fail with**, other than a defect. -/
def Reports (ok : RuntimeError → Prop) {α : Type} : Action α → Prop
  | compute result => ∀ e, result = .error e → ok e
  | lookup name _ | assign name _ _ | declareClass name _ => ok (Frames.undefined name)
  | property _ name =>
    ok (.onToken name .noProperties) ∧ ok (.onToken name (.undefinedProperty name.lexeme))
  | _ => True

variable {α : Type}

theorem points_bindMethod (method : Closure) (object : Value) :
    (Eval.bindMethod method object).Points ok :=
  Eval.points_bind (Eval.points_onHeap _) fun _ =>
    Eval.points_bind (Eval.points_onFrames (Frames.points_define _)) fun _ =>
      Eval.points_of_ok fun machine => ⟨_, machine, rfl⟩

/-- Binding parameters to arguments reports nothing: names are never refused but by a defect. -/
theorem points_bindParameters (env : Environment) (params : List Token) (args : List Value) :
    (Eval.bindParameters env params args).Points ok := by
  induction params generalizing args with
  | nil => exact Eval.points_of_ok fun machine => ⟨_, machine, rfl⟩
  | cons param params ih =>
    cases args with
    | nil => exact Eval.points_of_ok fun machine => ⟨_, machine, rfl⟩
    | cons arg args =>
      exact Eval.points_bind (Eval.points_onFrames (Frames.points_define _)) fun _ => ih args

/-- Reading a property reports that there are none, or that this one is undefined. -/
theorem points_property {name : Token} (object : Value) (hn : ok (.onToken name .noProperties))
    (hu : ok (.onToken name (.undefinedProperty name.lexeme))) :
    (Eval.property object name).Points ok := by
  have hinstance : (Eval.instance? object).Points ok := Eval.points_of_ok fun machine => by
    obtain ⟨target, ht⟩ := instance?_eq object machine
    exact ⟨target, machine, ht⟩
  refine Eval.points_bind hinstance fun target => ?_
  cases target with
  | none => exact Eval.points_fail hn
  | some target =>
    dsimp only
    cases target.2.fields.get? name.lexeme with
    | some value => exact Eval.points_of_ok fun machine => ⟨_, machine, rfl⟩
    | none =>
      have hread : Eval.Points ok (get : Eval Machine) :=
        Eval.points_of_ok fun machine => ⟨_, machine, rfl⟩
      refine Eval.points_bind hread fun there => ?_
      cases there.heap.method? target.2 name.lexeme with
      | some method =>
        exact Eval.points_bind (points_bindMethod method object) fun _ => Eval.points_onHeap _
      | none => exact Eval.points_fail hu

/-- **What the actions fail with**: a defect, or what they report. -/
theorem points (action : Action α) (h : action.Reports ok) : action.run.Points ok := by
  cases action with
  | compute result =>
    cases result with
    | ok a => exact Eval.points_of_ok fun machine => ⟨_, machine, rfl⟩
    | error e => exact Eval.points_fail (h e rfl)
  | giveUp =>
    intro machine e machine' he
    cases he
  | lookup name hops =>
    cases hops with
    | some hops => exact Eval.points_onFramesHere fun _ => Frames.points_getAt hops
    | none => exact Eval.points_onFrames (Frames.points_get h)
  | assign name hops value =>
    cases hops with
    | some hops => exact Eval.points_onFramesHere fun _ => Frames.points_assignAt hops value
    | none => exact Eval.points_onFrames (Frames.points_assign h value)
  | define name value => exact Eval.points_onFramesHere fun _ => Frames.points_define value
  | property object name => exact points_property object h.1 h.2
  | instance? object =>
    refine Eval.points_of_ok fun machine => ?_
    obtain ⟨target, ht⟩ := instance?_eq object machine
    exact ⟨target, machine, ht⟩
  | declareFunction name params body =>
    refine Eval.points_bind (Eval.points_of_ok fun _ => ⟨_, _, rfl⟩) fun value => ?_
    exact Eval.points_onFramesHere fun _ => Frames.points_define value
  | declareClass name methods =>
    refine Eval.points_bind (Eval.points_onFramesHere fun _ => Frames.points_define .nil)
      fun _ => ?_
    refine Eval.points_bind (Eval.points_of_ok fun machine => ⟨_, machine, rfl⟩) fun env => ?_
    exact Eval.points_bind (Eval.points_onHeap _) fun cls =>
      Eval.points_onFrames (Frames.points_assign h cls)
  | openCall closure args =>
    refine Eval.points_bind (Eval.points_onHeap _) fun env => ?_
    exact Eval.points_bind (points_bindParameters env _ args) fun _ =>
      Eval.points_of_ok fun machine => ⟨_, machine, rfl⟩
  | receiver closure => exact Eval.points_onFrames (Frames.points_getAt 0)
  | bindMethod method object => exact points_bindMethod method object
  | native code args =>
    obtain ⟨name, arity, action⟩ := code
    cases action <;> exact Eval.points_of_ok fun _ => ⟨_, _, rfl⟩
  | tick | makeFunction | setField | print | openBlock | callable? | create =>
    exact Eval.points_of_ok fun _ => ⟨_, _, rfl⟩

end Action

/-! ## Plans -/

namespace Plan

variable {α : Type}

/-- **What a plan's own actions may fail with**, other than a defect, whatever was computed
before. -/
def Points (ok : RuntimeError → Prop) {α : Type} : Plan α → Prop
  | done _ => True
  | act action next => action.Reports ok ∧ ∀ b, (next b).Points ok
  | call _ next => ∀ r, (next r).Points ok
  | within _ inner next => inner.Points ok ∧ ∀ b, (next b).Points ok

/-- **What a plan raises itself** is a defect, or is among what it may report. -/
theorem Points.raises {perform : (task : Task) → Eval task.Result} {p : Plan α} (h : p.Points ok)
    {machine : Machine} {e : RuntimeError} (hr : p.Raises perform machine (.error e)) :
    e.fault.isDefect = true ∨ ok e := by
  induction p generalizing machine with
  | done result => exact hr.elim
  | act action next ih =>
    rcases hr with ⟨machine', he⟩ | ⟨b, machine', -, hr⟩
    · exact action.points h.1 he
    · exact ih b (h.2 b) hr
  | call task next ih =>
    obtain ⟨r, machine', -, hr⟩ := hr
    exact ih r (h r) hr
  | within env inner next ih ihn =>
    rcases hr with hr | ⟨b, machine', -, hr⟩
    · exact ih h.1 hr
    · exact ihn b (h.2 b) hr

/-- Evaluating expressions in a row reports nothing itself. -/
theorem points_evalAll {es : List Expr} {next : List Value → Plan α}
    (hn : ∀ vs, (next vs).Points ok) : (evalAll es next).Points ok := by
  induction es generalizing next with
  | nil => exact hn []
  | cons e es ih => exact fun v => ih fun vs => hn (v :: vs)

/-- Executing statements in a row reports nothing itself. -/
theorem points_execAll (ss : List Stmt) : (execAll ss).Points ok := by
  induction ss with
  | nil => trivial
  | cons s ss ih =>
    intro outcome
    cases outcome with
    | returned value => trivial
    | normal value => exact ih

/-- Running a function reports nothing itself, if what comes after does not. -/
theorem points_invoke {closure : Closure} {args : List Value} {next : Value → Plan α}
    (hn : ∀ v, (next v).Points ok) : (invoke closure args next).Points ok := by
  refine ⟨trivial, fun env => ⟨points_execAll _, fun outcome => ?_⟩⟩
  dsimp only
  split
  · exact ⟨trivial, hn⟩
  · cases outcome with
    | returned value => exact hn value
    | normal value => exact hn .nil

section Token

variable {token? : Option Token} {t : Token}

/-- What an operator fails with is reported at the operator. -/
theorem reports_compute {result : Except RuntimeError α} (ht : token? = some t)
    (h : ∀ e, result = .error e → e.IsAt t) :
    (Action.compute result).Reports (RuntimeError.PointsTo token?) :=
  fun e he => .inl ⟨t, ht, h e he⟩

/-- A condition that cannot be tested is reported at no place. -/
theorem reports_condition (value : Value) :
    (Action.compute (value.truth none)).Reports (RuntimeError.PointsTo token?) :=
  fun _ he => .inr ⟨_, Value.truth_eq_error he⟩

/-- A loop reports only that its condition cannot be tested, at no place. -/
theorem points_repeatWhile (condition : Expr) (body : Stmt) (rounds : Nat) :
    (repeatWhile condition body rounds).Points (RuntimeError.PointsTo token?) := by
  induction rounds with
  | zero => exact ⟨trivial, fun _ => trivial⟩
  | succ rounds ih =>
    refine fun v => ⟨reports_condition v, fun holds => ?_⟩
    dsimp only
    split
    · intro outcome
      cases outcome with
      | returned value => trivial
      | normal value => exact ih
    · trivial

/-- Calling a value reports at the parenthesis that it cannot be called, or not with so many
arguments. -/
theorem points_apply (ht : token? = some t) (callee : Value) (args : List Value) :
    (apply callee t args).Points (RuntimeError.PointsTo token?) := by
  refine ⟨trivial, fun callable => ?_⟩
  cases callable with
  | none => exact ⟨reports_compute ht fun _ h => by cases h; exact .onToken _ _, fun _ => trivial⟩
  | some callable =>
    dsimp only
    split
    · exact ⟨reports_compute ht fun _ h => by cases h; exact .onToken _ _, fun _ => trivial⟩
    · cases callable with
      | function closure => exact points_invoke fun _ => trivial
      | native code => exact ⟨trivial, fun _ => trivial⟩
      | «class» handle cls =>
        refine ⟨trivial, fun object => ?_⟩
        dsimp only
        cases cls.initializer? with
        | none => trivial
        | some initializer => exact ⟨trivial, fun bound => points_invoke fun _ => trivial⟩

end Token

end Plan

/-- The keyword of a node `this` is spelled so. -/
def Task.ThisSpelled (task : Task) : Prop :=
  ∀ keyword hops seen, task = .expr (.this keyword hops seen) → keyword.lexeme = "this"

/-- **What an expression's own actions fail with.** -/
theorem Expr.plan_points {e : Expr} (hs : (Task.expr e).ThisSpelled) :
    e.plan.Points (RuntimeError.PointsTo (Task.expr e).token?) := by
  cases e with
  | literal => trivial
  | «variable» name => exact ⟨.inl ⟨name, rfl, .onToken _ _⟩, fun _ => trivial⟩
  | assign name => exact fun _ => ⟨.inl ⟨name, rfl, .onToken _ _⟩, fun _ => trivial⟩
  | group => exact fun _ => trivial
  | unary op =>
    exact fun _ => ⟨trivial, fun _ =>
      ⟨Plan.reports_compute rfl fun _ => unaryValue_isAt, fun _ => trivial⟩⟩
  | binary left op right =>
    exact fun _ _ => ⟨trivial, fun _ =>
      ⟨Plan.reports_compute rfl fun _ => binaryValue_isAt, fun _ => trivial⟩⟩
  | logical left op right =>
    have htruth : ∀ value : Value, (Action.compute (value.truth op)).Reports
        (RuntimeError.PointsTo (Task.expr (.logical left op right)).token?) := fun _ =>
      Plan.reports_compute rfl fun _ => Value.truth_isAt
    refine fun a => ⟨htruth a, fun holds => ?_⟩
    dsimp only
    split
    · trivial
    · exact fun b => ⟨htruth b, fun _ => trivial⟩
  | conditional =>
    refine fun v => ⟨Plan.reports_condition v, fun holds => ?_⟩
    dsimp only
    split <;> exact fun _ => trivial
  | sequence items => exact Plan.points_evalAll fun _ => trivial
  | call callee paren args =>
    exact fun f => Plan.points_evalAll fun vs => Plan.points_apply rfl f vs
  | lambda => exact ⟨trivial, fun _ => trivial⟩
  | get object name =>
    exact fun _ => ⟨⟨.inl ⟨name, rfl, .onToken _ _⟩, .inl ⟨name, rfl, .onToken _ _⟩⟩,
      fun _ => trivial⟩
  | set object name value =>
    refine fun o => ⟨trivial, fun target => ?_⟩
    cases target with
    | none =>
      exact ⟨Plan.reports_compute rfl fun _ h => by cases h; exact .onToken name _,
        fun _ => trivial⟩
    | some target => exact fun _ => ⟨trivial, fun _ => trivial⟩
  -- the keyword is looked up as a name of its own, on its line
  | this keyword hops seen =>
    exact ⟨.inl ⟨keyword, rfl, rfl, (hs keyword hops seen rfl).symm⟩, fun _ => trivial⟩

/-- **What a statement's own actions fail with.** -/
theorem Stmt.plan_points (rounds : Nat) (s : Stmt) :
    (s.plan rounds).Points (RuntimeError.PointsTo (Task.stmt s).token?) := by
  cases s with
  | expression => exact fun _ => trivial
  | print => exact fun _ => ⟨trivial, fun _ => trivial⟩
  | var name initializer =>
    cases initializer with
    | none => exact ⟨trivial, fun _ => trivial⟩
    | some initializer => exact fun _ => ⟨trivial, fun _ => trivial⟩
  | block ss => exact ⟨trivial, fun env => ⟨Plan.points_execAll ss, fun _ => trivial⟩⟩
  | branch condition whenTrue whenFalse =>
    refine fun v => ⟨Plan.reports_condition v, fun holds => ?_⟩
    dsimp only
    split
    · exact fun _ => trivial
    · cases whenFalse with
      | none => trivial
      | some whenFalse => exact fun _ => trivial
  | loop condition body => exact Plan.points_repeatWhile condition body rounds
  | function decl =>
    cases decl
    exact ⟨trivial, fun _ => trivial⟩
  | «return» keyword value =>
    cases value with
    | none => trivial
    | some value => exact fun _ => trivial
  | «class» name methods => exact ⟨.inl ⟨name, rfl, .onToken _ _⟩, fun _ => trivial⟩

/-- **Every node reports at its own token**, or at no place. -/
theorem Task.plan_points (rounds : Nat) {task : Task} (hs : task.ThisSpelled) :
    (task.plan rounds).Points (RuntimeError.PointsTo task.token?) := by
  cases task with
  | expr e => exact Expr.plan_points hs
  | stmt s => exact Stmt.plan_points rounds s

/-- **A moment raises a defect, or an error at the token of its node**, or the error about a
condition that is reported nowhere. -/
theorem Moment.Raises.pointsTo {rounds : Nat} {mo : Moment} {e : RuntimeError}
    (h : mo.Raises rounds (.error e)) (hs : mo.task.ThisSpelled) :
    e.fault.isDefect = true ∨ e.PointsTo mo.task.token? := by
  obtain ⟨depth, task, machine⟩ := mo
  cases depth with
  | zero => cases h
  | succ depth => exact (Task.plan_points rounds hs).raises h

/-- What a reference is about is its token. -/
theorem Access.missing_isAt {task : Task} {r : Access} (hr : task.access? = some r)
    (hs : task.ThisSpelled) (distance : Nat) :
    ∃ t, task.token? = some t ∧ (r.missing distance).IsAt t := by
  unfold Task.access? at hr
  split at hr
  · cases hr
    exact ⟨_, rfl, .onToken _ _⟩
  · cases hr
    exact ⟨_, rfl, .onToken _ _⟩
  · cases hr
    exact ⟨_, rfl, rfl, (hs _ _ _ rfl).symm⟩
  · cases hr

end ScopedScript

import ScopedScript.Proofs.Relabel
import ScopedScript.Proofs.Scope.Runs

/-!
# Evaluation of relabelled trees

Evaluating a relabelled tree on a relabelled machine ends as evaluating the tree on the machine
does, relabelled: with the same value and the same output, or with the same error on the new
line.

The numbers at references decide where variables are looked for.  So the tree is evaluated with
each number read as what the relabelling makes of it.  For that there is an evaluation that reads
the numbers through a function, `Task.runBy`; evaluation itself reads them as they are.

## Main definitions

* `Task.runBy`, `execAllBy`: evaluation that reads the numbers at references through a function.
* `Relabel.Carries`: a step ends as another one does, relabelled.

## Main results

* `Task.runBy_id`: evaluation reads the numbers as they are.
* `Relabel.carries_runBy`, `Relabel.carries_execAllBy`: evaluation carries over to relabelled trees.
-/

namespace ScopedScript

/-! ## Reading the numbers through a function -/

/-- What an action does if the numbers at references are read through `read`. -/
def Action.runBy (read : Option Int → Option Int) {α : Type} : Action α → Eval α
  | .lookup name hops => Eval.lookup name (read hops)
  | .assign name hops value => Eval.assign name (read hops) value
  | action => action.run

/-- Follows a plan with the numbers at references read through `read`. -/
def Plan.runBy (read : Option Int → Option Int) (perform : (task : Task) → Eval task.Result)
    {α : Type} : Plan α → Eval α
  | done result => pure result
  | act action next => action.runBy read >>= fun b => (next b).runBy read perform
  | call task next => perform task >>= fun r => (next r).runBy read perform
  | within env inner next =>
    Eval.inEnvironment env (inner.runBy read perform) >>= fun b => (next b).runBy read perform

/-- **Evaluation with the numbers at references read through `read`.** -/
def Task.runBy (read : Option Int → Option Int) (rounds : Nat) :
    Nat → (task : Task) → Eval task.Result
  | 0, _ => throw .tooDeep
  | depth + 1, task => (task.plan rounds).runBy read (Task.runBy read rounds depth)

theorem Action.runBy_id {α : Type} (action : Action α) : action.runBy id = action.run := by
  cases action <;> rfl

theorem Plan.runBy_id (perform : (task : Task) → Eval task.Result) {α : Type} (plan : Plan α) :
    plan.runBy id perform = plan.run perform := by
  induction plan with
  | done result => rfl
  | act action next ih =>
    rw [Plan.runBy, Plan.run, Action.runBy_id]
    exact congrArg (action.run >>= ·) (funext ih)
  | call task next ih => exact congrArg (perform task >>= ·) (funext ih)
  | within env inner next ih ihn =>
    rw [Plan.runBy, Plan.run, ih]
    exact congrArg (Eval.inEnvironment env (inner.run perform) >>= ·) (funext ihn)

/-- **Evaluation reads the numbers as they are.** -/
theorem Task.runBy_id (rounds depth : Nat) (task : Task) :
    task.runBy id rounds depth = task.run rounds depth := by
  induction depth generalizing task with
  | zero => rw [Task.run_zero, Task.runBy]
  | succ depth ih =>
    have hperform : (Task.runBy id rounds depth : (task : Task) → Eval task.Result) =
        Task.run rounds depth := funext ih
    rw [Task.run_succ, Task.runBy, Plan.runBy_id, hperform]

namespace Relabel

variable (F : Relabel)

/-! ## Relabelled actions -/

/-- **The relabelled action.** -/
def action {α : Type} : Action α → Action α
  | .compute result => .compute (result.mapError F.error)
  | .tick => .tick
  | .giveUp => .giveUp
  | .lookup name hops => .lookup (F.token name) (F.hops hops)
  | .assign name hops value => .assign (F.token name) (F.hops hops) value
  | .define name value => .define (F.token name) value
  | .property object name => .property object (F.token name)
  | .instance? value => .instance? value
  | .setField index name value => .setField index name value
  | .makeFunction name params body => .makeFunction name (params.map F.token) (F.stmts body)
  | .declareFunction name params body =>
    .declareFunction (F.token name) (params.map F.token) (F.stmts body)
  | .declareClass name methods => .declareClass (F.token name) (F.decls methods)
  | .print line => .print line
  | .openBlock => .openBlock
  | .openCall closure args => .openCall (F.closure closure) args
  | .receiver closure => .receiver (F.closure closure)
  | .callable? callee => .callable? callee
  | .create handle => .create handle
  | .bindMethod method object => .bindMethod (F.closure method) object
  | .native code args => .native code args

/-- The relabelled result of an action: only functions and classes change. -/
def given {α : Type} : Action α → α → α
  | .callable? _ => Option.map F.callable
  | .bindMethod _ _ => F.closure
  | _ => id

/-! ## Steps that carry over -/

/-- **A step ends as another one does, relabelled.** -/
def Carries {α : Type} (f : α → α) (step step' : Eval α) : Prop :=
  ∀ m, step' (F.machine m) = F.result f (step m)

variable {F} {α β : Type} {f : α → α} {k : β → β}

/-- Steps that carry over, one after the other, carry over. -/
theorem Carries.bind {step step' : Eval α} {next next' : α → Eval β} (h : F.Carries f step step')
    (hn : ∀ a, F.Carries k (next a) (next' (f a))) :
    F.Carries k (step >>= next) (step' >>= next') := by
  intro m
  cases hs : step m with
  | ok a m' =>
    have hs' : step' (F.machine m) = .ok (f a) (F.machine m') := by rw [h m, hs]; rfl
    rw [bind_of_ok hs, bind_of_ok hs', hn a m']
  | error s m' =>
    have hs' : step' (F.machine m) = .error (F.stop s) (F.machine m') := by rw [h m, hs]; rfl
    rw [show (step >>= next) m = .error s m' from bind_eq_error_iff.2 (.inl hs)]
    exact bind_eq_error_iff.2 (.inl hs')

theorem carries_pure (a : α) : F.Carries f (pure a) (pure (f a)) := fun _ => rfl

theorem carries_throw (s : Stop) : F.Carries f (throw s) (throw (F.stop s)) := fun _ => rfl

theorem carries_fail (e : RuntimeError) : F.Carries f (Eval.fail e) (Eval.fail (F.error e)) :=
  fun _ => rfl

/-- A computation carries over if its errors are relabelled. -/
theorem carries_ofExcept {r r' : Except RuntimeError α} (h : r' = r.mapError F.error) :
    F.Carries id (Eval.ofExcept r) (Eval.ofExcept r') := by
  subst h
  cases r with
  | ok a => exact carries_pure a
  | error e => exact carries_fail e

theorem carries_environment : F.Carries id Eval.environment Eval.environment := fun _ => rfl

/-- An operation on the heap carries over if it comes to the same on the relabelled heap. -/
theorem carries_onHeap {op op' : Heap → α × Heap}
    (h : ∀ heap, op' (F.heap heap) = (f (op heap).1, F.heap (op heap).2)) :
    F.Carries f (Eval.onHeap op) (Eval.onHeap op') := by
  intro m
  have hm := h m.heap
  change EStateM.Result.ok (op' (F.heap m.heap)).1 _ = _
  simp only [Eval.onHeap, Relabel.machine, hm]
  rfl

/-- A step in another environment carries over if the step does. -/
theorem Carries.inEnvironment {step step' : Eval α} (h : F.Carries f step step')
    (env : Environment) :
    F.Carries f (Eval.inEnvironment env step) (Eval.inEnvironment env step') := by
  intro m
  have hm : step' { F.machine m with environment := env } =
      F.result f (step { m with environment := env }) := h { m with environment := env }
  simp only [Eval.inEnvironment, hm]
  cases step { m with environment := env } <;> rfl

/-! ## Frames

What is bound in frames has no labels, so only the errors of their operations change. -/

/-- Two operations on frames do the same, up to the lines of errors. -/
def FrameCarries (F : Relabel) (op op' : FrameM α) : Prop := op' = op.adaptExcept F.error

/-- The frames hold no code, so what carries over on frames carries over on machines. -/
theorem FrameCarries.onFrames {op op' : FrameM α} (h : F.FrameCarries op op') :
    F.Carries id (Eval.onFrames op) (Eval.onFrames op') := by
  subst h
  intro m
  simp only [Eval.onFrames, EStateM.adaptExcept, Relabel.machine, Relabel.heap]
  cases op m.heap.frames <;> rfl

theorem FrameCarries.bind {op op' : FrameM α} {next next' : α → FrameM β}
    (h : F.FrameCarries op op') (hn : ∀ a, F.FrameCarries (next a) (next' a)) :
    F.FrameCarries (op >>= next) (op' >>= next') := by
  have hnext : next' = fun a => (next a).adaptExcept F.error := funext hn
  subst h hnext
  funext frames
  change EStateM.bind _ _ frames = EStateM.adaptExcept F.error (EStateM.bind op next) frames
  simp only [EStateM.bind, EStateM.adaptExcept]
  cases op frames <;> rfl

theorem frameCarries_throw (e : RuntimeError) :
    F.FrameCarries (throw e : FrameM α) (throw (F.error e)) := rfl

theorem frameCarries_get : F.FrameCarries (EStateM.get : FrameM Frames) EStateM.get := rfl

theorem frameCarries_modify (change : Frames → Frames) :
    F.FrameCarries (modify change : FrameM Unit) (modify change) := rfl

theorem frameCarries_pure (a : α) : F.FrameCarries (pure a : FrameM α) (pure a) := rfl

/-- Whether a token can be a name is asked of its kind, which stays the same. -/
theorem frameCarries_requireName (name : Token) :
    F.FrameCarries (Frames.requireName name) (Frames.requireName (F.token name)) := by
  unfold Frames.requireName
  rw [token_kind]
  split
  · exact frameCarries_pure ()
  · exact frameCarries_throw _

/-- Binding a name carries over: frames go by the texts of names. -/
theorem frameCarries_define (env : Environment) (name : Token) (value : Value) :
    F.FrameCarries (Frames.define env name value) (Frames.define env (F.token name) value) :=
  (frameCarries_requireName name).bind fun _ => frameCarries_modify _

/-- Looking a name up carries over, and so does its failure. -/
theorem frameCarries_find (env : Environment) (name : Token) :
    F.FrameCarries (Frames.get env name) (Frames.get env (F.token name)) := by
  refine (frameCarries_requireName name).bind fun _ => frameCarries_get.bind fun frames => ?_
  rw [token_lexeme]
  cases frames.find? env.chain name.lexeme with
  | none => exact frameCarries_throw _
  | some found => exact frameCarries_pure _

/-- Assigning to a name carries over, and so does its failure. -/
theorem frameCarries_assign (env : Environment) (name : Token) (value : Value) :
    F.FrameCarries (Frames.assign env name value) (Frames.assign env (F.token name) value) := by
  refine (frameCarries_requireName name).bind fun _ => frameCarries_get.bind fun frames => ?_
  rw [token_lexeme]
  cases frames.find? env.chain name.lexeme with
  | none => exact frameCarries_throw _
  | some found => exact frameCarries_modify _

/-- Looking for a name at a distance carries over, and so does its failure. -/
theorem frameCarries_locateAt (env : Environment) (distance : Int) (name : Token) :
    F.FrameCarries (Frames.locateAt env distance name)
      (Frames.locateAt env distance (F.token name)) := by
  refine (frameCarries_requireName name).bind fun _ => ?_
  have hancestor : F.FrameCarries (Frames.ancestor env distance name.lexeme)
      (Frames.ancestor env distance name.lexeme) := by
    unfold Frames.ancestor
    split
    · exact frameCarries_pure _
    · exact frameCarries_throw _
  refine hancestor.bind fun frame => frameCarries_get.bind fun frames => ?_
  rw [token_lexeme]
  cases (frames.bindings frame).get? name.lexeme with
  | none => exact frameCarries_throw _
  | some value => exact frameCarries_pure _

theorem frameCarries_getAt (env : Environment) (distance : Int) (name : Token) :
    F.FrameCarries (Frames.getAt env distance name)
      (Frames.getAt env distance (F.token name)) := by
  unfold Frames.getAt
  rw [← bind_pure_comp, ← bind_pure_comp]
  exact (frameCarries_locateAt env distance name).bind fun _ => frameCarries_pure _

theorem frameCarries_assignAt (env : Environment) (distance : Int) (name : Token)
    (value : Value) :
    F.FrameCarries (Frames.assignAt env distance name value)
      (Frames.assignAt env distance (F.token name) value) :=
  (frameCarries_locateAt env distance name).bind fun _ => frameCarries_modify _

/-! ## Actions -/

theorem heap_functions_get? (heap : Heap) (index : Nat) :
    (F.heap heap).functions[index]? = heap.functions[index]?.map F.closure :=
  Array.getElem?_map

theorem heap_classes_get? (heap : Heap) (index : Nat) :
    (F.heap heap).classes[index]? = heap.classes[index]?.map F.classDef :=
  Array.getElem?_map

/-- The method of an instance is the relabelled method. -/
theorem heap_method? (heap : Heap) (object : Instance) (name : String) :
    (F.heap heap).method? object name = (heap.method? object name).map F.closure := by
  rw [Heap.method?, heap_classes_get?, Heap.method?, Option.map_bind, Option.bind_map]
  refine Option.bind_congr fun cls _ => ?_
  exact NameMap.get?_map F.closure cls.methods name

/-- What a callee refers to is relabelled, too. -/
theorem heap_callable? (heap : Heap) (callee : Value) :
    (F.heap heap).callable? callee = (heap.callable? callee).map F.callable := by
  cases callee with
  | function handle => simp [Heap.callable?, heap_functions_get?]; rfl
  | «class» handle => simp [Heap.callable?, heap_classes_get?]; rfl
  | native handle => simp [Heap.callable?]; rfl
  | _ => rfl

theorem heap_addFunction (heap : Heap) (c : Closure) :
    (F.heap heap).addFunction (F.closure c) =
      ((heap.addFunction c).1, F.heap (heap.addFunction c).2) := by
  simp [Heap.addFunction, Relabel.heap, Relabel.closure]

theorem heap_addClass (heap : Heap) (cls : ClassDef) :
    (F.heap heap).addClass (F.classDef cls) =
      ((heap.addClass cls).1, F.heap (heap.addClass cls).2) := by
  simp [Heap.addClass, Relabel.heap, Relabel.classDef]

theorem carries_define (name : Token) (value : Value) :
    F.Carries id (Eval.define name value) (Eval.define (F.token name) value) :=
  carries_environment.bind fun env => (frameCarries_define env name value).onFrames

/-- Looking a variable up carries over, by name or at its distance. -/
theorem carries_lookup (name : Token) (hops : Option Int) :
    F.Carries id (Eval.lookup name hops) (Eval.lookup (F.token name) hops) := by
  cases hops with
  | none => exact (frameCarries_find _ name).onFrames
  | some hops =>
    exact carries_environment.bind fun env => (frameCarries_getAt env hops name).onFrames

/-- Assigning to a variable carries over, by name or at its distance. -/
theorem carries_assign (name : Token) (hops : Option Int) (value : Value) :
    F.Carries id (Eval.assign name hops value) (Eval.assign (F.token name) hops value) := by
  cases hops with
  | none => exact (frameCarries_assign _ name value).onFrames
  | some hops =>
    exact carries_environment.bind fun env => (frameCarries_assignAt env hops name value).onFrames

theorem carries_pushFrame (env : Environment) :
    F.Carries id (Eval.onHeap (·.pushFrame env)) (Eval.onHeap (·.pushFrame env)) :=
  carries_onHeap fun _ => rfl

theorem carries_addFunction (c : Closure) :
    F.Carries id (Eval.onHeap (·.addFunction c)) (Eval.onHeap (·.addFunction (F.closure c))) :=
  carries_onHeap fun heap => heap_addFunction heap c

/-- A function that is made carries over with its parameters and its body. -/
theorem carries_closure (name : String) (params : List Token) (body : List Stmt) :
    F.Carries id (Eval.closure name params body)
      (Eval.closure name (params.map F.token) (F.stmts body)) :=
  carries_environment.bind fun env => carries_addFunction ⟨name, params, body, env, false⟩

/-- Names that are not read from a source stay as they are. -/
theorem token_ident_zero (hz : F.line 0 = 0) (name : String) :
    F.token (.ident name 0) = .ident name 0 := by
  rw [token_ident, hz]

/-- Binding a method carries over.  It makes a token on line zero, which has to stay there. -/
theorem carries_bindMethod (hz : F.line 0 = 0) (method : Closure) (object : Value) :
    F.Carries F.closure (Eval.bindMethod method object)
      (Eval.bindMethod (F.closure method) object) := by
  refine (carries_pushFrame method.environment).bind fun env => ?_
  have hthis : F.FrameCarries (Frames.define env (.ident "this" 0) object) _ :=
    frameCarries_define env (.ident "this" 0) object
  rw [token_ident_zero hz] at hthis
  exact hthis.onFrames.bind fun _ => carries_pure _

theorem carries_instance? (value : Value) :
    F.Carries id (Eval.instance? value) (Eval.instance? value) := by
  cases value with
  | «instance» handle => exact fun _ => rfl
  | _ => exact carries_pure none

/-- Reading a property carries over.  A method is looked for on the heap, so the two sides look at
two heaps. -/
theorem carries_property (hz : F.line 0 = 0) (object : Value) (name : Token) :
    F.Carries id (Eval.property object name) (Eval.property object (F.token name)) := by
  refine (carries_instance? object).bind fun target => ?_
  cases target with
  | none => exact carries_fail _
  | some target =>
    dsimp only [id]
    rw [token_lexeme]
    cases target.2.fields.get? name.lexeme with
    | some value => exact carries_pure value
    | none =>
      intro m
      have hget : (get : Eval Machine) m = .ok m m := rfl
      have hget' : (get : Eval Machine) (F.machine m) = .ok (F.machine m) (F.machine m) := rfl
      dsimp only
      rw [bind_of_ok hget, bind_of_ok hget',
        show (F.machine m).heap.method? target.2 name.lexeme = _ from heap_method? _ _ _]
      cases m.heap.method? target.2 name.lexeme with
      | none => rfl
      | some method =>
        exact ((carries_bindMethod hz method object).bind fun bound =>
          carries_addFunction bound) m

/-- The table of relabelled methods is the relabelled table. -/
theorem methodTable_decls (env : Environment) (methods : List FunctionDecl) :
    Eval.methodTable env (F.decls methods) = (Eval.methodTable env methods).map F.closure := by
  unfold Eval.methodTable
  have h : ∀ table : NameMap Closure, (F.decls methods).foldl
      (fun table method => table.insert method.name.lexeme
        ⟨method.name.lexeme, method.params, method.body, env, method.name.lexeme = "init"⟩)
      (table.map F.closure) = (methods.foldl
      (fun table method => table.insert method.name.lexeme
        ⟨method.name.lexeme, method.params, method.body, env, method.name.lexeme = "init"⟩)
      table).map F.closure := by
    induction methods with
    | nil => exact fun _ => rfl
    | cons method methods ih =>
      intro table
      rw [decls, List.foldl_cons, List.foldl_cons, ← ih, NameMap.map_insert]
      simp only [decl_name, decl_params, decl_body, token_lexeme]
      rfl
  exact h .empty

/-- Declaring a class carries over with its methods. -/
theorem carries_declareClass (name : Token) (methods : List FunctionDecl) :
    F.Carries id (Eval.declareClass name methods)
      (Eval.declareClass (F.token name) (F.decls methods)) := by
  refine (carries_define name .nil).bind fun _ => carries_environment.bind fun env => ?_
  dsimp only [id]
  have hmake : F.Carries id
      (Eval.onHeap (·.addClass ⟨name.lexeme, Eval.methodTable env methods⟩))
      (Eval.onHeap (·.addClass
        ⟨(F.token name).lexeme, Eval.methodTable env (F.decls methods)⟩)) := by
    rw [methodTable_decls]
    exact carries_onHeap fun heap =>
      heap_addClass heap ⟨name.lexeme, Eval.methodTable env methods⟩
  exact hmake.bind fun cls => (frameCarries_assign env name cls).onFrames

/-- Binding parameters to arguments carries over. -/
theorem carries_bindParameters (env : Environment) (params : List Token) (args : List Value) :
    F.Carries id (Eval.bindParameters env params args)
      (Eval.bindParameters env (params.map F.token) args) := by
  induction params generalizing args with
  | nil => exact carries_pure ()
  | cons param params ih =>
    cases args with
    | nil => exact carries_pure ()
    | cons arg args => exact (frameCarries_define env param arg).onFrames.bind fun _ => ih args

/-- **Actions carry over to relabelled trees.** -/
theorem carries_action (hz : F.line 0 = 0) (read : Option Int → Option Int) (a : Action α) :
    F.Carries (F.given a) (a.runBy (read ∘ F.hops)) ((F.action a).runBy read) := by
  cases a with
  | compute result => exact carries_ofExcept rfl
  | tick => exact fun _ => rfl
  | giveUp => exact carries_throw _
  | lookup name hops => exact carries_lookup name _
  | assign name hops value => exact carries_assign name _ value
  | define name value => exact carries_define name value
  | property object name => exact carries_property hz object name
  | instance? value => exact carries_instance? value
  | setField index name value => exact fun _ => rfl
  | makeFunction name params body => exact carries_closure name params body
  | declareFunction name params body =>
    exact (carries_closure name.lexeme params body).bind fun v => carries_define name v
  | declareClass name methods => exact carries_declareClass name methods
  | print line => exact fun _ => rfl
  | openBlock => exact carries_environment.bind fun env => carries_pushFrame env
  | openCall closure args =>
    refine (carries_pushFrame closure.environment).bind fun env => ?_
    exact (carries_bindParameters env closure.params args).bind fun _ => carries_pure env
  | receiver closure =>
    have hthis : F.FrameCarries (Frames.getAt closure.environment 0 (.ident "this" 0)) _ :=
      frameCarries_getAt closure.environment 0 (.ident "this" 0)
    rw [token_ident_zero hz] at hthis
    exact hthis.onFrames
  | callable? callee =>
    intro m
    exact congrArg (EStateM.Result.ok · (F.machine m)) (heap_callable? m.heap callee)
  | create handle => exact fun _ => rfl
  | bindMethod method object => exact carries_bindMethod hz method object
  | native code args =>
    obtain ⟨name, arity, action⟩ := code
    cases action with
    | clock => exact fun _ => rfl
    | collect => exact carries_pure _

end Relabel

/-! ## Plans -/

/-- **A plan is another one relabelled**: the same actions and nodes, relabelled, whatever they
result in. -/
inductive Plan.Relabelled (F : Relabel) : {α : Type} → Plan α → Plan α → Prop where
  | done {α : Type} (result : α) : Plan.Relabelled F (.done result) (.done result)
  | act {α β : Type} (action : Action β) {next next' : β → Plan α}
      (h : ∀ b, Plan.Relabelled F (next b) (next' (F.given action b))) :
      Plan.Relabelled F (.act action next) (.act (F.action action) next')
  | eval {α : Type} (e : Expr) {next next' : Value → Plan α}
      (h : ∀ v, Plan.Relabelled F (next v) (next' v)) :
      Plan.Relabelled F (.call (.expr e) next) (.call (.expr (F.expr e)) next')
  | exec {α : Type} (s : Stmt) {next next' : Outcome → Plan α}
      (h : ∀ outcome, Plan.Relabelled F (next outcome) (next' outcome)) :
      Plan.Relabelled F (.call (.stmt s) next) (.call (.stmt (F.stmt s)) next')
  | within {α β : Type} (env : Environment) {inner inner' : Plan β} {next next' : β → Plan α}
      (hi : Plan.Relabelled F inner inner') (h : ∀ b, Plan.Relabelled F (next b) (next' b)) :
      Plan.Relabelled F (.within env inner next) (.within env inner' next')

section Plans

variable {F : Relabel} {α : Type}

/-- Following a plan carries over, if what its nodes do carries over. -/
theorem Plan.Relabelled.carries (hz : F.line 0 = 0) {read : Option Int → Option Int}
    {perform perform' : (task : Task) → Eval task.Result}
    (he : ∀ e, F.Carries id (perform (.expr e)) (perform' (.expr (F.expr e))))
    (hs : ∀ s, F.Carries id (perform (.stmt s)) (perform' (.stmt (F.stmt s))))
    {plan plan' : Plan α} (h : plan.Relabelled F plan') :
    F.Carries id (plan.runBy (read ∘ F.hops) perform) (plan'.runBy read perform') := by
  induction h with
  | done result => exact Relabel.carries_pure result
  | act action _ ih => exact (Relabel.carries_action hz read action).bind ih
  | eval e _ ih => exact (he e).bind ih
  | exec s _ ih => exact (hs s).bind ih
  | within env _ _ ih ihn => exact (ih.inEnvironment env).bind ihn

/-- Evaluating expressions in a row is relabelled part by part. -/
theorem Plan.relabelled_evalAll (es : List Expr) {next next' : List Value → Plan α}
    (h : ∀ vs, (next vs).Relabelled F (next' vs)) :
    (Plan.evalAll es next).Relabelled F (Plan.evalAll (F.exprs es) next') := by
  induction es generalizing next next' with
  | nil => exact h []
  | cons e es ih => exact .eval e fun v => ih fun vs => h (v :: vs)

/-- Executing statements in a row is relabelled part by part. -/
theorem Plan.relabelled_execAll (ss : List Stmt) :
    (Plan.execAll ss).Relabelled F (Plan.execAll (F.stmts ss)) := by
  induction ss with
  | nil => exact .done _
  | cons s ss ih =>
    refine .exec s fun outcome => ?_
    cases outcome with
    | returned value => exact .done _
    | normal value => exact ih

/-- A computation that fails in the same way, on the new line. -/
theorem Plan.Relabelled.compute {β : Type} {r r' : Except RuntimeError β} {next next' : β → Plan α}
    (hr : r' = r.mapError F.error) (h : ∀ b, (next b).Relabelled F (next' b)) :
    (Plan.act (.compute r) next).Relabelled F (.act (.compute r') next') := by
  subst hr
  exact .act (.compute r) h

theorem Relabel.truth_token (v : Value) (token? : Option Token) :
    v.truth (token?.map F.token) = (v.truth token?).mapError F.error := by
  unfold Value.truth
  cases v.truth? with
  | some b => rfl
  | none => cases token? <;> rfl

theorem Relabel.toNumber_token (v : Value) (op : Token) :
    v.toNumber (F.token op) = (v.toNumber op).mapError F.error := by
  cases v <;> rfl

/-- A relabelled operator gives the same value, or the relabelled error. -/
theorem Relabel.unaryValue_token (origin : Nat) (op : Token) (v : Value) :
    unaryValue origin (F.token op) v = (unaryValue origin op v).mapError F.error := by
  unfold unaryValue
  rw [Relabel.token_kind]
  split
  · rw [Relabel.toNumber_token]
    cases v.toNumber op <;> rfl
  · rw [show v.truth (some (F.token op)) = _ from Relabel.truth_token v (some op)]
    cases v.truth (some op) <;> rfl
  · rfl

theorem Relabel.add_token (origin : Nat) (left right : Value) (op : Token) :
    left.add origin right (F.token op) = (left.add origin right op).mapError F.error := by
  unfold Value.add
  split
  · rfl
  · split <;> rfl

/-- A relabelled operator gives the same value, or the relabelled error. -/
theorem Relabel.binaryValue_token (origin : Nat) (op : Token) (left right : Value) :
    binaryValue origin (F.token op) left right =
      (binaryValue origin op left right).mapError F.error := by
  unfold binaryValue
  rw [Relabel.token_kind]
  split
  · exact Relabel.add_token origin left right op
  · rfl
  · rfl
  · rw [Relabel.toNumber_token, Relabel.toNumber_token]
    cases left.toNumber op with
    | error e => rfl
    | ok x =>
      cases right.toNumber op with
      | error e => rfl
      | ok y =>
        have hx : (Except.ok x : Except RuntimeError Float).mapError F.error = .ok x := rfl
        have hy : (Except.ok y : Except RuntimeError Float).mapError F.error = .ok y := rfl
        rw [hx, hy]
        dsimp only [bind, Except.bind]
        split <;> rfl

theorem Plan.relabelled_repeatWhile (condition : Expr) (body : Stmt) (n : Nat) :
    (Plan.repeatWhile condition body n).Relabelled F
      (Plan.repeatWhile (F.expr condition) (F.stmt body) n) := by
  induction n with
  | zero => exact .act .giveUp fun outcome => .done outcome
  | succ n ih =>
    refine .eval condition fun v => .compute (Relabel.truth_token v none) fun holds => ?_
    cases holds with
    | false => exact .done _
    | true =>
      refine .exec body fun outcome => ?_
      cases outcome with
      | returned value => exact .done _
      | normal value => exact ih

/-- Running a function is relabelled with its code, if what comes after it is. -/
theorem Plan.relabelled_invoke (closure : Closure) (args : List Value)
    {next next' : Value → Plan α} (h : ∀ v, (next v).Relabelled F (next' v)) :
    (Plan.invoke closure args next).Relabelled F (Plan.invoke (F.closure closure) args next') := by
  refine .act (.openCall closure args) fun env => ?_
  refine .within env (Plan.relabelled_execAll closure.body) fun outcome => ?_
  have hinit : (F.closure closure).initializer = closure.initializer := rfl
  rw [hinit]
  split
  · exact .act (.receiver closure) h
  · cases outcome with
    | returned value => exact h value
    | normal value => exact h .nil

theorem Relabel.initializer?_classDef (cls : ClassDef) :
    (F.classDef cls).initializer? = cls.initializer?.map F.closure :=
  NameMap.get?_map F.closure cls.methods "init"

/-- Making an instance is relabelled with the class. -/
theorem Plan.relabelled_construct (handle : Handle) (cls : ClassDef) (args : List Value) :
    (Plan.construct handle cls args).Relabelled F
      (Plan.construct handle (F.classDef cls) args) := by
  refine .act (.create handle) fun object => ?_
  rw [Relabel.initializer?_classDef]
  cases cls.initializer? with
  | none => exact .done _
  | some initializer =>
    refine .act (.bindMethod initializer object) fun bound => ?_
    exact Plan.relabelled_invoke bound args fun _ => .done object

theorem Relabel.arity_callable (callable : Callable) :
    (F.callable callable).arity = callable.arity := by
  cases callable with
  | function closure => simp [Relabel.callable, Callable.arity, Closure.arity, Relabel.closure]
  | native code => rfl
  | «class» handle cls =>
    simp only [Relabel.callable, Callable.arity, ClassDef.arity, Relabel.initializer?_classDef]
    cases cls.initializer? with
    | none => rfl
    | some initializer => simp [Closure.arity, Relabel.closure]

/-- Calling a value is relabelled with the callable that it refers to on the heap. -/
theorem Plan.relabelled_apply (callee : Value) (paren : Token) (args : List Value) :
    (Plan.apply callee paren args).Relabelled F (Plan.apply callee (F.token paren) args) := by
  refine .act (.callable? callee) fun callable => ?_
  cases callable with
  | none => exact .compute rfl fun v => .done v
  | some callable =>
    dsimp only [Relabel.given, Option.map]
    rw [Relabel.arity_callable]
    split
    · exact .compute rfl fun v => .done v
    · cases callable with
      | function closure => exact Plan.relabelled_invoke closure args fun v => .done v
      | native code => exact .act (.native code args) fun v => .done v
      | «class» handle cls => exact Plan.relabelled_construct handle cls args

/-- **The plan of a relabelled expression** is its plan, relabelled. -/
theorem Expr.plan_relabelled (e : Expr) : e.plan.Relabelled F (F.expr e).plan := by
  cases e with
  | literal value => exact .done value
  | «variable» name hops scopes => exact .act (.lookup name hops) fun v => .done v
  | assign name value hops scopes =>
    exact .eval value fun v => .act (.assign name hops v) fun _ => .done v
  | group inner => exact .eval inner fun v => .done v
  | unary op operand =>
    exact .eval operand fun v => .act .tick fun origin =>
      .compute (Relabel.unaryValue_token origin op v) fun v => .done v
  | binary left op right =>
    exact .eval left fun a => .eval right fun b => .act .tick fun origin =>
      .compute (Relabel.binaryValue_token origin op a b) fun v => .done v
  | logical left op right =>
    refine .eval left fun a => .compute (Relabel.truth_token a (some op)) fun holds => ?_
    rw [Relabel.token_kind]
    split
    · exact .done _
    · exact .eval right fun b => .compute (Relabel.truth_token b (some op)) fun _ => .done _
  | conditional condition whenTrue whenFalse =>
    refine .eval condition fun v => .compute (Relabel.truth_token v none) fun holds => ?_
    cases holds with
    | true => exact .eval whenTrue fun v => .done v
    | false => exact .eval whenFalse fun v => .done v
  | sequence items => exact Plan.relabelled_evalAll items fun vs => .done (Value.list vs)
  | call callee paren args =>
    exact .eval callee fun f => Plan.relabelled_evalAll args fun vs =>
      Plan.relabelled_apply f paren vs
  | lambda keyword params body =>
    exact .act (.makeFunction "anonymous" params body) fun v => .done v
  | get object name => exact .eval object fun o => .act (.property o name) fun v => .done v
  | set object name value =>
    refine .eval object fun o => .act (.instance? o) fun target => ?_
    cases target with
    | none => exact .compute rfl fun v => .done v
    | some target =>
      exact .eval value fun v => .act (.setField target.1 name.lexeme v) fun _ => .done v
  | this keyword hops scopes =>
    exact .act (.lookup (.ident "this" keyword.line) hops) fun v => .done v

/-- **The plan of a relabelled statement** is its plan, relabelled. -/
theorem Stmt.plan_relabelled (rounds : Nat) (s : Stmt) :
    (s.plan rounds).Relabelled F ((F.stmt s).plan rounds) := by
  cases s with
  | expression inner => exact .eval inner fun v => .done _
  | print inner => exact .eval inner fun v => .act (.print v.text) fun _ => .done _
  | var name initializer =>
    cases initializer with
    | none => exact .act (.define name .nil) fun _ => .done _
    | some initializer => exact .eval initializer fun v => .act (.define name v) fun _ => .done _
  | block statements =>
    exact .act .openBlock fun env =>
      .within env (Plan.relabelled_execAll statements) fun outcome => .done outcome
  | branch condition whenTrue whenFalse =>
    refine .eval condition fun v => .compute (Relabel.truth_token v none) fun holds => ?_
    cases holds with
    | true => exact .exec whenTrue fun outcome => .done outcome
    | false =>
      cases whenFalse with
      | none => exact .done _
      | some whenFalse => exact .exec whenFalse fun outcome => .done outcome
  | loop condition body => exact Plan.relabelled_repeatWhile condition body rounds
  | function f =>
    cases f with
    | mk name params body => exact .act (.declareFunction name params body) fun _ => .done _
  | «return» keyword value =>
    cases value with
    | none => exact .done _
    | some value => exact .eval value fun v => .done _
  | «class» name methods => exact .act (.declareClass name methods) fun _ => .done _

end Plans

/-! ## Nodes -/

section Nodes

variable {F : Relabel} {read : Option Int → Option Int} {rounds : Nat}

/-- **Evaluation carries over to relabelled trees.** -/
theorem Relabel.carries_runBy (hz : F.line 0 = 0) (depth : Nat) :
    (∀ e, F.Carries id ((Task.expr e).runBy (read ∘ F.hops) rounds depth)
      ((Task.expr (F.expr e)).runBy read rounds depth)) ∧
    ∀ s, F.Carries id ((Task.stmt s).runBy (read ∘ F.hops) rounds depth)
      ((Task.stmt (F.stmt s)).runBy read rounds depth) := by
  induction depth with
  | zero => exact ⟨fun _ => carries_throw .tooDeep, fun _ => carries_throw .tooDeep⟩
  | succ depth ih =>
    exact ⟨fun e => e.plan_relabelled.carries hz ih.1 ih.2,
      fun s => (s.plan_relabelled rounds).carries hz ih.1 ih.2⟩

end Nodes

/-! ## Programs -/

section Programs

variable {limits : Limits}

/-- Executes statements in order, with the numbers at references read through `read`. -/
def execAllBy (read : Option Int → Option Int) (limits : Limits) : Value → List Stmt → Eval Value
  | value, [] => return value
  | _, s :: rest => do
    let outcome ← (Task.stmt s).runBy read limits.rounds limits.depth
    execAllBy read limits outcome.value rest

theorem execAllBy_id (value : Value) (ss : List Stmt) :
    execAllBy id limits value ss = execAll limits value ss := by
  induction ss generalizing value with
  | nil => rfl
  | cons s ss ih =>
    rw [execAllBy, execAll, Task.runBy_id]
    exact congrArg (exec limits.rounds limits.depth s >>= ·)
      (funext fun outcome => ih outcome.value)

/-- Execution in order carries over to relabelled statements. -/
theorem Relabel.carries_execAllBy {F : Relabel} (hz : F.line 0 = 0)
    (read : Option Int → Option Int) (value : Value) (ss : List Stmt) :
    F.Carries id (execAllBy (read ∘ F.hops) limits value ss)
      (execAllBy read limits value (F.stmts ss)) := by
  induction ss generalizing value with
  | nil => exact carries_pure value
  | cons s ss ih => exact ((carries_runBy hz limits.depth).2 s).bind fun outcome => ih outcome.value

end Programs

end ScopedScript

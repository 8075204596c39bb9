import ScopedScript.Proofs.Moments
import ScopedScript.Proofs.Operators
import ScopedScript.Proofs.Policy
import ScopedScript.Proofs.Scope.Code

/-!
# Well-formed code is never to blame

Some run-time errors blame the tree that is executed: a variable whose name is no identifier, or
an operator that is none.  Well-formed trees have no such nodes.  But functions outlive the trees
they are declared in, so the code on the heap has to be well formed as well: it is, as long as
only well-formed trees are executed, and then no execution ends with an error that blames a tree.

## Main definitions

* `RuntimeFault.blamesTree`: the causes that only a malformed tree brings about.
* `Heap.CodeWellFormed P`: the functions and methods on the heap have well-formed code.
* `Action.Needs`, `Action.Yields`: what the actions need and what they yield.
* `Plan.Orderly P`: plans that keep the code well formed and blame no tree.

## Main results

* `Action.orderly`: an action that has what it needs keeps the code well formed and blames no tree.
* `Expr.plan_orderly`, `Stmt.plan_orderly`: in the plan of a well-formed node all actions have it.
* `Task.WellFormed.blamesTree_eq_false`, `Task.WellFormed.code_after`: so the evaluation of the node
  blames no tree, and leaves well-formed code.
-/

namespace ScopedScript

/-! ## Errors that blame the tree -/

/-- **Whether a cause is a malformed tree**: a name that is no identifier, or an operator that is
none. -/
def RuntimeFault.blamesTree : RuntimeFault → Bool
  | notAName _ | unknownUnary _ | unknownBinary _ => true
  | _ => false

/-- The ways of ending early that blame the tree. -/
def Stop.blamesTree : Stop → Bool
  | error e => e.fault.blamesTree
  | tooDeep | tooLong => false

section Operators

variable {origin : Nat} {e : RuntimeError} {op : Token}

/-- The prefix operators blame their operand only. -/
theorem unaryValue_blamesTree {operand : Value} (ho : op.kind ∈ [TokenKind.bang, .minus])
    (h : unaryValue origin op operand = .error e) : e.fault.blamesTree = false := by
  rcases unaryValue_eq_error h with rfl | rfl | ⟨hn, -⟩
  · rfl
  · rfl
  · exact absurd ho hn

/-- A binary operator that is neither an addition nor a comparison for equality is one on
numbers. -/
theorem numberOperator?_isSome {kind : TokenKind} (hk : kind ∈ binaryKinds)
    (hn : kind ∉ [TokenKind.plus, .equalEqual, .bangEqual]) (x y : Float) :
    (numberOperator? origin kind x y).isSome = true := by
  simp only [binaryKinds, Tier.operators, List.cons_append, List.nil_append, List.mem_cons,
    List.not_mem_nil, or_false] at hk
  rcases hk with rfl | rfl | rfl | rfl | rfl | rfl | rfl | rfl | rfl | rfl
  all_goals first | rfl | exact absurd (by decide) hn

/-- The binary operators blame their operands only. -/
theorem binaryValue_blamesTree {left right : Value} (ho : op.kind ∈ binaryKinds)
    (h : binaryValue origin op left right = .error e) : e.fault.blamesTree = false := by
  rcases binaryValue_eq_error h with rfl | ⟨operand, rfl⟩ | ⟨hn, ⟨x, y, hnone⟩, -⟩
  · rfl
  · rfl
  · have hsome : (numberOperator? origin op.kind x y).isSome = true :=
      numberOperator?_isSome ho hn x y
    rw [hnone] at hsome
    cases hsome

end Operators

/-! ## Names in frames -/

/-- An operation on the frames that blames no tree. -/
def FrameM.Blameless {α : Type} (op : FrameM α) : Prop :=
  ∀ ⦃frames e frames'⦄, op frames = .error e frames' → e.fault.blamesTree = false

namespace Frames

variable {α β : Type} {env : Environment} {name : Token}

/-- Blameless operations one after the other are blameless. -/
theorem blameless_bind {op : FrameM α} {next : α → FrameM β} (h : FrameM.Blameless op)
    (hn : ∀ a, FrameM.Blameless (next a)) : FrameM.Blameless (op >>= next) := by
  intro frames e frames' he
  rcases bind_eq_error_iff.1 he with he | ⟨a, mid, -, he⟩
  · exact h he
  · exact hn a he

/-- Failing is blameless if the fault is not the tree's. -/
theorem blameless_throw {e : RuntimeError} (h : e.fault.blamesTree = false) :
    FrameM.Blameless (throw e : FrameM α) := by
  intro frames e' frames' he
  cases he
  exact h

theorem blameless_pure (a : α) : FrameM.Blameless (pure a) := by
  intro frames e frames' he
  cases he

theorem blameless_modify (f : Frames → Frames) : FrameM.Blameless (modify f) := by
  intro frames e frames' he
  cases he

theorem blameless_read : FrameM.Blameless EStateM.get := by
  intro frames e frames' he
  cases he

/-- A name that is an identifier is not refused. -/
theorem blameless_requireName (hk : name.kind = .identifier) :
    FrameM.Blameless (requireName name) := by
  intro frames e frames' he
  rw [requireName_eq hk] at he
  cases he

/-- Binding an identifier is blameless; only other tokens cannot be names. -/
theorem blameless_define (hk : name.kind = .identifier) (value : Value) :
    FrameM.Blameless (define env name value) :=
  blameless_bind (blameless_requireName hk) fun _ => blameless_modify _

theorem blameless_get (hk : name.kind = .identifier) : FrameM.Blameless (get env name) := by
  refine blameless_bind (blameless_requireName hk) fun _ =>
    blameless_bind blameless_read fun frames => ?_
  split
  · exact blameless_pure _
  · exact blameless_throw rfl

theorem blameless_assign (hk : name.kind = .identifier) (value : Value) :
    FrameM.Blameless (assign env name value) := by
  refine blameless_bind (blameless_requireName hk) fun _ =>
    blameless_bind blameless_read fun frames => ?_
  split
  · exact blameless_modify _
  · exact blameless_throw rfl

/-- A distance that leads out of the frames is no fault of the tree. -/
theorem blameless_ancestor (distance : Int) (subject : String) :
    FrameM.Blameless (ancestor env distance subject) := by
  unfold ancestor
  split
  · exact blameless_pure _
  · exact blameless_throw rfl

/-- Looking for an identifier at a distance is blameless. -/
theorem blameless_locateAt (hk : name.kind = .identifier) (distance : Int) :
    FrameM.Blameless (locateAt env distance name) := by
  refine blameless_bind (blameless_requireName hk) fun _ =>
    blameless_bind (blameless_ancestor distance _) fun frame =>
      blameless_bind blameless_read fun frames => ?_
  split
  · exact blameless_pure _
  · exact blameless_throw rfl

theorem blameless_getAt (hk : name.kind = .identifier) (distance : Int) :
    FrameM.Blameless (getAt env distance name) := by
  rw [getAt, ← bind_pure_comp]
  exact blameless_bind (blameless_locateAt hk distance) fun _ => blameless_pure _

theorem blameless_assignAt (hk : name.kind = .identifier) (distance : Int) (value : Value) :
    FrameM.Blameless (assignAt env distance name value) :=
  blameless_bind (blameless_locateAt hk distance) fun _ => blameless_modify _

end Frames

/-! ## Code on the heap -/

section Code

variable (P : Token → Prop)

/-- The parameters of a function are names and its body is well formed. -/
structure FunctionWellFormed (params : List Token) (body : List Stmt) : Prop where
  names : ∀ param ∈ params, param.kind = .identifier
  body : ∀ s ∈ body, s.WellFormed P

/-- A function or method with well-formed code. -/
def Closure.WellFormed (closure : Closure) : Prop :=
  FunctionWellFormed P closure.params closure.body

/-- A class whose methods have well-formed code. -/
def ClassDef.WellFormed (cls : ClassDef) : Prop :=
  ∀ name method, cls.methods.get? name = some method → method.WellFormed P

/-- **The functions and methods on the heap have well-formed code.** -/
structure Heap.CodeWellFormed (heap : Heap) : Prop where
  functions : ∀ closure ∈ heap.functions, closure.WellFormed P
  classes : ∀ cls ∈ heap.classes, cls.WellFormed P

end Code

variable {P : Token → Prop}

theorem ParametersWellFormed.function {params : List Token} {body : List Stmt}
    (hp : ParametersWellFormed P params) (hb : Stmt.AllWellFormed P body) :
    FunctionWellFormed P params body :=
  ⟨fun param hm => (hp.2 param hm).2, fun _ hs => hb.of_mem hs⟩

theorem FunctionDecl.WellFormed.function {f : FunctionDecl} (h : f.WellFormed P) :
    FunctionWellFormed P f.params f.body := by
  cases f with
  | mk name params body => exact h.2.1.function h.2.2

namespace Heap.CodeWellFormed

variable {heap : Heap}

/-- Well-formed code stays so when a well-formed function is added. -/
theorem addFunction (h : heap.CodeWellFormed P) {closure : Closure} (hc : closure.WellFormed P) :
    (heap.addFunction closure).2.CodeWellFormed P := by
  refine ⟨fun other ho => ?_, h.classes⟩
  rcases Array.mem_push.1 ho with ho | rfl
  · exact h.functions other ho
  · exact hc

/-- Well-formed code stays so when a class with well-formed methods is added. -/
theorem addClass (h : heap.CodeWellFormed P) {cls : ClassDef} (hc : cls.WellFormed P) :
    (heap.addClass cls).2.CodeWellFormed P := by
  refine ⟨h.functions, fun other ho => ?_⟩
  rcases Array.mem_push.1 ho with ho | rfl
  · exact h.classes other ho
  · exact hc

/-- Methods that are found are well-formed. -/
theorem method (h : heap.CodeWellFormed P) {object : Instance} {name : String} {method : Closure}
    (hm : heap.method? object name = some method) : method.WellFormed P := by
  obtain ⟨cls, hc, hm⟩ := Option.bind_eq_some_iff.1 hm
  exact h.classes cls (Array.mem_of_getElem? hc) name method hm

end Heap.CodeWellFormed

/-! ## Steps -/

/-- **A step that keeps the code well formed and blames no tree**, and ends with `ensures` if it
succeeds. -/
def Eval.Orderly (P : Token → Prop) {α : Type} (step : Eval α) (machine : Machine)
    (ensures : α → Prop) : Prop :=
  (∀ a machine', step machine = .ok a machine' →
      machine'.heap.CodeWellFormed P ∧ ensures a) ∧
    ∀ stop machine', step machine = .error stop machine' →
      machine'.heap.CodeWellFormed P ∧ stop.blamesTree = false

namespace Eval.Orderly

variable {α β : Type} {step : Eval α} {machine machine' : Machine} {ensures : α → Prop}

theorem of_ok {a : α} (h : step machine = .ok a machine') (hm : machine'.heap.CodeWellFormed P)
    (he : ensures a) : Orderly P step machine ensures := by
  constructor
  · intro b there hs
    rw [h] at hs
    cases hs
    exact ⟨hm, he⟩
  · intro stop there hs
    rw [h] at hs
    cases hs

/-- A step that fails is orderly if the tree is not to blame. -/
theorem of_error {stop : Stop} (h : step machine = .error stop machine')
    (hm : machine'.heap.CodeWellFormed P) (hb : stop.blamesTree = false) :
    Orderly P step machine ensures := by
  constructor
  · intro b there hs
    rw [h] at hs
    cases hs
  · intro stop' there hs
    rw [h] at hs
    cases hs
    exact ⟨hm, hb⟩

/-- Orderly steps one after the other are orderly. -/
theorem bind {next : α → Eval β} {ensures' : β → Prop} (h : Orderly P step machine ensures)
    (hn : ∀ a there, there.heap.CodeWellFormed P → ensures a →
      Orderly P (next a) there ensures') :
    Orderly P (step >>= next) machine ensures' := by
  constructor
  · intro b there hs
    obtain ⟨a, mid, ha, hs⟩ := bind_eq_ok_iff.1 hs
    obtain ⟨hm, he⟩ := h.1 a mid ha
    exact (hn a mid hm he).1 b there hs
  · intro stop there hs
    rcases bind_eq_error_iff.1 hs with hs | ⟨a, mid, ha, hs⟩
    · exact h.2 stop there hs
    · obtain ⟨hm, he⟩ := h.1 a mid ha
      exact (hn a mid hm he).2 stop there hs

/-- An operation on the frames leaves the code alone. -/
theorem onFrames {op : FrameM α} (ho : FrameM.Blameless op) (hm : machine.heap.CodeWellFormed P) :
    Orderly P (Eval.onFrames op) machine fun _ => True := by
  cases hr : op machine.heap.frames with
  | ok a frames => exact .of_ok (onFrames_of_ok hr) ⟨hm.functions, hm.classes⟩ trivial
  | error e frames => exact .of_error (onFrames_of_error hr) ⟨hm.functions, hm.classes⟩ (ho hr)

/-- So does an operation that reads the current environment first. -/
theorem onFramesHere {op : Environment → FrameM α} (ho : ∀ env, FrameM.Blameless (op env))
    (hm : machine.heap.CodeWellFormed P) :
    Orderly P (Eval.environment >>= fun env => Eval.onFrames (op env)) machine fun _ => True := by
  have hread : Orderly P Eval.environment machine fun _ => True := .of_ok rfl hm trivial
  exact hread.bind fun env _ hm _ => onFrames (ho env) hm

end Eval.Orderly

/-! ## Actions -/

namespace Action

/-- **What an action needs** to keep the code well formed and to blame no tree. -/
def Needs (P : Token → Prop) {α : Type} : Action α → Prop
  | compute result => ∀ e, result = .error e → e.fault.blamesTree = false
  | lookup name _ | assign name _ _ | define name _ => name.kind = .identifier
  | makeFunction _ params body => FunctionWellFormed P params body
  | declareFunction name params body =>
    name.kind = .identifier ∧ FunctionWellFormed P params body
  | declareClass name methods =>
    name.kind = .identifier ∧ ∀ f ∈ methods, FunctionWellFormed P f.params f.body
  | openCall closure _ => closure.WellFormed P
  | bindMethod method _ => method.WellFormed P
  | tick | giveUp | property _ _ | instance? _ | setField _ _ _ | print _ | openBlock | receiver _
  | callable? _ | create _ | native _ _ => True

/-- **What an action yields**: code that it finds on the heap is well formed. -/
def Yields (P : Token → Prop) {α : Type} : Action α → α → Prop
  | callable? _, callable =>
    (∀ closure, callable = some (.function closure) → closure.WellFormed P) ∧
      ∀ handle cls, callable = some (.class handle cls) → cls.WellFormed P
  | bindMethod _ _, bound => bound.WellFormed P
  | _, _ => True

variable {α : Type} {machine : Machine}

theorem orderly_define {name : Token} (hk : name.kind = .identifier) (value : Value)
    (hm : machine.heap.CodeWellFormed P) :
    (Eval.define name value).Orderly P machine fun _ => True :=
  .onFramesHere (fun _ => Frames.blameless_define hk value) hm

theorem orderly_closure {label : String} {params : List Token} {body : List Stmt}
    (hf : FunctionWellFormed P params body) (hm : machine.heap.CodeWellFormed P) :
    (Eval.closure label params body).Orderly P machine fun _ => True :=
  .of_ok rfl (hm.addFunction hf) trivial

/-- A class is declared with the methods of its declaration, in the current environment. -/
theorem orderly_declareClass {name : Token} {methods : List FunctionDecl}
    (hk : name.kind = .identifier) (hf : ∀ f ∈ methods, FunctionWellFormed P f.params f.body)
    (hm : machine.heap.CodeWellFormed P) :
    (Eval.declareClass name methods).Orderly P machine fun _ => True := by
  refine (orderly_define hk .nil hm).bind fun _ mid hm _ => ?_
  have hclass : ∀ env, (⟨name.lexeme, Eval.methodTable env methods⟩ : ClassDef).WellFormed P := by
    intro env label method h
    obtain ⟨f, hmem, rfl⟩ := Eval.of_methodTable h
    exact hf f hmem
  have hread : Eval.environment.Orderly P mid fun _ => True := .of_ok rfl hm trivial
  refine hread.bind fun env mid hm _ => ?_
  have hadd : (Eval.onHeap (·.addClass ⟨name.lexeme, Eval.methodTable env methods⟩)).Orderly P mid
      fun _ => True := .of_ok rfl (hm.addClass (hclass env)) trivial
  exact hadd.bind fun cls mid hm _ => .onFrames (Frames.blameless_assign hk cls) hm

/-- Parameters are bound one by one, and they are identifiers. -/
theorem orderly_bindParameters {env : Environment} {params : List Token} {args : List Value}
    (hn : ∀ param ∈ params, param.kind = .identifier) (hm : machine.heap.CodeWellFormed P) :
    (Eval.bindParameters env params args).Orderly P machine fun _ => True := by
  induction params generalizing args machine with
  | nil => exact .of_ok rfl hm trivial
  | cons param params ih =>
    cases args with
    | nil => exact .of_ok rfl hm trivial
    | cons arg args =>
      obtain ⟨hparam, hn⟩ := List.forall_mem_cons.1 hn
      have hdefine : (Eval.onFrames (Frames.define env param arg)).Orderly P machine
          fun _ => True := .onFrames (Frames.blameless_define hparam arg) hm
      exact hdefine.bind fun _ _ hm _ => ih hn hm

/-- The frame of a call is made with the parameters of a well-formed function. -/
theorem orderly_openCall {closure : Closure} {args : List Value} (hc : closure.WellFormed P)
    (hm : machine.heap.CodeWellFormed P) :
    (openCall closure args).run.Orderly P machine fun _ => True := by
  have hpush : (Eval.onHeap (·.pushFrame closure.environment)).Orderly P machine fun _ => True :=
    .of_ok rfl ⟨hm.functions, hm.classes⟩ trivial
  refine hpush.bind fun env mid hm _ => ?_
  exact (orderly_bindParameters hc.names hm).bind fun _ mid hm _ => .of_ok rfl hm trivial

/-- A method that is bound to an instance keeps its code. -/
theorem orderly_bindMethod {method : Closure} (hc : method.WellFormed P) (object : Value)
    (hm : machine.heap.CodeWellFormed P) :
    (Eval.bindMethod method object).Orderly P machine fun bound => bound.WellFormed P :=
  .of_ok (bindMethod_eq method object machine) ⟨hm.functions, hm.classes⟩ ⟨hc.names, hc.body⟩

/-- Reading a property is orderly.  A name that is no field is that of a method, which is bound to
the instance. -/
theorem orderly_property (object : Value) (name : Token) (hm : machine.heap.CodeWellFormed P) :
    (Eval.property object name).Orderly P machine fun _ => True := by
  obtain ⟨target, ht⟩ := instance?_eq object machine
  have htarget : (Eval.instance? object).Orderly P machine fun _ => True := .of_ok ht hm trivial
  refine htarget.bind fun target mid hm _ => ?_
  cases target with
  | none => exact .of_error rfl hm rfl
  | some target =>
    dsimp only
    cases target.2.fields.get? name.lexeme with
    | some value => exact .of_ok rfl hm trivial
    | none =>
      have hread : Eval.Orderly P get mid fun there => there.heap.CodeWellFormed P :=
        .of_ok rfl hm hm
      refine hread.bind fun there mid hm hthere => ?_
      cases hmethod : there.heap.method? target.2 name.lexeme with
      | none => exact .of_error rfl hm rfl
      | some method =>
        refine (orderly_bindMethod (hthere.method hmethod) object hm).bind fun bound mid hm hb => ?_
        exact .of_ok rfl (hm.addFunction hb) trivial

/-- What a value can be called as has well-formed code. -/
theorem orderly_callable (callee : Value) (hm : machine.heap.CodeWellFormed P) :
    (callable? callee).run.Orderly P machine ((callable? callee).Yields P) := by
  refine .of_ok rfl hm ⟨fun closure h => ?_, fun handle cls h => ?_⟩
  all_goals
    unfold Heap.callable? at h
    split at h
  all_goals simp only [Option.map_eq_some_iff, reduceCtorEq, and_false, exists_false] at h
  · obtain ⟨closure', hf, h⟩ := h
    cases h
    exact hm.functions _ (Array.mem_of_getElem? hf)
  · obtain ⟨cls', hc, h⟩ := h
    cases h
    exact hm.classes _ (Array.mem_of_getElem? hc)

/-- **An action that has what it needs keeps the code well formed and blames no tree.** -/
theorem orderly (action : Action α) (hn : action.Needs P) (hm : machine.heap.CodeWellFormed P) :
    action.run.Orderly P machine (action.Yields P) := by
  cases action with
  | compute result =>
    cases result with
    | ok a => exact .of_ok rfl hm trivial
    | error e => exact .of_error rfl hm (hn e rfl)
  | giveUp => exact .of_error rfl hm rfl
  | lookup name hops =>
    cases hops with
    | none => exact .onFrames (Frames.blameless_get hn) hm
    | some hops => exact .onFramesHere (fun _ => Frames.blameless_getAt hn hops) hm
  | assign name hops value =>
    cases hops with
    | none => exact .onFrames (Frames.blameless_assign hn value) hm
    | some hops => exact .onFramesHere (fun _ => Frames.blameless_assignAt hn hops value) hm
  | define name value => exact orderly_define hn value hm
  | property object name => exact orderly_property object name hm
  | instance? object =>
    obtain ⟨target, ht⟩ := instance?_eq object machine
    exact .of_ok ht hm trivial
  | makeFunction label params body => exact orderly_closure hn hm
  | declareFunction name params body =>
    exact (orderly_closure hn.2 hm).bind fun value _ hm _ => orderly_define hn.1 value hm
  | declareClass name methods => exact orderly_declareClass hn.1 hn.2 hm
  | openCall closure args => exact orderly_openCall hn hm
  | receiver closure => exact .onFrames (Frames.blameless_getAt rfl 0) hm
  | callable? callee => exact orderly_callable callee hm
  | bindMethod method object => exact orderly_bindMethod hn object hm
  | native code args =>
    obtain ⟨name, arity, action⟩ := code
    cases action <;> exact .of_ok rfl hm trivial
  | tick | setField | print | openBlock | create =>
    exact .of_ok rfl ⟨hm.functions, hm.classes⟩ trivial

end Action

/-! ## Plans -/

/-- **A plan that keeps the code well formed and blames no tree**: its actions have what they
need, whatever was yielded before, and it calls well-formed nodes. -/
def Plan.Orderly (P : Token → Prop) {α : Type} : Plan α → Prop
  | done _ => True
  | act action next => action.Needs P ∧ ∀ b, action.Yields P b → (next b).Orderly P
  | call task next => task.WellFormed P ∧ ∀ r, (next r).Orderly P
  | within _ inner next => inner.Orderly P ∧ ∀ b, (next b).Orderly P

namespace Plan

variable {α : Type}

/-- Well-formed expressions in a row are orderly. -/
theorem orderly_evalAll {es : List Expr} {next : List Value → Plan α}
    (he : ∀ e ∈ es, e.WellFormed P) (hn : ∀ vs, (next vs).Orderly P) :
    (evalAll es next).Orderly P := by
  induction es generalizing next with
  | nil => exact hn []
  | cons e es ih =>
    obtain ⟨he, hes⟩ := List.forall_mem_cons.1 he
    exact ⟨he, fun v => ih hes fun vs => hn (v :: vs)⟩

/-- Well-formed statements in a row are orderly. -/
theorem orderly_execAll {ss : List Stmt} (hs : ∀ s ∈ ss, s.WellFormed P) :
    (execAll ss).Orderly P := by
  induction ss with
  | nil => trivial
  | cons s ss ih =>
    obtain ⟨hs, hss⟩ := List.forall_mem_cons.1 hs
    refine ⟨hs, fun outcome => ?_⟩
    cases outcome with
    | returned value => trivial
    | normal value => exact ih hss

/-- A value that cannot be tested is no fault of the tree. -/
theorem needs_truth (value : Value) (token? : Option Token) :
    (Action.compute (value.truth token?)).Needs P := by
  intro e h
  rw [Value.truth_eq_error h]
  cases token? <;> rfl

/-- A loop is orderly if its condition and its body are well-formed. -/
theorem orderly_repeatWhile {condition : Expr} {body : Stmt} (hc : condition.WellFormed P)
    (hb : body.WellFormed P) (rounds : Nat) : (repeatWhile condition body rounds).Orderly P := by
  induction rounds with
  | zero => exact ⟨trivial, fun _ _ => trivial⟩
  | succ rounds ih =>
    refine ⟨hc, fun v => ⟨needs_truth v none, fun holds _ => ?_⟩⟩
    dsimp only
    split
    · refine ⟨hb, fun outcome => ?_⟩
      cases outcome with
      | returned value => trivial
      | normal value => exact ih
    · trivial

/-- Running a well-formed function is orderly if what comes after it is. -/
theorem orderly_invoke {closure : Closure} {args : List Value} {next : Value → Plan α}
    (hc : closure.WellFormed P) (hn : ∀ v, (next v).Orderly P) :
    (invoke closure args next).Orderly P := by
  refine ⟨hc, fun env _ => ⟨orderly_execAll hc.body, fun outcome => ?_⟩⟩
  dsimp only
  split
  · exact ⟨trivial, fun v _ => hn v⟩
  · cases outcome with
    | returned value => exact hn value
    | normal value => exact hn .nil

/-- Making an instance is orderly: the initializer is a method of the class, and stays so when it is
bound. -/
theorem orderly_construct {handle : Handle} {cls : ClassDef} {args : List Value}
    (hc : cls.WellFormed P) : (construct handle cls args).Orderly P := by
  refine ⟨trivial, fun object _ => ?_⟩
  dsimp only
  cases hi : cls.initializer? with
  | none => trivial
  | some initializer =>
    -- the initializer is a method of the class, and stays so when it is bound
    exact ⟨hc "init" initializer hi, fun bound hb => orderly_invoke hb fun _ => trivial⟩

/-- Calling a value is orderly: what is called is on the heap, where all code is well-formed. -/
theorem orderly_apply (callee : Value) (paren : Token) (args : List Value) :
    (apply callee paren args).Orderly P := by
  refine ⟨trivial, fun callable hc => ?_⟩
  cases callable with
  | none => exact ⟨fun _ h => by cases h; rfl, fun _ _ => trivial⟩
  | some callable =>
    dsimp only
    split
    · exact ⟨fun _ h => by cases h; rfl, fun _ _ => trivial⟩
    · cases callable with
      | function closure => exact orderly_invoke (hc.1 closure rfl) fun _ => trivial
      | native code => exact ⟨trivial, fun _ _ => trivial⟩
      | «class» handle cls => exact orderly_construct (hc.2 handle cls rfl)

end Plan

/-- **The plan of a well-formed expression** keeps the code well formed and blames no tree. -/
theorem Expr.plan_orderly {e : Expr} (he : e.WellFormed P) : e.plan.Orderly P := by
  cases e with
  | literal value => trivial
  | «variable» name hops => exact ⟨he.2, fun _ _ => trivial⟩
  | assign name value hops => exact ⟨he.2, fun _ => ⟨he.1.2, fun _ _ => trivial⟩⟩
  | group inner => exact ⟨he, fun _ => trivial⟩
  | unary op operand =>
    exact ⟨he.2.2, fun _ => ⟨trivial, fun _ _ =>
      ⟨fun _ h => unaryValue_blamesTree he.2.1 h, fun _ _ => trivial⟩⟩⟩
  | binary left op right =>
    exact ⟨he.1, fun _ => ⟨he.2.2.2, fun _ => ⟨trivial, fun _ _ =>
      ⟨fun _ h => binaryValue_blamesTree he.2.2.1 h, fun _ _ => trivial⟩⟩⟩⟩
  | logical left op right =>
    refine ⟨he.1, fun a => ⟨Plan.needs_truth a op, fun holds _ => ?_⟩⟩
    dsimp only
    split
    · trivial
    · exact ⟨he.2.2.2, fun b => ⟨Plan.needs_truth b op, fun _ _ => trivial⟩⟩
  | conditional condition whenTrue whenFalse =>
    refine ⟨he.1, fun v => ⟨Plan.needs_truth v none, fun holds _ => ?_⟩⟩
    dsimp only
    split
    · exact ⟨he.2.1, fun _ => trivial⟩
    · exact ⟨he.2.2, fun _ => trivial⟩
  | sequence items => exact Plan.orderly_evalAll (fun e hm => he.2.of_mem hm) fun _ => trivial
  | call callee paren args =>
    refine ⟨he.1, fun f => Plan.orderly_evalAll (fun e hm => he.2.2.2.of_mem hm) fun vs => ?_⟩
    exact Plan.orderly_apply f paren vs
  | lambda keyword params body => exact ⟨he.2.1.function he.2.2, fun _ _ => trivial⟩
  | get object name => exact ⟨he.1, fun _ => ⟨trivial, fun _ _ => trivial⟩⟩
  | set object name value =>
    refine ⟨he.1, fun o => ⟨trivial, fun target _ => ?_⟩⟩
    cases target with
    | none => exact ⟨fun _ h => by cases h; rfl, fun _ _ => trivial⟩
    | some target => exact ⟨he.2.2, fun _ => ⟨trivial, fun _ _ => trivial⟩⟩
  | this keyword hops => exact ⟨rfl, fun _ _ => trivial⟩

/-- **The plan of a well-formed statement** keeps the code well formed and blames no tree. -/
theorem Stmt.plan_orderly (rounds : Nat) {s : Stmt} (hs : s.WellFormed P) :
    (s.plan rounds).Orderly P := by
  cases s with
  | expression inner => exact ⟨hs, fun _ => trivial⟩
  | print inner => exact ⟨hs, fun _ => ⟨trivial, fun _ _ => trivial⟩⟩
  | var name initializer =>
    cases initializer with
    | none => exact ⟨hs.1.2, fun _ _ => trivial⟩
    | some initializer => exact ⟨hs.2, fun _ => ⟨hs.1.2, fun _ _ => trivial⟩⟩
  | block statements =>
    refine ⟨trivial, fun env _ => ⟨?_, fun _ => trivial⟩⟩
    exact Plan.orderly_execAll fun s hm => Stmt.AllWellFormed.of_mem hs hm
  | branch condition whenTrue whenFalse =>
    refine ⟨hs.1, fun v => ⟨Plan.needs_truth v none, fun holds _ => ?_⟩⟩
    dsimp only
    split
    · exact ⟨hs.2.1, fun _ => trivial⟩
    · cases whenFalse with
      | none => trivial
      | some whenFalse => exact ⟨hs.2.2.2.1, fun _ => trivial⟩
  | loop condition body => exact Plan.orderly_repeatWhile hs.1 hs.2.1 rounds
  | function decl =>
    cases decl with
    | mk name params body => exact ⟨⟨hs.1.2, hs.2.1.function hs.2.2⟩, fun _ _ => trivial⟩
  | «return» keyword value =>
    cases value with
    | none => trivial
    | some value => exact ⟨hs.2, fun _ => trivial⟩
  | «class» name methods =>
    exact ⟨⟨hs.1.2, fun f hf => (hs.2.of_mem hf).function⟩, fun _ _ => trivial⟩

/-- The plan of a well-formed task is orderly. -/
theorem Task.plan_orderly (rounds : Nat) {task : Task} (h : task.WellFormed P) :
    (task.plan rounds).Orderly P := by
  cases task with
  | expr e => exact Expr.plan_orderly h
  | stmt s => exact Stmt.plan_orderly rounds h

/-! ## Evaluation -/

/-- **Evaluation keeps the code well formed and blames no tree**, as a contract. -/
def codeContract (P : Token → Prop) : Contract where
  pre task machine := task.WellFormed P ∧ machine.heap.CodeWellFormed P
  post _ _ _ _ := True
  change machine machine' := machine.heap.CodeWellFormed P → machine'.heap.CodeWellFormed P
  blame _ _ _ _ stop := stop.blamesTree = false

/-- **An orderly plan is safe** where the code on the heap is well-formed. -/
theorem Plan.Orderly.safe {perform : (task : Task) → Eval task.Result} {α : Type} {plan : Plan α}
    {machine : Machine} {ensures : α → Machine → Prop} (h : plan.Orderly P)
    (hm : machine.heap.CodeWellFormed P)
    (he : ∀ a machine', machine'.heap.CodeWellFormed P → ensures a machine') :
    plan.Safe (codeContract P) perform (fun _ stop => stop.blamesTree = false) machine ensures := by
  induction plan generalizing machine with
  | done result => exact he result machine hm
  | act action next ih =>
    obtain ⟨ho, hf⟩ := action.orderly h.1 hm
    constructor
    · intro stop machine' hs
      obtain ⟨hm', hb⟩ := hf stop machine' hs
      exact ⟨fun _ => hm', hb⟩
    · intro b machine' hs
      obtain ⟨hm', hy⟩ := ho b machine' hs
      exact ⟨fun _ => hm', ih b (h.2 b hy) hm' he⟩
  | call task next ih =>
    exact ⟨⟨h.1, hm⟩, fun r machine' _ hc _ => ih r (h.2 r) (hc hm) he⟩
  -- the code is on the heap, so it makes no difference in which environment the plan goes on
  | within env inner next ih ihn =>
    refine ih h.1 hm fun b machine' hm' _ => ?_
    exact ihn b (h.2 b) hm' he

/-- Every task keeps the code on the heap well-formed. -/
theorem codeContract_kept (P : Token → Prop) (rounds : Nat) : (codeContract P).Kept rounds where
  refl _ h := h
  trans _ _ _ hab hbc h := hbc (hab h)
  enter _ h := h
  plan h := (Task.plan_orderly rounds h.1).safe h.2 fun _ _ _ => trivial

section Evaluation

variable {task : Task} {machine : Machine} (rounds depth : Nat)

/-- **A well-formed node is never blamed**, and neither is a node in the code on the heap. -/
theorem Task.WellFormed.blamesTree_eq_false (h : task.WellFormed P)
    (hm : machine.heap.CodeWellFormed P) {stop : Stop}
    (hf : Eval.Fails (task.run rounds depth) machine stop) : stop.blamesTree = false := by
  have hc := codeContract_kept P rounds
  obtain ⟨mo, hr, hraise⟩ := (Moment.fails_iff rounds).1
    (show Moment.Fails rounds ⟨depth, task, machine⟩ stop from hf)
  -- the moment that ends the evaluation is one of a well-formed node, too
  rcases hc.raises (hc.reaches ⟨h, hm⟩ hr) hraise with rfl | ⟨_, _, -, hb⟩
  · rfl
  · exact hb

/-- The code on the heap stays well formed, however the evaluation ends. -/
theorem Task.WellFormed.code_after (h : task.WellFormed P) (hm : machine.heap.CodeWellFormed P) :
    ((task.run rounds depth).after machine).heap.CodeWellFormed P := by
  have hends : (codeContract P).Ends (task.run rounds depth) machine fun _ _ => True :=
    (codeContract_kept P rounds).task ⟨h, hm⟩
  obtain ⟨ho, he⟩ := hends
  unfold Eval.after
  cases hr : task.run rounds depth machine with
  | ok a machine' => exact (ho a machine' hr).1 hm
  | error stop machine' => exact he stop machine' hr hm

end Evaluation

end ScopedScript

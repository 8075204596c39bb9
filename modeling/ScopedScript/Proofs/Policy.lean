import ScopedScript.Proofs.Scope.Code
import ScopedScript.Proofs.Scope.Runs

/-!
# Policies

A policy says of a heap which values, functions, methods and environments may be in use, and how
the heap may change.  Evaluation goes by a policy if a few laws hold, which are about the heap
alone: what is read from something in use is in use, and each of the seven ways to write to the
heap is a change that the policy admits.  That the actions of evaluation come down to these
reads and writes is shown here, once for all policies.

The code is taken to be well formed, as all code is that comes from a source.

## Main definitions

* `Policy`, `Policy.Lawful`: policies and their laws.
* `Policy.Allows`, `Policy.Grants`: what an action needs, and what its result may be used for.
* `Policy.Ends`: a step that goes by a policy.

## Main results

* `Policy.Lawful.act`: an action that is allowed goes by the policy.
-/

namespace ScopedScript

/-! ## Writing to the heap -/

/-- The heap with a name bound in a frame. -/
def Heap.bindIn (heap : Heap) (frame : Nat) (name : String) (value : Value) : Heap :=
  { heap with frames := heap.frames.bind frame name value }

/-- A method bound to an instance, in a new frame. -/
def Heap.bindMethod (heap : Heap) (method : Closure) (object : Value) : Closure × Heap :=
  ({ method with environment := (heap.pushFrame method.environment).1 },
    (heap.pushFrame method.environment).2.bindIn heap.frames.next "this" object)

/-- Binding a method always succeeds: there is a new frame with `this` in it. -/
theorem bindMethod_eq (method : Closure) (object : Value) (machine : Machine) :
    Eval.bindMethod method object machine =
      .ok (machine.heap.bindMethod method object).1
        { machine with heap := (machine.heap.bindMethod method object).2 } := by
  have hpush : Eval.onHeap (·.pushFrame method.environment) machine =
      .ok (machine.heap.pushFrame method.environment).1
        { machine with heap := (machine.heap.pushFrame method.environment).2 } := rfl
  rw [Eval.bindMethod, bind_of_ok hpush, bind_of_ok (onFrames_of_ok (Frames.define_eq rfl))]
  rfl

/-- The parameters and the body of a function are well formed, over scanned tokens. -/
structure WellFormedBody (params : List Token) (body : List Stmt) : Prop where
  names : ∀ param ∈ params, param.IsName Token.Scanned
  body : ∀ s ∈ body, s.WellFormed Token.Scanned

theorem FunctionDecl.WellFormed.wellFormedBody {f : FunctionDecl}
    (h : f.WellFormed Token.Scanned) : WellFormedBody f.params f.body := by
  cases f with
  | mk name params body => exact ⟨h.2.1.2, fun s hs => h.2.2.of_mem hs⟩

/-! ## Policies and their laws -/

/-- **What may be in use on a heap**, and how the heap may change. -/
structure Policy where
  heap : Heap → Prop
  value : Heap → Value → Prop
  function : Heap → Closure → Prop
  method : Heap → Closure → Prop
  environment : Heap → Environment → Prop
  change : Heap → Heap → Prop

namespace Policy

/-- The heap changes as the policy admits, into one that it admits. -/
structure Becomes (p : Policy) (heap heap' : Heap) : Prop where
  change : p.change heap heap'
  heap : p.heap heap'

/-- **The laws of a policy.** -/
structure Lawful (p : Policy) : Prop where
  refl : ∀ heap, p.change heap heap
  trans : ∀ {a b c}, p.change a b → p.change b c → p.change a c
  -- what is in use stays in use
  value_mono : ∀ {heap heap' value}, p.change heap heap' → p.value heap value →
    p.value heap' value
  function_mono : ∀ {heap heap' closure}, p.change heap heap' → p.function heap closure →
    p.function heap' closure
  method_mono : ∀ {heap heap' closure}, p.change heap heap' → p.method heap closure →
    p.method heap' closure
  environment_mono : ∀ {heap heap' env}, p.change heap heap' → p.environment heap env →
    p.environment heap' env
  -- values that are made from others, and functions that are declared
  plain : ∀ {heap value}, value.isScalar = true → p.value heap value
  list : ∀ {heap items}, (∀ item ∈ items, p.value heap item) → p.value heap (.list items)
  declare : ∀ {heap closure}, p.environment heap closure.environment →
    WellFormedBody closure.params closure.body → closure.initializer = false →
      p.function heap closure
  declareMethod : ∀ {heap closure}, p.environment heap closure.environment →
    WellFormedBody closure.params closure.body → p.method heap closure
  wellFormed : ∀ {heap closure}, p.function heap closure →
    WellFormedBody closure.params closure.body
  -- reading from the heap
  «global» : ∀ {heap}, p.heap heap → p.environment heap .global
  around : ∀ {heap closure}, p.function heap closure → p.environment heap closure.environment
  binding : ∀ {heap env frame name value}, p.heap heap → p.environment heap env →
    frame ∈ env.chain → (heap.frames.bindings frame).get? name = some value → p.value heap value
  field : ∀ {heap handle object name value}, p.heap heap → p.value heap (.instance handle) →
    heap.instances[handle.index]? = some object → object.fields.get? name = some value →
      p.value heap value
  methodOf : ∀ {heap handle object name method}, p.heap heap → p.value heap (.instance handle) →
    heap.instances[handle.index]? = some object → heap.method? object name = some method →
      p.method heap method
  called : ∀ {heap handle closure}, p.heap heap → p.value heap (.function handle) →
    heap.functions[handle.index]? = some closure → p.function heap closure
  initializer : ∀ {heap handle cls method}, p.heap heap → p.value heap (.class handle) →
    heap.classes[handle.index]? = some cls → cls.initializer? = some method →
      p.method heap method
  -- writing to the heap
  bind : ∀ {heap env frame name value}, p.heap heap → p.environment heap env →
    frame ∈ env.chain → name ≠ "this" → p.value heap value →
      p.Becomes heap (heap.bindIn frame name value)
  push : ∀ {heap env}, p.heap heap → p.environment heap env →
    p.Becomes heap (heap.pushFrame env).2 ∧
      p.environment (heap.pushFrame env).2 (heap.pushFrame env).1
  bindMethod : ∀ {heap method object}, p.heap heap → p.method heap method →
    p.value heap object →
      p.Becomes heap (heap.bindMethod method object).2 ∧
        p.function (heap.bindMethod method object).2 (heap.bindMethod method object).1
  addFunction : ∀ {heap closure}, p.heap heap → p.function heap closure →
    p.Becomes heap (heap.addFunction closure).2 ∧
      p.value (heap.addFunction closure).2 (heap.addFunction closure).1
  addClass : ∀ {heap cls}, p.heap heap →
    (∀ name method, cls.methods.get? name = some method → p.method heap method) →
      p.Becomes heap (heap.addClass cls).2 ∧
        p.value (heap.addClass cls).2 (heap.addClass cls).1
  addInstance : ∀ {heap handle}, p.heap heap → p.value heap (.class handle) →
    p.Becomes heap (heap.addInstance handle).2 ∧
      p.value (heap.addInstance handle).2 (heap.addInstance handle).1
  setField : ∀ {heap handle name value}, p.heap heap → p.value heap (.instance handle) →
    p.value heap value → p.Becomes heap (heap.setField handle.index name value)

/-- **What an action needs** to be allowed on a heap. -/
def Allows (p : Policy) (heap : Heap) {α : Type} : Action α → Prop
  | .lookup name _ => name.kind = .identifier
  | .assign name _ value => name.IsName Token.Scanned ∧ p.value heap value
  | .define name value => name.IsName Token.Scanned ∧ p.value heap value
  | .property object _ => p.value heap object
  | .setField index _ value =>
    (∃ label, p.value heap (.instance ⟨label, index⟩)) ∧ p.value heap value
  | .makeFunction _ params body => WellFormedBody params body
  | .declareFunction name params body =>
    name.IsName Token.Scanned ∧ WellFormedBody params body
  | .declareClass name methods =>
    name.IsName Token.Scanned ∧ ∀ f ∈ methods, WellFormedBody f.params f.body
  | .openCall closure args => p.function heap closure ∧ ∀ arg ∈ args, p.value heap arg
  | .receiver closure => p.function heap closure
  | .callable? callee => p.value heap callee
  | .create handle => p.value heap (.class handle)
  | .bindMethod method object => p.method heap method ∧ p.value heap object
  | .native _ args => ∀ arg ∈ args, p.value heap arg
  | .compute _ | .tick | .giveUp | .instance? _ | .print _ | .openBlock => True

/-- **What the result of an action may be used for.** -/
def Grants (p : Policy) (heap : Heap) {α : Type} : Action α → α → Prop
  | .compute result, a => result = .ok a
  | .giveUp, _ => False
  | .lookup _ _, value => p.value heap value
  | .property _ _, value => p.value heap value
  | .instance? object, target => ∀ index found, target = some (index, found) →
      ∃ label, object = .instance ⟨label, index⟩
  | .makeFunction _ _ _, value => p.value heap value
  | .openBlock, env => p.environment heap env
  | .openCall _ _, env => p.environment heap env
  | .receiver _, value => p.value heap value
  | .callable? callee, callable =>
    (∀ closure, callable = some (.function closure) → p.function heap closure) ∧
      ∀ handle cls, callable = some (.class handle cls) →
        callee = .class handle ∧ ∀ method, cls.initializer? = some method → p.method heap method
  | .create _, value => p.value heap value
  | .bindMethod _ _, closure => p.function heap closure
  | .native _ _, value => p.value heap value
  | _, _ => True

/-! ## Steps that go by a policy -/

/-- The machine is as the policy admits. -/
structure Admits (p : Policy) (machine : Machine) : Prop where
  heap : p.heap machine.heap
  environment : p.environment machine.heap machine.environment

/-- The machine changes as the policy admits, and stays in its environment. -/
structure Step (p : Policy) (machine machine' : Machine) : Prop where
  environment : machine'.environment = machine.environment
  becomes : p.Becomes machine.heap machine'.heap

/-- **A step goes by the policy**, however it ends, and ends with `ensures` if it succeeds. -/
def Ends (p : Policy) {α : Type} (step : Eval α) (machine : Machine)
    (ensures : α → Heap → Prop) : Prop :=
  match step machine with
  | .ok a machine' => p.Step machine machine' ∧ ensures a machine'.heap
  | .error _ machine' => p.Step machine machine'

section Ends

variable {p : Policy} {α β : Type} {step : Eval α} {machine machine' : Machine}
  {ensures : α → Heap → Prop}

/-- Doing nothing is an admitted step. -/
theorem Lawful.step_refl (hp : p.Lawful) (h : p.heap machine.heap) : p.Step machine machine :=
  ⟨rfl, hp.refl _, h⟩

/-- Admitted steps one after the other are an admitted step. -/
theorem Step.trans (hp : p.Lawful) {a b c : Machine} (hab : p.Step a b) (hbc : p.Step b c) :
    p.Step a c :=
  ⟨hbc.environment.trans hab.environment, hp.trans hab.becomes.change hbc.becomes.change,
    hbc.becomes.heap⟩

/-- A machine that is admitted stays so after an admitted step. -/
theorem Admits.after (hp : p.Lawful) (h : p.Admits machine) (hs : p.Step machine machine') :
    p.Admits machine' :=
  ⟨hs.becomes.heap,
    hs.environment ▸ hp.environment_mono hs.becomes.change h.environment⟩

/-- A step that succeeds ends as admitted if it made an admitted step. -/
theorem Ends.of_ok {a : α} (h : step machine = .ok a machine') (hs : p.Step machine machine')
    (he : ensures a machine'.heap) : p.Ends step machine ensures := by
  rw [Ends, h]
  exact ⟨hs, he⟩

/-- A step that changes nothing but the heap. -/
theorem Ends.of_heap {a : α} {heap : Heap}
    (h : step machine = .ok a { machine with heap := heap }) (hb : p.Becomes machine.heap heap)
    (he : ensures a heap) : p.Ends step machine ensures :=
  .of_ok h ⟨rfl, hb⟩ he

/-- A step that fails and changes nothing ends as admitted. -/
theorem Ends.of_error (hp : p.Lawful) {stop : Stop} (h : step machine = .error stop machine)
    (hm : p.heap machine.heap) : p.Ends step machine ensures := by
  rw [Ends, h]
  exact hp.step_refl hm

theorem Ends.of_same (hp : p.Lawful) {a : α} (h : step machine = .ok a machine)
    (hm : p.heap machine.heap) (he : ensures a machine.heap) : p.Ends step machine ensures :=
  .of_ok h (hp.step_refl hm) he

theorem Ends.mono {middle : α → Heap → Prop} (h : p.Ends step machine middle)
    (he : ∀ a heap, middle a heap → ensures a heap) : p.Ends step machine ensures := by
  unfold Ends at h ⊢
  split at h
  · exact ⟨h.1, he _ _ h.2⟩
  · exact h

/-- Steps one after the other end as admitted if each of them does. -/
theorem Ends.bind (hp : p.Lawful) {next : α → Eval β} {ensures' : β → Heap → Prop}
    (h : p.Ends step machine ensures)
    (hn : ∀ a machine', step machine = .ok a machine' → p.Step machine machine' →
      ensures a machine'.heap → p.Ends (next a) machine' ensures') :
    p.Ends (step >>= next) machine ensures' := by
  unfold Ends at h
  split at h
  · rename_i a mid hs
    have hn := hn a mid hs h.1 h.2
    unfold Ends at hn ⊢
    rw [bind_of_ok hs]
    split at hn
    · exact ⟨h.1.trans hp hn.1, hn.2⟩
    · exact h.1.trans hp hn
  · rename_i stop mid hs
    rw [Ends, show (step >>= next) machine = .error stop mid from
      bind_eq_error_iff.2 (.inl hs)]
    exact h

end Ends

/-! ## Names -/

section Names

variable {p : Policy} {machine : Machine} {env : Environment} {name : Token} {value : Value}

/-- A name is found in a frame of the chain, which binds it. -/
theorem find?_eq_some {frames : Frames} {chain : List Nat} {label : String} {frame : Nat}
    (h : frames.find? chain label = some (frame, value)) :
    frame ∈ chain ∧ (frames.bindings frame).get? label = some value := by
  obtain ⟨other, hm, ho⟩ := List.exists_of_findSome?_eq_some h
  obtain ⟨v, hv, he⟩ := Option.map_eq_some_iff.1 ho
  cases he
  exact ⟨hm, hv⟩

/-- Binding a name to a value that may be kept is admitted. -/
theorem Lawful.ends_define (hp : p.Lawful) (hm : p.heap machine.heap)
    (he : p.environment machine.heap env) (hn : name.IsName Token.Scanned)
    (hv : p.value machine.heap value) :
    p.Ends (Eval.onFrames (Frames.define env name value)) machine fun _ _ => True :=
  .of_heap (onFrames_of_ok (Frames.define_eq hn.2))
    (hp.bind hm he List.mem_cons_self (hn.1.ne_this hn.2) hv) trivial

/-- What is looked up by name is a value that may be kept. -/
theorem Lawful.ends_get (hp : p.Lawful) (hm : p.heap machine.heap)
    (he : p.environment machine.heap env) (hk : name.kind = .identifier) :
    p.Ends (Eval.onFrames (Frames.get env name)) machine fun v heap => p.value heap v := by
  have hg : Frames.get env name machine.heap.frames = _ := Frames.get_eq hk
  cases hf : machine.heap.frames.find? env.chain name.lexeme with
  | none =>
    rw [hf] at hg
    exact .of_error hp (onFrames_of_error hg) hm
  | some found =>
    rw [hf] at hg
    obtain ⟨hc, hb⟩ := find?_eq_some hf
    exact .of_same hp (onFrames_of_ok hg) hm (hp.binding hm he hc hb)

/-- Assigning a value that may be kept is admitted. -/
theorem Lawful.ends_assign (hp : p.Lawful) (hm : p.heap machine.heap)
    (he : p.environment machine.heap env) (hn : name.IsName Token.Scanned)
    (hv : p.value machine.heap value) :
    p.Ends (Eval.onFrames (Frames.assign env name value)) machine fun _ _ => True := by
  have ha : Frames.assign env name value machine.heap.frames = _ := Frames.assign_eq hn.2
  cases hf : machine.heap.frames.find? env.chain name.lexeme with
  | none =>
    rw [hf] at ha
    exact .of_error hp (onFrames_of_error ha) hm
  | some found =>
    rw [hf] at ha
    obtain ⟨hc, -⟩ := find?_eq_some hf
    exact .of_heap (onFrames_of_ok ha) (hp.bind hm he hc (hn.1.ne_this hn.2) hv) trivial

/-- A name that is looked up past the last frame is not found. -/
theorem locateAt_past (frames : Frames) {distance : Int} (hk : name.kind = .identifier)
    (hc : env.chain[distance.toNat]? = none) :
    ∃ e, Frames.locateAt env distance name frames = .error e frames := by
  refine ⟨⟨.pastGlobal distance, none, name.lexeme⟩, ?_⟩
  rw [Frames.locateAt, bind_of_ok (Frames.requireName_eq hk), Frames.ancestor, hc]
  rfl

/-- What is looked up at a distance is a value that may be kept. -/
theorem Lawful.ends_getAt (hp : p.Lawful) (hm : p.heap machine.heap)
    (he : p.environment machine.heap env) (hk : name.kind = .identifier) (distance : Int) :
    p.Ends (Eval.onFrames (Frames.getAt env distance name)) machine fun v heap =>
      p.value heap v := by
  cases hc : env.chain[distance.toNat]? with
  | none =>
    obtain ⟨e, hl⟩ := locateAt_past machine.heap.frames hk hc
    have hg : Frames.getAt env distance name machine.heap.frames =
        .error e machine.heap.frames := by
      change EStateM.map _ _ _ = _
      rw [EStateM.map, hl]
    exact .of_error hp (onFrames_of_error hg) hm
  | some frame =>
    have hg : Frames.getAt env distance name machine.heap.frames = _ := Frames.getAt_eq hk hc
    cases hb : (machine.heap.frames.bindings frame).get? name.lexeme with
    | none =>
      rw [hb] at hg
      exact .of_error hp (onFrames_of_error hg) hm
    | some v =>
      rw [hb] at hg
      exact .of_same hp (onFrames_of_ok hg) hm
        (hp.binding hm he (List.mem_of_getElem? hc) hb)

theorem Lawful.ends_assignAt (hp : p.Lawful) (hm : p.heap machine.heap)
    (he : p.environment machine.heap env) (hn : name.IsName Token.Scanned) (distance : Int)
    (hv : p.value machine.heap value) :
    p.Ends (Eval.onFrames (Frames.assignAt env distance name value)) machine
      fun _ _ => True := by
  cases hc : env.chain[distance.toNat]? with
  | none =>
    obtain ⟨e, hl⟩ := locateAt_past machine.heap.frames hn.2 hc
    have ha : Frames.assignAt env distance name value machine.heap.frames =
        .error e machine.heap.frames := bind_eq_error_iff.2 (.inl hl)
    exact .of_error hp (onFrames_of_error ha) hm
  | some frame =>
    have ha : Frames.assignAt env distance name value machine.heap.frames = _ :=
      Frames.assignAt_eq hn.2 hc
    cases hb : (machine.heap.frames.bindings frame).get? name.lexeme with
    | none =>
      rw [hb] at ha
      exact .of_error hp (onFrames_of_error ha) hm
    | some v =>
      rw [hb] at ha
      exact .of_heap (onFrames_of_ok ha)
        (hp.bind hm he (List.mem_of_getElem? hc) (hn.1.ne_this hn.2) hv) trivial

end Names

/-! ## Actions -/

section Actions

variable {p : Policy} {machine : Machine} {α : Type}

/-- Binding a method gives a function that may be run. -/
theorem Lawful.ends_bindMethod (hp : p.Lawful) {method : Closure} {object : Value}
    (hm : p.heap machine.heap) (hf : p.method machine.heap method)
    (ho : p.value machine.heap object) :
    p.Ends (Eval.bindMethod method object) machine fun bound heap => p.function heap bound :=
  .of_heap (bindMethod_eq method object machine) (hp.bindMethod hm hf ho).1
    (hp.bindMethod hm hf ho).2

/-- Parameters are bound one by one, to arguments that may be kept. -/
theorem Lawful.ends_bindParameters (hp : p.Lawful) {env : Environment} {params : List Token}
    {args : List Value} (hm : p.heap machine.heap) (he : p.environment machine.heap env)
    (hn : ∀ param ∈ params, param.IsName Token.Scanned)
    (ha : ∀ arg ∈ args, p.value machine.heap arg) :
    p.Ends (Eval.bindParameters env params args) machine fun _ heap => p.environment heap env := by
  induction params generalizing args machine with
  | nil => exact .of_same hp rfl hm he
  | cons param params ih =>
    cases args with
    | nil => exact .of_same hp rfl hm he
    | cons arg args =>
      obtain ⟨hparam, hn⟩ := List.forall_mem_cons.1 hn
      obtain ⟨harg, ha⟩ := List.forall_mem_cons.1 ha
      refine (hp.ends_define hm he hparam harg).bind hp fun _ machine' _ hs _ => ?_
      have hc := hs.becomes.change
      exact ih hs.becomes.heap (hp.environment_mono hc he) hn
        fun v hv => hp.value_mono hc (ha v hv)

/-- The frame of a call hangs on the environment of the function. -/
theorem Lawful.ends_openCall (hp : p.Lawful) {closure : Closure} {args : List Value}
    (hm : p.heap machine.heap) (hf : p.function machine.heap closure)
    (ha : ∀ arg ∈ args, p.value machine.heap arg) :
    p.Ends (Action.openCall closure args).run machine fun env heap => p.environment heap env := by
  obtain ⟨hb, he⟩ := hp.push hm (hp.around hf)
  have hpush : p.Ends (Eval.onHeap (·.pushFrame closure.environment)) machine
      fun env heap => p.environment heap env := .of_heap rfl hb he
  refine hpush.bind hp fun env machine' _ hs he => ?_
  have hargs : ∀ arg ∈ args, p.value machine'.heap arg :=
    fun v hv => hp.value_mono hs.becomes.change (ha v hv)
  refine (hp.ends_bindParameters hs.becomes.heap he (hp.wellFormed hf).names hargs).bind hp
    fun _ machine'' _ hs he => ?_
  exact .of_same hp rfl hs.becomes.heap he

/-- Binding a name in the current frame. -/
theorem Lawful.ends_defineHere (hp : p.Lawful) {name : Token} {value : Value}
    (hm : p.Admits machine) (hn : name.IsName Token.Scanned) (hv : p.value machine.heap value) :
    p.Ends (Eval.define name value) machine fun _ _ => True := by
  have henv : p.Ends Eval.environment machine fun env heap => p.environment heap env :=
    .of_same hp rfl hm.heap hm.environment
  exact henv.bind hp fun env _ _ hs he => hp.ends_define hs.becomes.heap he hn
    (hp.value_mono hs.becomes.change hv)

/-- A function that is made may be kept, as the current environment may. -/
theorem Lawful.ends_makeFunction (hp : p.Lawful) {label : String} {params : List Token}
    {body : List Stmt} (hm : p.Admits machine) (hb : WellFormedBody params body) :
    p.Ends (Eval.closure label params body) machine fun v heap => p.value heap v := by
  have hf : p.function machine.heap ⟨label, params, body, machine.environment, false⟩ :=
    hp.declare hm.environment hb rfl
  exact .of_heap rfl (hp.addFunction hm.heap hf).1 (hp.addFunction hm.heap hf).2

/-- A class is made with methods in the current environment, after its name was bound to nothing. -/
theorem Lawful.ends_declareClass (hp : p.Lawful) {name : Token} {methods : List FunctionDecl}
    (hm : p.Admits machine) (hn : name.IsName Token.Scanned)
    (hb : ∀ f ∈ methods, WellFormedBody f.params f.body) :
    p.Ends (Eval.declareClass name methods) machine fun _ _ => True := by
  -- the name is bound to nothing before the class is made
  have hnil : p.value machine.heap .nil := hp.plain rfl
  refine (hp.ends_defineHere hm hn hnil).bind hp fun _ machine' _ hs _ => ?_
  have hm' := hm.after hp hs
  have henv : p.Ends Eval.environment machine' fun _ _ => True :=
    .of_same hp rfl hm'.heap trivial
  refine henv.bind hp fun env _ h _ _ => ?_
  cases h
  have hmethods : ∀ label method,
      (Eval.methodTable machine'.environment methods).get? label = some method →
        p.method machine'.heap method := by
    intro label method h
    obtain ⟨f, hf, rfl⟩ := Eval.of_methodTable h
    exact hp.declareMethod hm'.environment (hb f hf)
  have hmake : p.Ends
      (Eval.onHeap (·.addClass ⟨name.lexeme, Eval.methodTable machine'.environment methods⟩))
      machine' fun v heap => p.value heap v :=
    .of_heap rfl (hp.addClass hm'.heap hmethods).1 (hp.addClass hm'.heap hmethods).2
  refine hmake.bind hp fun cls machine'' _ hs hv => ?_
  exact hp.ends_assign hs.becomes.heap
    (hp.environment_mono hs.becomes.change hm'.environment) hn hv

/-- An instance that is found is the one that the value refers to. -/
theorem instance?_eq_some {object : Value} {index : Nat} {found : Instance}
    {machine' : Machine} (h : Eval.instance? object machine = .ok (some (index, found)) machine') :
    machine' = machine ∧ ∃ label, object = .instance ⟨label, index⟩ ∧
      machine.heap.instances[index]? = some found := by
  cases object with
  | «instance» handle =>
    obtain ⟨ht, rfl⟩ := pure_eq_ok_iff.1
      (show (pure (machine.heap.instances[handle.index]?.map (handle.index, ·)) : Eval _) machine =
        .ok (some (index, found)) machine' from h)
    obtain ⟨other, ho, he⟩ := Option.map_eq_some_iff.1 ht
    cases he
    exact ⟨rfl, handle.label, rfl, ho⟩
  | _ => cases h

/-- A property is a field of the instance, or a method that is bound to it. -/
theorem Lawful.ends_property (hp : p.Lawful) {object : Value} {name : Token}
    (hm : p.heap machine.heap) (ho : p.value machine.heap object) :
    p.Ends (Eval.property object name) machine fun v heap => p.value heap v := by
  obtain ⟨target, ht⟩ := instance?_eq object machine
  have htarget : p.Ends (Eval.instance? object) machine fun _ _ => True :=
    .of_same hp ht hm trivial
  refine htarget.bind hp fun target' _ h _ _ => ?_
  cases target' with
  | none =>
    rw [ht] at h
    cases h
    exact .of_error hp rfl hm
  | some target =>
    obtain ⟨index, found⟩ := target
    obtain ⟨hthere, label, rfl, hi⟩ := instance?_eq_some h
    rw [hthere]
    dsimp only
    cases hf : found.fields.get? name.lexeme with
    | some value => exact .of_same hp rfl hm (hp.field hm ho hi hf)
    | none =>
      have hget : p.Ends get machine fun _ _ => True := .of_same hp rfl hm trivial
      refine hget.bind hp fun there _ h _ _ => ?_
      cases h
      cases hmethod : machine.heap.method? found name.lexeme with
      | none => exact .of_error hp rfl hm
      | some method =>
        refine (hp.ends_bindMethod hm (hp.methodOf hm ho hi hmethod) ho).bind hp
          fun bound machine' _ hs hb => ?_
        exact .of_heap rfl (hp.addFunction hs.becomes.heap hb).1
          (hp.addFunction hs.becomes.heap hb).2

theorem Lawful.ends_native (hp : p.Lawful) {code : Native} {args : List Value}
    (hm : p.heap machine.heap) (ha : ∀ arg ∈ args, p.value machine.heap arg) :
    p.Ends (Eval.runNative code args) machine fun v heap => p.value heap v := by
  obtain ⟨name, arity, action⟩ := code
  cases action with
  | clock => exact .of_ok rfl ⟨rfl, hp.refl _, hm⟩ (hp.plain rfl)
  | collect => exact .of_same hp rfl hm (hp.list ha)

/-- What is called is on the heap, under the handle in the value. -/
theorem Lawful.ends_callable (hp : p.Lawful) {callee : Value} (hm : p.heap machine.heap)
    (hv : p.value machine.heap callee) :
    p.Ends (Action.callable? callee).run machine fun callable heap =>
      p.Grants heap (.callable? callee) callable := by
  refine .of_same hp rfl hm ⟨fun closure h => ?_, fun handle cls h => ?_⟩
  all_goals
    unfold Heap.callable? at h
    split at h
  all_goals simp only [Option.map_eq_some_iff, reduceCtorEq, and_false, exists_false] at h
  · obtain ⟨closure', hf, h⟩ := h
    cases h
    exact hp.called hm hv hf
  · obtain ⟨cls', hc, h⟩ := h
    cases h
    exact ⟨rfl, fun method hi => hp.initializer hm hv hc hi⟩

/-- **An action that is allowed goes by the policy.** -/
theorem Lawful.act (hp : p.Lawful) (action : Action α) (hm : p.Admits machine)
    (ha : p.Allows machine.heap action) :
    p.Ends action.run machine fun a heap => p.Grants heap action a := by
  have henv : p.Ends Eval.environment machine fun env heap => p.environment heap env :=
    .of_same hp rfl hm.heap hm.environment
  cases action with
  | compute result =>
    cases result with
    | ok a => exact .of_same hp rfl hm.heap rfl
    | error e => exact .of_error hp rfl hm.heap
  | tick => exact .of_ok rfl ⟨rfl, hp.refl _, hm.heap⟩ trivial
  | giveUp => exact .of_error hp rfl hm.heap
  | lookup name hops =>
    cases hops with
    | none => exact hp.ends_get hm.heap (hp.global hm.heap) ha
    | some hops =>
      exact henv.bind hp fun env _ _ hs he => hp.ends_getAt hs.becomes.heap he ha hops
  | assign name hops value =>
    cases hops with
    | none => exact hp.ends_assign hm.heap (hp.global hm.heap) ha.1 ha.2
    | some hops =>
      exact henv.bind hp fun env _ _ hs he => hp.ends_assignAt hs.becomes.heap he ha.1 hops
        (hp.value_mono hs.becomes.change ha.2)
  | define name value => exact hp.ends_defineHere hm ha.1 ha.2
  | property object name => exact hp.ends_property hm.heap ha
  | instance? object =>
    obtain ⟨target, ht⟩ := instance?_eq object machine
    refine .of_same hp ht hm.heap ?_
    rintro index found rfl
    obtain ⟨-, label, h, -⟩ := instance?_eq_some ht
    exact ⟨label, h⟩
  | setField index name value =>
    obtain ⟨⟨label, ho⟩, hv⟩ := ha
    exact .of_heap rfl (hp.setField hm.heap ho hv) trivial
  | makeFunction name params body => exact hp.ends_makeFunction hm ha
  | declareFunction name params body =>
    exact (hp.ends_makeFunction hm ha.2).bind hp fun v machine' _ hs hv =>
      hp.ends_defineHere (hm.after hp hs) ha.1 hv
  | declareClass name methods => exact hp.ends_declareClass hm ha.1 ha.2
  | print line => exact .of_ok rfl ⟨rfl, hp.refl _, hm.heap⟩ trivial
  | openBlock =>
    obtain ⟨hb, he⟩ := hp.push hm.heap hm.environment
    exact .of_heap (bind_of_ok rfl) hb he
  | openCall closure args => exact hp.ends_openCall hm.heap ha.1 ha.2
  | receiver closure => exact hp.ends_getAt hm.heap (hp.around ha) rfl 0
  | callable? callee => exact hp.ends_callable hm.heap ha
  | create handle => exact .of_heap rfl (hp.addInstance hm.heap ha).1 (hp.addInstance hm.heap ha).2
  | bindMethod method object => exact hp.ends_bindMethod hm.heap ha.1 ha.2
  | native code args => exact hp.ends_native hm.heap ha

end Actions

end Policy

end ScopedScript

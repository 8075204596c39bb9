import ScopedScript.Proofs.History

/-!
# Where functions come from

Functions come onto the heap in three ways.  Two kinds of nodes declare a function, in the
environment they are evaluated in; and a method that is read as a property of an instance is
bound to the instance.  A class that is called binds its initializer to the new instance, and
calls it without putting it on the heap.  So each function that is called at a moment of a
history was either declared at a moment, or obtained by binding a method to an instance.

## Main definitions

* `Moment.CallsValue`: what is called at a moment, with which arguments.
* `Moment.Declares`, `Moment.Obtains`: how functions are made.

## Main results

* `Moment.Obtains.lasts`: what there is when a method has been bound is there at the end.
* `Moment.Obtains.this_at_end`: the frame of a bound method has the instance, to the end.
* `exists_maker`: every function on the heap was declared or obtained.
* `exists_maker_of_invokes`: so was every function that is called.
-/

namespace ScopedScript

/-! ## How functions are made -/

/-- **A value is called at a moment**: it is callable, and the callee and the arguments have been
evaluated.  The last machine is the one on which the call begins. -/
def Moment.CallsValue (rounds depth : Nat) (mo : Moment) (callable : Callable) (args : List Value)
    (there : Machine) : Prop :=
  mo.depth = depth + 1 ∧ ∃ callee paren es f mid, mo.task = .expr (.call callee paren es) ∧
    eval rounds depth callee mo.machine = .ok f mid ∧
      es.mapM (eval rounds depth) mid = .ok args there ∧ there.heap.callable? f = some callable

/-- **A function is declared at a moment**, in the environment of the moment. -/
inductive Moment.Declares : Moment → Closure → Prop
  | lambda (depth : Nat) (keyword : Token) (params : List Token) (body : List Stmt)
      (machine : Machine) :
    Declares ⟨depth + 1, .expr (.lambda keyword params body), machine⟩
      ⟨"anonymous", params, body, machine.environment, false⟩
  | function (depth : Nat) (name : Token) (params : List Token) (body : List Stmt)
      (machine : Machine) :
    Declares ⟨depth + 1, .stmt (.function (.mk name params body)), machine⟩
      ⟨name.lexeme, params, body, machine.environment, false⟩

/-- **A method is bound to an instance at a moment.**  Either it is read as a property of the
instance, which has no field of that name; or a class is called, and its initializer is bound to
the new instance.  The last function is the bound copy. -/
inductive Moment.Obtains (rounds : Nat) : Moment → Closure → Handle → Closure → Prop
  | property {depth : Nat} {e : Expr} {name : Token} {machine there : Machine} {object : Handle}
      {target : Instance} {method : Closure}
      (heval : eval rounds depth e machine = .ok (.instance object) there)
      (htarget : there.heap.instances[object.index]? = some target)
      (hfield : target.fields.get? name.lexeme = none)
      (hmethod : there.heap.method? target name.lexeme = some method) :
    Obtains rounds ⟨depth + 1, .expr (.get e name), machine⟩ method object
      (there.heap.bindMethod method (.instance object)).1
  | construct {depth : Nat} {mo : Moment} {handle object : Handle} {cls : ClassDef}
      {args : List Value} {there : Machine} {method : Closure} {heap : Heap}
      (hcalls : mo.CallsValue rounds depth (.class handle cls) args there)
      (harity : args.length = cls.arity) (hmethod : cls.initializer? = some method)
      (hmade : there.heap.addInstance handle = (.instance object, heap)) :
    Obtains rounds mo method object (heap.bindMethod method (.instance object)).1

section Calls

variable {rounds depth : Nat} {mo : Moment} {closure : Closure} {args : List Value}
  {there : Machine}

/-- A function is called exactly where it, or the class it sets up instances of, is called with
the right number of arguments. -/
theorem Moment.invokes_iff :
    mo.Invokes rounds depth closure args there ↔
      ∃ callable start, mo.CallsValue rounds depth callable args start ∧
        args.length = callable.arity ∧ callable.invoked? start = some (closure, there) := by
  constructor
  · rintro ⟨hd, e, he, hi⟩
    obtain ⟨callee, paren, es, f, mid, start, callable, rfl, hf, ha, hc, hl, hi⟩ :=
      Expr.invoked?_eq_some hi
    exact ⟨callable, start, ⟨hd, callee, paren, es, f, mid, he, hf, ha, hc⟩, hl, hi⟩
  · rintro ⟨callable, start, ⟨hd, callee, paren, es, f, mid, he, hf, ha, hc⟩, hl, hi⟩
    refine ⟨hd, _, he, ?_⟩
    simp only [Expr.invoked?, hf, ha, hc, hl, hi, if_true, Option.map_some]

end Calls

/-! ## Plans that make no function -/

/-- Whether an action may put a function on the heap. -/
def Action.makes {α : Type} : Action α → Bool
  | property _ _ | makeFunction _ _ _ | declareFunction _ _ _ => true
  | _ => false

/-- The functions stay as they are. -/
def SameFunctions (before after : Machine) : Prop := after.heap.functions = before.heap.functions

namespace SameFunctions

variable {α β : Type}

theorem bind {step : Eval α} {next : α → Eval β} (h : Eval.Respects SameFunctions step)
    (hn : ∀ a, Eval.Respects SameFunctions (next a)) :
    Eval.Respects SameFunctions (step >>= next) :=
  h.bind (fun _ _ _ hab hbc => hbc.trans hab) hn

theorem onFrames (op : FrameM α) : Eval.Respects SameFunctions (Eval.onFrames op) := by
  intro machine
  unfold SameFunctions
  rw [Eval.after, Eval.onFrames_eq]
  cases op machine.heap.frames <;> rfl

theorem environment_then {next : Environment → Eval α}
    (hn : ∀ env, Eval.Respects SameFunctions (next env)) :
    Eval.Respects SameFunctions (Eval.environment >>= next) :=
  bind (fun _ => rfl) hn

theorem bindParameters (env : Environment) (params : List Token) (args : List Value) :
    Eval.Respects SameFunctions (Eval.bindParameters env params args) := by
  induction params generalizing args with
  | nil => exact fun _ => rfl
  | cons param params ih =>
    cases args with
    | nil => exact fun _ => rfl
    | cons arg args => exact bind (onFrames _) fun _ => ih args

/-- Only three kinds of actions put functions on the heap. -/
theorem act {action : Action α} (h : action.makes = false) :
    Eval.Respects SameFunctions action.run := by
  cases action with
  | property | makeFunction | declareFunction => cases h
  | compute result =>
    intro machine
    cases result <;> rfl
  | lookup name hops =>
    cases hops with
    | some hops => exact environment_then fun _ => onFrames _
    | none => exact onFrames _
  | assign name hops value =>
    cases hops with
    | some hops => exact environment_then fun _ => onFrames _
    | none => exact onFrames _
  | define name value => exact environment_then fun _ => onFrames _
  | instance? value =>
    intro machine
    cases value <;> rfl
  | declareClass name methods =>
    refine bind (environment_then fun _ => onFrames _) fun _ => environment_then fun _ => ?_
    exact bind (fun _ => rfl) fun _ => onFrames _
  | openCall closure args =>
    exact bind (fun _ => rfl) fun _ => bind (bindParameters _ _ _) fun _ _ => rfl
  | receiver closure => exact onFrames _
  | bindMethod method object => exact bind (fun _ => rfl) fun _ => bind (onFrames _) fun _ _ => rfl
  | native code args =>
    intro machine
    obtain ⟨name, arity, action⟩ := code
    cases action <;> rfl
  | tick | giveUp | setField | print | openBlock | callable? | create => exact fun _ => rfl

end SameFunctions

namespace Plan

/-- **No action of the plan puts a function on the heap.** -/
def MakesNone {α : Type} : Plan α → Prop
  | done _ => True
  | act action next => action.makes = false ∧ ∀ b, (next b).MakesNone
  | call _ next => ∀ r, (next r).MakesNone
  | within _ inner next => inner.MakesNone ∧ ∀ b, (next b).MakesNone

variable {α : Type}

theorem makesNone_evalAll {es : List Expr} {next : List Value → Plan α}
    (hn : ∀ vs, (next vs).MakesNone) : (Plan.evalAll es next).MakesNone := by
  induction es generalizing next with
  | nil => exact hn []
  | cons e es ih => exact fun v => ih fun vs => hn (v :: vs)

theorem makesNone_execAll (ss : List Stmt) : (Plan.execAll ss).MakesNone := by
  induction ss with
  | nil => trivial
  | cons s ss ih =>
    intro outcome
    cases outcome with
    | returned value => trivial
    | normal value => exact ih

theorem makesNone_repeatWhile (condition : Expr) (body : Stmt) (n : Nat) :
    (Plan.repeatWhile condition body n).MakesNone := by
  induction n with
  | zero => exact ⟨rfl, fun _ => trivial⟩
  | succ n ih =>
    refine fun v => ⟨rfl, fun holds => ?_⟩
    dsimp only
    split
    · intro outcome
      cases outcome with
      | returned value => trivial
      | normal value => exact ih
    · trivial

theorem makesNone_invoke {closure : Closure} {args : List Value} {next : Value → Plan α}
    (hn : ∀ v, (next v).MakesNone) : (Plan.invoke closure args next).MakesNone := by
  refine ⟨rfl, fun env => ⟨makesNone_execAll _, fun outcome => ?_⟩⟩
  dsimp only
  split
  · exact ⟨rfl, hn⟩
  · cases outcome with
    | returned value => exact hn value
    | normal value => exact hn .nil

theorem makesNone_apply (callee : Value) (paren : Token) (args : List Value) :
    (Plan.apply callee paren args).MakesNone := by
  refine ⟨rfl, fun callable => ?_⟩
  cases callable with
  | none => exact ⟨rfl, fun _ => trivial⟩
  | some callable =>
    dsimp only
    split
    · exact ⟨rfl, fun _ => trivial⟩
    · cases callable with
      | function closure => exact makesNone_invoke fun _ => trivial
      | native code => exact ⟨rfl, fun _ => trivial⟩
      | «class» handle cls =>
        refine ⟨rfl, fun object => ?_⟩
        dsimp only
        cases cls.initializer? with
        | none => trivial
        | some initializer => exact ⟨rfl, fun bound => makesNone_invoke fun _ => trivial⟩

/-- A function that such a plan finds new on the heap was put there by a task that it called. -/
theorem MakesNone.made {perform : (task : Task) → Eval task.Result} {p : Plan α} (h : p.MakesNone)
    {machine : Machine} {i : Nat} (hle : machine.heap.functions.size ≤ i)
    (hlt : i < ((p.run perform).after machine).heap.functions.size) :
    ∃ task there, p.Calls perform machine task there ∧ there.heap.functions.size ≤ i ∧
      i < ((perform task).after there).heap.functions.size := by
  induction p generalizing machine with
  | done result => exact absurd hlt (Nat.not_lt.2 hle)
  | act action next ih =>
    have hsame := SameFunctions.act h.1 machine
    unfold SameFunctions at hsame
    rw [Plan.run] at hlt
    cases ha : action.run machine with
    | error stop machine' =>
      rw [Eval.after_of_error ha] at hsame
      rw [Eval.after_bind_of_error ha, hsame] at hlt
      exact absurd hlt (Nat.not_lt.2 hle)
    | ok b machine' =>
      rw [Eval.after_of_ok ha] at hsame
      rw [Eval.after_bind_of_ok ha] at hlt
      obtain ⟨task, there, hc, hm⟩ := ih b (h.2 b) (hsame ▸ hle) hlt
      exact ⟨task, there, ⟨b, machine', ha, hc⟩, hm⟩
  | call first next ih =>
    by_cases hfirst : i < ((perform first).after machine).heap.functions.size
    · exact ⟨first, machine, .inl ⟨rfl, rfl⟩, hle, hfirst⟩
    · rw [Plan.run] at hlt
      cases hr : perform first machine with
      | error stop machine' =>
        rw [Eval.after_bind_of_error hr] at hlt
        rw [Eval.after_of_error hr] at hfirst
        exact absurd hlt hfirst
      | ok r machine' =>
        rw [Eval.after_bind_of_ok hr] at hlt
        rw [Eval.after_of_ok hr] at hfirst
        obtain ⟨task, there, hc, hm⟩ := ih r (h r) (Nat.not_lt.1 hfirst) hlt
        exact ⟨task, there, .inr ⟨r, machine', hr, hc⟩, hm⟩
  | within env inner next ih ihn =>
    by_cases hinner :
        i < ((Eval.inEnvironment env (inner.run perform)).after machine).heap.functions.size
    · rw [Eval.heap_after_inEnvironment] at hinner
      have hle : ({ machine with environment := env } : Machine).heap.functions.size ≤ i := hle
      obtain ⟨task, there, hc, hm⟩ := ih h.1 hle hinner
      exact ⟨task, there, .inl hc, hm⟩
    · rw [Plan.run] at hlt
      cases hb : Eval.inEnvironment env (inner.run perform) machine with
      | error stop machine' =>
        rw [Eval.after_bind_of_error hb] at hlt
        rw [Eval.after_of_error hb] at hinner
        exact absurd hlt hinner
      | ok b machine' =>
        rw [Eval.after_bind_of_ok hb] at hlt
        rw [Eval.after_of_ok hb] at hinner
        obtain ⟨task, there, hc, hm⟩ := ihn b (h.2 b) (Nat.not_lt.1 hinner) hlt
        exact ⟨task, there, .inr ⟨b, machine', hb, hc⟩, hm⟩

end Plan

/-- Whether a node may put a function on the heap itself: it declares one, or reads a property. -/
def Task.makes : Task → Bool
  | expr (.lambda _ _ _) | expr (.get _ _) | stmt (.function _) => true
  | _ => false

theorem Expr.plan_makesNone {e : Expr} (h : (Task.expr e).makes = false) : e.plan.MakesNone := by
  cases e with
  | literal => trivial
  | lambda | get => cases h
  | «variable» | this => exact ⟨rfl, fun _ => trivial⟩
  | assign => exact fun _ => ⟨rfl, fun _ => trivial⟩
  | unary => exact fun _ => ⟨rfl, fun _ => ⟨rfl, fun _ => trivial⟩⟩
  | group => exact fun _ => trivial
  | binary => exact fun _ _ => ⟨rfl, fun _ => ⟨rfl, fun _ => trivial⟩⟩
  | logical =>
    refine fun a => ⟨rfl, fun holds => ?_⟩
    dsimp only
    split
    · trivial
    · exact fun _ => ⟨rfl, fun _ => trivial⟩
  | conditional =>
    refine fun v => ⟨rfl, fun holds => ?_⟩
    dsimp only
    split <;> exact fun _ => trivial
  | sequence items => exact Plan.makesNone_evalAll fun _ => trivial
  | call callee paren args =>
    exact fun f => Plan.makesNone_evalAll fun vs => Plan.makesNone_apply f paren vs
  | set =>
    refine fun o => ⟨rfl, fun target => ?_⟩
    cases target with
    | none => exact ⟨rfl, fun _ => trivial⟩
    | some target => exact fun _ => ⟨rfl, fun _ => trivial⟩

theorem Stmt.plan_makesNone (rounds : Nat) {s : Stmt} (h : (Task.stmt s).makes = false) :
    (s.plan rounds).MakesNone := by
  cases s with
  | function => cases h
  | expression => exact fun _ => trivial
  | print => exact fun _ => ⟨rfl, fun _ => trivial⟩
  | var name initializer =>
    cases initializer with
    | none => exact ⟨rfl, fun _ => trivial⟩
    | some initializer => exact fun _ => ⟨rfl, fun _ => trivial⟩
  | block ss => exact ⟨rfl, fun env => ⟨Plan.makesNone_execAll ss, fun _ => trivial⟩⟩
  | branch condition whenTrue whenFalse =>
    refine fun v => ⟨rfl, fun holds => ?_⟩
    dsimp only
    split
    · exact fun _ => trivial
    · cases whenFalse with
      | none => trivial
      | some whenFalse => exact fun _ => trivial
  | loop condition body => exact Plan.makesNone_repeatWhile condition body rounds
  | «return» keyword value =>
    cases value with
    | none => trivial
    | some value => exact fun _ => trivial
  | «class» => exact ⟨rfl, fun _ => trivial⟩

/-- The plan of any other node makes none. -/
theorem Task.plan_makesNone (rounds : Nat) {task : Task} (h : task.makes = false) :
    (task.plan rounds).MakesNone := by
  cases task with
  | expr e => exact Expr.plan_makesNone h
  | stmt s => exact Stmt.plan_makesNone rounds h

/-! ## The moments that make functions -/

/-- A method that is read as a property is bound to the instance, and the bound copy put on the
heap. -/
theorem Eval.property_of_method {object : Handle} {name : Token} {there : Machine}
    {target : Instance} {method : Closure}
    (htarget : there.heap.instances[object.index]? = some target)
    (hfield : target.fields.get? name.lexeme = none)
    (hmethod : there.heap.method? target name.lexeme = some method) :
    Eval.property (.instance object) name there =
      let bound := there.heap.bindMethod method (.instance object)
      .ok (bound.2.addFunction bound.1).1
        { there with heap := (bound.2.addFunction bound.1).2 } := by
  have hinstance : Eval.instance? (.instance object) there =
      .ok (some (object.index, target)) there := by
    change EStateM.Result.ok (there.heap.instances[object.index]?.map (object.index, ·)) there = _
    rw [htarget]
    rfl
  have hget : (get : Eval Machine) there = .ok there there := rfl
  rw [Eval.property, bind_of_ok hinstance]
  dsimp only
  rw [hfield]
  dsimp only
  rw [bind_of_ok hget, hmethod]
  dsimp only
  rw [bind_of_ok (bindMethod_eq _ _ _)]
  rfl

/-- Any other property puts no function on the heap. -/
theorem Eval.property_cases (value : Value) (name : Token) (there : Machine) :
    SameFunctions there ((Eval.property value name).after there) ∨
      ∃ object target method, value = .instance object ∧
        there.heap.instances[object.index]? = some target ∧
          target.fields.get? name.lexeme = none ∧
            there.heap.method? target name.lexeme = some method := by
  obtain ⟨target, ht⟩ := instance?_eq value there
  cases target with
  | none =>
    left
    rw [Eval.property, Eval.after_bind_of_ok ht]
    rfl
  | some target =>
    obtain ⟨index, target⟩ := target
    obtain ⟨-, label, rfl, hi⟩ := Policy.instance?_eq_some ht
    cases hf : target.fields.get? name.lexeme with
    | some value =>
      left
      rw [Eval.property, Eval.after_bind_of_ok ht]
      dsimp only
      rw [hf]
      rfl
    | none =>
      cases hm : there.heap.method? target name.lexeme with
      | some method => exact .inr ⟨⟨label, index⟩, target, method, rfl, hi, hf, hm⟩
      | none =>
        left
        have hget : (get : Eval Machine) there = .ok there there := rfl
        rw [Eval.property, Eval.after_bind_of_ok ht]
        dsimp only
        rw [hf]
        dsimp only
        rw [Eval.after_bind_of_ok hget, hm]
        rfl

/-- **A function is made at a moment**: declared, or obtained by binding a method. -/
def Moment.Makes (rounds : Nat) (mo : Moment) (closure : Closure) : Prop :=
  mo.Declares closure ∨ ∃ method object, mo.Obtains rounds method object closure

/-- A function that is new after a push is the one that was pushed. -/
theorem eq_of_lt_push {α : Type} {xs : Array α} {x : α} {i : Nat} (hle : xs.size ≤ i)
    (hlt : i < (xs.push x).size) : (xs.push x)[i]? = some x := by
  rw [Array.size_push] at hlt
  obtain rfl : i = xs.size := by omega
  exact Array.getElem?_push_size

/-- The function with a number is made at a moment that this one leads to. -/
def Moment.LeadsToMaker (rounds : Nat) (mo : Moment) (i : Nat) : Prop :=
  ∃ maker closure, mo.Reaches rounds maker ∧ maker.machine.heap.functions.size ≤ i ∧
    maker.Makes rounds closure ∧ (maker.after rounds).heap.functions[i]? = some closure

section Made

variable {rounds depth : Nat} {machine : Machine} {i : Nat}

/-- A declaration makes the function that it declares. -/
theorem made_function {name : Token} {params : List Token} {body : List Stmt}
    (hle : machine.heap.functions.size ≤ i)
    (hlt : i < (Moment.after rounds
      ⟨depth + 1, .stmt (.function (.mk name params body)), machine⟩).heap.functions.size) :
    Moment.LeadsToMaker rounds ⟨depth + 1, .stmt (.function (.mk name params body)), machine⟩
      i := by
  let closure : Closure := ⟨name.lexeme, params, body, machine.environment, false⟩
  let made := machine.heap.addFunction closure
  have hmake : Eval.closure name.lexeme params body machine =
      .ok made.1 { machine with heap := made.2 } := rfl
  have hdefine : Eval.Respects SameFunctions
      (Eval.define name made.1 >>= fun _ => pure Outcome.done) :=
    SameFunctions.bind (SameFunctions.environment_then fun _ => SameFunctions.onFrames _)
      fun _ _ => rfl
  have hafter : (Moment.after rounds
      ⟨depth + 1, .stmt (.function (.mk name params body)), machine⟩).heap.functions =
        machine.heap.functions.push closure := by
    change ((exec rounds (depth + 1) (.function (.mk name params body))).after
      machine).heap.functions = _
    rw [exec, Eval.after_bind_of_ok hmake]
    exact hdefine { machine with heap := made.2 }
  refine ⟨_, closure, .refl, hle, .inl (.function depth name params body machine), ?_⟩
  rw [hafter] at hlt ⊢
  exact eq_of_lt_push hle hlt

/-- Reading a property makes a bound copy of a method, if it makes a function. -/
theorem made_property {value : Value} {object : Expr} {name : Token} {there : Machine}
    (heval : eval rounds depth object machine = .ok value there)
    (hle : there.heap.functions.size ≤ i) (hfrom : machine.heap.functions.size ≤ i)
    (hlt : i < (Moment.after rounds
      ⟨depth + 1, .expr (.get object name), machine⟩).heap.functions.size) :
    Moment.LeadsToMaker rounds ⟨depth + 1, .expr (.get object name), machine⟩ i := by
  have hafter : Moment.after rounds ⟨depth + 1, .expr (.get object name), machine⟩ =
      (Eval.property value name).after there := by
    change (eval rounds (depth + 1) (.get object name)).after machine = _
    rw [eval, Eval.after_bind_of_ok heval]
  rw [hafter] at hlt
  rcases Eval.property_cases value name there with hsame | ⟨handle, target, method, rfl, hi, hf, hm⟩
  · unfold SameFunctions at hsame
    rw [hsame] at hlt
    exact absurd hlt (Nat.not_lt.2 hle)
  · have hproperty := Eval.property_of_method hi hf hm
    rw [Eval.after_of_ok hproperty] at hlt
    refine ⟨_, _, .refl, hfrom, .inr ⟨method, handle, .property heval hi hf hm⟩, ?_⟩
    rw [hafter, Eval.after_of_ok hproperty]
    exact eq_of_lt_push hle hlt

/-- **A function that is new after a moment was made at a moment that it leads to.** -/
theorem Moment.leadsToMaker {mo : Moment} (hle : mo.machine.heap.functions.size ≤ i)
    (hlt : i < (mo.after rounds).heap.functions.size) : mo.LeadsToMaker rounds i := by
  obtain ⟨depth, task, machine⟩ := mo
  induction depth generalizing task machine with
  | zero =>
    unfold Moment.after at hlt
    dsimp only at hlt hle
    rw [Task.run_zero] at hlt
    exact absurd hlt (Nat.not_lt.2 hle)
  | succ depth ih =>
    -- where the node's own plan makes no function, a task that it calls does
    have hcalled (hnone : (task.plan rounds).MakesNone) :
        Moment.LeadsToMaker rounds ⟨depth + 1, task, machine⟩ i := by
      unfold Moment.after at hlt
      dsimp only at hlt
      rw [Task.run_succ] at hlt
      obtain ⟨task', there, hc, hle', hlt'⟩ := hnone.made hle hlt
      obtain ⟨maker, closure, hr, h⟩ := ih task' there hle' hlt'
      exact ⟨maker, closure, .head ⟨rfl, hc⟩ hr, h⟩
    cases task with
    | stmt s =>
      cases s with
      | function decl =>
        obtain ⟨name, params, body⟩ := decl
        exact made_function hle hlt
      | _ => exact hcalled (Task.plan_makesNone rounds rfl)
    | expr e =>
      cases e with
      | lambda keyword params body =>
        refine ⟨_, _, .refl, hle, .inl (.lambda depth keyword params body machine), ?_⟩
        exact eq_of_lt_push hle hlt
      | get object name =>
        by_cases hobject : i < ((eval rounds depth object).after machine).heap.functions.size
        · obtain ⟨maker, closure, hr, h⟩ := ih (.expr object) machine hle hobject
          have hcall : Moment.Calls rounds ⟨depth + 1, .expr (.get object name), machine⟩
              ⟨depth, .expr object, machine⟩ := ⟨rfl, .inl ⟨rfl, rfl⟩⟩
          exact ⟨maker, closure, .head hcall hr, h⟩
        · cases heval : eval rounds depth object machine with
          | error stop there =>
            rw [Eval.after_of_error heval] at hobject
            change i < ((eval rounds (depth + 1) (.get object name)).after
              machine).heap.functions.size at hlt
            rw [eval, Eval.after_bind_of_error heval] at hlt
            exact absurd hlt hobject
          | ok value there =>
            rw [Eval.after_of_ok heval] at hobject
            exact made_property heval (Nat.not_lt.1 hobject) hle hlt
      | _ => exact hcalled (Task.plan_makesNone rounds rfl)

end Made

/-! ## The functions of a history -/

section History

variable {limits : Limits}

/-- A function that is new after statements was made in the course of one of them. -/
theorem execAll_made {ss : List Stmt} {value : Value} {machine : Machine} {i : Nat}
    (hle : machine.heap.functions.size ≤ i)
    (hlt : i < ((execAll limits value ss).after machine).heap.functions.size) :
    ∃ before s after value' start, ss = before ++ s :: after ∧
      execAll limits value before machine = .ok value' start ∧
        start.heap.functions.size ≤ i ∧
          i < ((exec limits.rounds limits.depth s).after start).heap.functions.size := by
  induction ss generalizing value machine with
  | nil => exact absurd hlt (Nat.not_lt.2 hle)
  | cons first ss ih =>
    by_cases hfirst :
      i < ((exec limits.rounds limits.depth first).after machine).heap.functions.size
    · exact ⟨[], first, ss, value, machine, rfl, rfl, hle, hfirst⟩
    · rw [execAll] at hlt
      cases hr : exec limits.rounds limits.depth first machine with
      | error stop machine' =>
        rw [Eval.after_bind_of_error hr] at hlt
        rw [Eval.after_of_error hr] at hfirst
        exact absurd hlt hfirst
      | ok outcome machine' =>
        rw [Eval.after_bind_of_ok hr] at hlt
        rw [Eval.after_of_ok hr] at hfirst
        obtain ⟨before, s, after, value', start, rfl, hb, h⟩ := ih (Nat.not_lt.1 hfirst) hlt
        refine ⟨first :: before, s, after, value', start, rfl, ?_, h⟩
        rw [execAll, bind_of_ok hr]
        exact hb

/-- A function that is new after a request was made at a moment of the request. -/
theorem Request.made {request : Request} {machine : Machine} {i : Nat}
    (hle : machine.heap.functions.size ≤ i)
    (hlt : i < ((request.perform limits).after machine).heap.functions.size) :
    ∃ mo, request.Evaluates limits machine mo ∧ mo.machine.heap.functions.size ≤ i ∧
      i < (mo.after limits.rounds).heap.functions.size := by
  cases request with
  | program source =>
    rw [Request.perform, run, Run.after_ofExcept_bind] at hlt
    cases hl : load source with
    | error failure =>
      rw [hl] at hlt
      exact absurd hlt (Nat.not_lt.2 hle)
    | ok ss =>
      rw [hl] at hlt
      dsimp only at hlt
      rw [Run.after_ofEval] at hlt
      obtain ⟨before, s, after, value, start, rfl, hb, h⟩ := execAll_made hle hlt
      exact ⟨⟨limits.depth, .stmt s, start⟩, ⟨before, s, after, value, start, hl, hb, .refl⟩, h⟩
  | expression source =>
    rw [Request.perform, runExpression, Run.after_ofExcept_bind] at hlt
    cases hl : loadSingle readExpression source with
    | error failure =>
      rw [hl] at hlt
      exact absurd hlt (Nat.not_lt.2 hle)
    | ok e =>
      rw [hl] at hlt
      dsimp only at hlt
      rw [Run.after_ofEval] at hlt
      exact ⟨⟨limits.depth, .expr e, machine⟩, ⟨e, hl, .refl⟩, hle, hlt⟩
  | statement source =>
    rw [Request.perform, runStatement, Run.after_ofExcept_bind] at hlt
    cases hl : loadSingle readDeclaration source with
    | error failure =>
      rw [hl] at hlt
      exact absurd hlt (Nat.not_lt.2 hle)
    | ok s =>
      rw [hl] at hlt
      dsimp only at hlt
      rw [Run.after_map, Run.after_ofEval] at hlt
      exact ⟨⟨limits.depth, .stmt s, machine⟩, ⟨s, hl, .refl⟩, hle, hlt⟩

theorem serve_made {requests : List Request} {machine : Machine} {i : Nat}
    (hle : machine.heap.functions.size ≤ i)
    (hlt : i < (machine.serve limits requests).heap.functions.size) :
    ∃ before request after, requests = before ++ request :: after ∧
      ∃ mo, request.Evaluates limits (machine.serve limits before) mo ∧
        mo.machine.heap.functions.size ≤ i ∧ i < (mo.after limits.rounds).heap.functions.size := by
  induction requests generalizing machine with
  | nil => exact absurd hlt (Nat.not_lt.2 hle)
  | cons request requests ih =>
    by_cases hfirst : i < ((request.perform limits).after machine).heap.functions.size
    · exact ⟨[], request, requests, rfl, Request.made hle hfirst⟩
    · obtain ⟨before, other, after, rfl, h⟩ := ih (Nat.not_lt.1 hfirst) hlt
      exact ⟨request :: before, other, after, rfl, h⟩

variable {clock : Clock} {requests : List Request}

/-- **Every function was made at a moment of the history.**  At that moment there were fewer
functions than its number says. -/
theorem exists_maker {i : Nat} {closure : Closure}
    (h : ((Machine.initial clock).serve limits requests).heap.functions[i]? = some closure) :
    ∃ maker : Moment, maker.Happens limits clock requests ∧ maker.machine.heap.functions.size ≤ i ∧
      maker.Makes limits.rounds closure := by
  obtain ⟨hlt, -⟩ := Array.getElem?_eq_some_iff.1 h
  obtain ⟨before, request, after, hrequests, mo, hmo, hle, hlt⟩ := serve_made (Nat.zero_le i) hlt
  have hhappens : mo.Happens limits clock requests := ⟨before, request, after, hrequests, hmo⟩
  obtain ⟨maker, made, hr, hle, hmakes, hmade⟩ := Moment.leadsToMaker hle hlt
  have hmaker := hhappens.reaches hr
  have hlast := hmaker.lasts.functions hmade
  obtain rfl : made = closure := Option.some.inj (hlast.symm.trans h)
  exact ⟨maker, hmaker, hle, hmakes⟩

/-! ## Calls in a history -/

variable {mo : Moment} {depth : Nat} {closure method : Closure} {args : List Value}
  {there : Machine} {object : Handle}

/-- What there is when a function is called lasts until the call is over. -/
theorem invoke_lasts {rounds : Nat} (hh : there.heap.HasReceivers)
    (hf : closure.HasReceiver there.heap.frames) :
    there.heap.Lasts ((Eval.invoke (exec rounds depth) closure args).after there).heap := by
  rw [invoke_eq]
  have hobeys : (Plan.invoke closure args .done).Obeys lasting there.heap fun _ _ => True :=
    Plan.obeys_invoke lasting_lawful hf (fun _ _ => trivial) fun _ _ _ _ => trivial
  exact (Policy.Lawful.step_after (lasting_lawful.plan hobeys ⟨hh, trivial⟩)).becomes.change

theorem Eval.after_map {α β : Type} (f : α → β) (step : Eval α) (machine : Machine) :
    (f <$> step).after machine = step.after machine := by
  change Eval.after (EStateM.map f step) machine = _
  unfold Eval.after EStateM.map
  cases step machine <;> rfl

/-- The moment that calls a function is over when the call is. -/
theorem Moment.Invokes.after_eq {rounds : Nat} (h : mo.Invokes rounds depth closure args there) :
    mo.after rounds = (Eval.invoke (exec rounds depth) closure args).after there := by
  obtain ⟨hd, e, he, hi⟩ := h
  obtain ⟨result, hr⟩ := eval_of_invoked hi
  obtain ⟨d, task, machine⟩ := mo
  obtain rfl : task = .expr e := he
  obtain rfl : d = depth + 1 := hd
  have hafter : (eval rounds (depth + 1) e).after machine =
      (result <$> Eval.invoke (exec rounds depth) closure args).after there := by
    unfold Eval.after
    rw [hr]
  rw [Eval.after_map] at hafter
  exact hafter

/-- What there is when a function is called is there at the end. -/
theorem Moment.Happens.lasts_invokes (h : mo.Happens limits clock requests)
    (hi : mo.Invokes limits.rounds depth closure args there) :
    there.heap.Lasts ((Machine.initial clock).serve limits requests).heap := by
  obtain ⟨hw, hm⟩ := h.admitted
  obtain ⟨hh, hf⟩ := lasting_lawful.invokes hi hw hm
  have hcall : there.heap.Lasts (mo.after limits.rounds).heap := by
    rw [hi.after_eq]
    exact invoke_lasts hh hf
  exact hcall.trans h.lasts

/-- A class that is called calls its initializer, bound to the new instance. -/
theorem Moment.invokes_of_class {rounds : Nat} {handle : Handle} {cls : ClassDef} {heap : Heap}
    (hc : mo.CallsValue rounds depth (.class handle cls) args there)
    (ha : args.length = cls.arity) (hm : cls.initializer? = some method)
    (hmade : there.heap.addInstance handle = (.instance object, heap)) :
    mo.Invokes rounds depth (heap.bindMethod method (.instance object)).1 args
      { there with heap := (heap.bindMethod method (.instance object)).2 } := by
  refine Moment.invokes_iff.2 ⟨_, there, hc, congrArg Int.ofNat ha, ?_⟩
  rw [Callable.invoked?, hm, hmade]
  rfl

/-- A class that a value can be called as is on the heap. -/
theorem Heap.class_of_callable {heap : Heap} {f : Value} {handle : Handle} {cls : ClassDef}
    (h : heap.callable? f = some (.class handle cls)) : cls ∈ heap.classes := by
  unfold Heap.callable? at h
  split at h
  all_goals simp only [Option.map_eq_some_iff, reduceCtorEq, and_false, exists_false] at h
  obtain ⟨found, hfound, heq⟩ := h
  cases heq
  exact Array.mem_of_getElem? hfound

/-- **What there is when a method has been bound is there at the end**: the method on a class, and
the bound copy with its frame. -/
theorem Moment.Obtains.lasts {bound : Closure} (ho : mo.Obtains limits.rounds method object bound)
    (h : mo.Happens limits clock requests) :
    ∃ heap : Heap, (∃ cls ∈ heap.classes, ∃ name, cls.methods.get? name = some method) ∧
      bound = (heap.bindMethod method (.instance object)).1 ∧
        (heap.bindMethod method (.instance object)).2.Lasts
          ((Machine.initial clock).serve limits requests).heap := by
  cases ho with
  | @property depth e name machine there _ target _ heval htarget hfield hmethod =>
    obtain ⟨cls, hclass, hname⟩ := Option.bind_eq_some_iff.1 hmethod
    refine ⟨there.heap, ⟨cls, Array.mem_of_getElem? hclass, _, hname⟩, rfl, ?_⟩
    have hbound : (there.heap.bindMethod method (.instance object)).2.Lasts
        (Moment.after limits.rounds ⟨depth + 1, .expr (.get e name), machine⟩).heap := by
      change Heap.Lasts _ ((eval limits.rounds (depth + 1) (.get e name)).after machine).heap
      rw [eval, Eval.after_bind_of_ok heval,
        Eval.after_of_ok (Eval.property_of_method htarget hfield hmethod)]
      exact ⟨fun _ _ h => h, getElem?_push_of_some, fun h => h, fun h => ⟨_, h, rfl⟩⟩
    exact hbound.trans h.lasts
  | @construct depth _ handle _ cls args there _ heap hcalls harity hmethod hinstance =>
    refine ⟨heap, ?_, rfl, h.lasts_invokes (invokes_of_class hcalls harity hmethod hinstance)⟩
    obtain ⟨-, -, -, -, f, -, -, -, -, hcallable⟩ := hcalls
    cases hinstance
    exact ⟨cls, Heap.class_of_callable hcallable, _, hmethod⟩

/-- **The frame of a bound method has the instance**, from when it is made to the end. -/
theorem Moment.Obtains.this_at_end {bound : Closure}
    (ho : mo.Obtains limits.rounds method object bound) (h : mo.Happens limits clock requests) :
    (((Machine.initial clock).serve limits requests).heap.frames.bindings
      bound.environment.frame).get? "this" = some (.instance object) := by
  obtain ⟨heap, -, rfl, hlasts⟩ := ho.lasts h
  refine hlasts.this _ _ ?_
  rw [Heap.bindings_bindMethod]
  exact if_pos rfl

/-- **Every function that is called was made at a moment of the history.**  If it was not made by
the call itself, there were fewer functions at that moment. -/
theorem exists_maker_of_invokes (h : mo.Happens limits clock requests)
    (hi : mo.Invokes limits.rounds depth closure args there) :
    (∃ method object, mo.Obtains limits.rounds method object closure) ∨
      ∃ maker : Moment, maker.Happens limits clock requests ∧
        maker.machine.heap.functions.size < there.heap.functions.size ∧
          maker.Makes limits.rounds closure := by
  obtain ⟨callable, start, hc, hl, hinvoked⟩ := Moment.invokes_iff.1 hi
  cases callable with
  | native code => cases hinvoked
  | «class» handle cls =>
    obtain ⟨method, hm, heq⟩ := Option.map_eq_some_iff.1 hinvoked
    cases heq
    exact .inl ⟨method, _, .construct hc (Int.ofNat.inj hl) hm rfl⟩
  | function closure' =>
    cases hinvoked
    obtain ⟨-, -, -, -, f, -, -, -, -, hcallable⟩ := hc
    -- the function has a number, and the one with that number was made
    unfold Heap.callable? at hcallable
    split at hcallable
    all_goals simp only [Option.map_eq_some_iff, reduceCtorEq, and_false, exists_false] at hcallable
    rename_i handle
    obtain ⟨found, hfound, heq⟩ := hcallable
    cases heq
    obtain ⟨maker, hmaker, hle, hmakes⟩ :=
      exists_maker ((h.lasts_invokes hi).functions hfound)
    have hlt := (Array.getElem?_eq_some_iff.1 hfound).1
    exact .inr ⟨maker, hmaker, Nat.lt_of_le_of_lt hle hlt, hmakes⟩

end History

end ScopedScript

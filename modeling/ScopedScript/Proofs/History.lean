import ScopedScript.Proofs.Calls
import ScopedScript.Proofs.Concatenation

/-!
# The history of a machine

A machine is asked for one thing after another, and each request goes through its moments.  All
these moments together are the history of the machine.  Functions are never taken off the heap,
an instance keeps its class, and a frame keeps its value of `this`; so whatever a machine of the
history has of these, the machine at the end has as well.  Two machines of a history can thus be
compared by what has become of them at the end, and it need not be known which came first.

## Main definitions

* `Heap.Lasts`: what one heap has, another has as well.
* `Moment.Happens`: the moments of a history.
* `Machine.Arises`: the machines of a history.

## Main results

* `Moment.Happens.lasts`: what there is after a moment of the history is there at the end.
* `Machine.Arises.lasts`: so is what there is on any machine of the history.
-/

namespace ScopedScript

/-! ## What lasts -/

/-- **What the first heap has, the second has as well**: the same functions and classes, instances
of the same classes, and frames with the same values of `this`. -/
structure Heap.Lasts (heap heap' : Heap) : Prop where
  this : heap.frames.KeepThis heap'.frames
  functions : ∀ {i : Nat} {closure : Closure}, heap.functions[i]? = some closure →
    heap'.functions[i]? = some closure
  classes : ∀ {i : Nat} {cls : ClassDef}, heap.classes[i]? = some cls →
    heap'.classes[i]? = some cls
  instances : ∀ {i : Nat} {object : Instance}, heap.instances[i]? = some object →
    ∃ object', heap'.instances[i]? = some object' ∧ object'.classIndex = object.classIndex

namespace Heap.Lasts

variable {a b c : Heap}

theorem refl (heap : Heap) : heap.Lasts heap :=
  ⟨fun _ _ h => h, fun h => h, fun h => h, fun h => ⟨_, h, rfl⟩⟩

/-- What lasts twice lasts. -/
theorem trans (hab : a.Lasts b) (hbc : b.Lasts c) : a.Lasts c where
  this frame value h := hbc.this frame value (hab.this frame value h)
  functions h := hbc.functions (hab.functions h)
  classes h := hbc.classes (hab.classes h)
  instances h := by
    obtain ⟨object', h', hc⟩ := hab.instances h
    obtain ⟨object'', h'', hc'⟩ := hbc.instances h'
    exact ⟨object'', h'', hc'.trans hc⟩

/-- The last function of a heap that lasts is one of the later heap. -/
theorem size_le (h : a.Lasts b) : a.functions.size ≤ b.functions.size := by
  cases hs : a.functions.size with
  | zero => exact Nat.zero_le _
  | succ n =>
    have hn : n < a.functions.size := by omega
    have hlast := h.functions (Array.getElem?_eq_getElem hn)
    exact (Array.getElem?_eq_some_iff.1 hlast).1

end Heap.Lasts

/-- **The policy that what there is lasts.** -/
def lasting : Policy := { receivers with change := Heap.Lasts }

/-- A change that keeps the values of `this`, where functions, classes and instances last. -/
theorem lasting_becomes {heap heap' : Heap} (h : receivers.Becomes heap heap')
    (hf : ∀ {i : Nat} {closure : Closure}, heap.functions[i]? = some closure →
      heap'.functions[i]? = some closure)
    (hk : ∀ {i : Nat} {cls : ClassDef}, heap.classes[i]? = some cls →
      heap'.classes[i]? = some cls)
    (hi : ∀ {i : Nat} {object : Instance}, heap.instances[i]? = some object →
      ∃ object', heap'.instances[i]? = some object' ∧ object'.classIndex = object.classIndex) :
    lasting.Becomes heap heap' :=
  ⟨⟨h.change, hf, hk, hi⟩, h.heap⟩

theorem getElem?_push_of_some {α : Type} {xs : Array α} {i : Nat} {x y : α}
    (h : xs[i]? = some x) : (xs.push y)[i]? = some x := by
  obtain ⟨hi, -⟩ := Array.getElem?_eq_some_iff.1 h
  rw [Array.getElem?_push, if_neg (Nat.ne_of_lt hi), h]

/-- **What is on the heap lasts**: functions and classes stay as they are, and instances keep their
class. -/
theorem lasting_lawful : lasting.Lawful where
  refl := Heap.Lasts.refl
  trans := Heap.Lasts.trans
  value_mono _ _ := trivial
  function_mono hc h := receivers_lawful.function_mono hc.this h
  method_mono _ h := h
  environment_mono _ _ := trivial
  plain _ := trivial
  list _ := trivial
  declare := receivers_lawful.declare
  declareMethod _ hb := hb
  wellFormed := receivers_lawful.wellFormed
  «global» _ := trivial
  around _ := trivial
  binding _ _ _ _ := trivial
  field _ _ _ _ := trivial
  methodOf := receivers_lawful.methodOf
  called := receivers_lawful.called
  initializer := receivers_lawful.initializer
  bind hh he hm hn hv :=
    lasting_becomes (receivers_lawful.bind hh he hm hn hv) (fun h => h) (fun h => h)
      fun h => ⟨_, h, rfl⟩
  push hh he :=
    ⟨lasting_becomes (receivers_lawful.push hh he).1 (fun h => h) (fun h => h)
      fun h => ⟨_, h, rfl⟩, trivial⟩
  bindMethod hh hm ho := by
    obtain ⟨hb, hf⟩ := receivers_lawful.bindMethod hh hm ho
    exact ⟨lasting_becomes hb (fun h => h) (fun h => h) fun h => ⟨_, h, rfl⟩, hf⟩
  addFunction hh hf :=
    ⟨lasting_becomes (receivers_lawful.addFunction hh hf).1 getElem?_push_of_some
      (fun h => h) fun h => ⟨_, h, rfl⟩, trivial⟩
  addClass hh hm :=
    ⟨lasting_becomes (receivers_lawful.addClass hh hm).1 (fun h => h) getElem?_push_of_some
      fun h => ⟨_, h, rfl⟩, trivial⟩
  addInstance hh hv :=
    ⟨lasting_becomes (receivers_lawful.addInstance hh hv).1 (fun h => h) (fun h => h)
      fun h => ⟨_, getElem?_push_of_some h, rfl⟩, trivial⟩
  setField {heap handle name value} hh ho hv := by
    refine lasting_becomes (receivers_lawful.setField hh ho hv) (fun h => h) (fun h => h)
      fun {i object} h => ?_
    -- the instance may be the one whose field is set, and it keeps its class
    have hget : (heap.setField handle.index name value).instances[i]? =
        (heap.instances[i]?).map fun object =>
          if handle.index = i then { object with fields := object.fields.insert name value }
          else object := by
      unfold Heap.setField
      rw [Array.getElem?_modify]
      split <;> simp
    rw [hget, h]
    refine ⟨_, rfl, ?_⟩
    dsimp only
    split <;> rfl

/-! ## From a moment to the end of its request -/

/-- What a moment leaves behind, however its evaluation ends. -/
def Moment.after (rounds : Nat) (mo : Moment) : Machine :=
  (mo.task.run rounds mo.depth).after mo.machine

/-- Whether a step succeeds. -/
def Eval.succeeds {α : Type} (step : Eval α) (machine : Machine) : Bool :=
  match step machine with
  | .ok _ _ => true
  | .error _ _ => false

theorem Eval.exists_of_succeeds {α : Type} {step : Eval α} {machine : Machine}
    (h : step.succeeds machine = true) : ∃ a machine', step machine = .ok a machine' := by
  unfold Eval.succeeds at h
  split at h
  · rename_i a machine' hs
    exact ⟨a, machine', hs⟩
  · cases h

theorem Eval.after_of_ok {α : Type} {step : Eval α} {machine machine' : Machine} {a : α}
    (h : step machine = .ok a machine') : step.after machine = machine' := by
  rw [Eval.after, h]

theorem Eval.after_of_error {α : Type} {step : Eval α} {machine machine' : Machine} {stop : Stop}
    (h : step machine = .error stop machine') : step.after machine = machine' := by
  rw [Eval.after, h]

theorem Eval.after_bind_of_ok {α β : Type} {step : Eval α} {next : α → Eval β}
    {machine machine' : Machine} {a : α} (h : step machine = .ok a machine') :
    (step >>= next).after machine = (next a).after machine' := by
  rw [Eval.after_bind, h]

theorem Eval.after_bind_of_error {α β : Type} {step : Eval α} {next : α → Eval β}
    {machine machine' : Machine} {stop : Stop} (h : step machine = .error stop machine') :
    (step >>= next).after machine = machine' := by
  rw [Eval.after_bind, h]

/-- A step in another environment leaves the heap that the step leaves. -/
theorem Eval.heap_after_inEnvironment {α : Type} (env : Environment) (step : Eval α)
    (machine : Machine) :
    ((Eval.inEnvironment env step).after machine).heap =
      (step.after { machine with environment := env }).heap := by
  unfold Eval.after Eval.inEnvironment
  cases step { machine with environment := env } <;> rfl

namespace Policy.Lawful

variable {p : Policy} {rounds depth : Nat} {limits : Limits}

/-- What is left of a plan, after what it does in another environment. -/
theorem within_then (hp : p.Lawful) {α β : Type} {env : Environment} {inner : Plan β}
    {next : β → Plan α} {machine machine' : Machine} {b : β} {ensures : α → Heap → Prop}
    (h : (Plan.within env inner next).Obeys p machine.heap ensures) (hm : p.Admits machine)
    (hb : Eval.inEnvironment env (inner.run (Task.run rounds depth)) machine = .ok b machine') :
    p.change machine.heap machine'.heap ∧ (next b).Obeys p machine'.heap ensures ∧
      p.Admits machine' := by
  have hinner : p.Ends (inner.run (Task.run rounds depth)) { machine with environment := env }
      fun b heap => p.change machine.heap heap → (next b).Obeys p heap ensures :=
    hp.plan h.2 ⟨hm.heap, h.1⟩
  unfold Eval.inEnvironment at hb
  unfold Ends at hinner
  split at hb
  · rename_i a mid hi
    cases hb
    rw [hi] at hinner
    refine ⟨hinner.1.becomes.change, hinner.2 hinner.1.becomes.change, hinner.1.becomes.heap, ?_⟩
    exact hp.environment_mono hinner.1.becomes.change hm.environment
  · cases hb

/-- From the end of a task to the end of a plan that called it, the heap changes as the policy
admits. -/
theorem change_of_calls (hp : p.Lawful) {α : Type} {plan : Plan α} {machine there : Machine}
    {task : Task} {ensures : α → Heap → Prop} (h : plan.Obeys p machine.heap ensures)
    (hm : p.Admits machine) (hc : plan.Calls (Task.run rounds depth) machine task there) :
    p.change ((task.run rounds depth).after there).heap
      ((plan.run (Task.run rounds depth)).after machine).heap := by
  induction plan generalizing machine with
  | done result => exact hc.elim
  | act action next ih =>
    obtain ⟨b, machine', hb, hc⟩ := hc
    have hact := hp.act action hm h.1
    rw [Ends, hb] at hact
    rw [Plan.run, Eval.after_bind_of_ok hb]
    exact ih b (h.2 b machine'.heap hact.1.becomes.change hact.2) (hm.after hp hact.1) hc
  | call first next ih =>
    have hfirst : p.Ends (first.run rounds depth) machine fun r heap => p.Result heap first r :=
      hp.task first h.1 hm
    rw [Plan.run]
    rcases hc with ⟨rfl, rfl⟩ | ⟨r, machine', hr, hc⟩
    · cases hr : first.run rounds depth machine with
      | error stop machine' =>
        rw [Eval.after_bind_of_error hr, Eval.after_of_error hr]
        exact hp.refl _
      | ok r machine' =>
        rw [Ends, hr] at hfirst
        rw [Eval.after_bind_of_ok hr, Eval.after_of_ok hr]
        have hrest := h.2 r machine'.heap hfirst.1.becomes.change hfirst.2
        exact (step_after (hp.plan hrest (hm.after hp hfirst.1))).becomes.change
    · rw [Ends, hr] at hfirst
      rw [Eval.after_bind_of_ok hr]
      exact ih r (h.2 r machine'.heap hfirst.1.becomes.change hfirst.2) (hm.after hp hfirst.1) hc
  | within env inner next ih ihn =>
    have hm' : p.Admits { machine with environment := env } := ⟨hm.heap, h.1⟩
    rw [Plan.run]
    rcases hc with hc | ⟨b, machine', hb, hc⟩
    · have hend : p.change ((task.run rounds depth).after there).heap
          ((inner.run (Task.run rounds depth)).after { machine with environment := env }).heap :=
        ih h.2 hm' hc
      rw [← Eval.heap_after_inEnvironment env _ machine] at hend
      refine hp.trans hend ?_
      cases hb : Eval.inEnvironment env (inner.run (Task.run rounds depth)) machine with
      | error stop machine' =>
        rw [Eval.after_bind_of_error hb, Eval.after_of_error hb]
        exact hp.refl _
      | ok b machine' =>
        obtain ⟨-, hn, hm''⟩ := hp.within_then h hm hb
        rw [Eval.after_bind_of_ok hb, Eval.after_of_ok hb]
        exact (step_after (hp.plan hn hm'')).becomes.change
    · obtain ⟨-, hn, hm''⟩ := hp.within_then h hm hb
      rw [Eval.after_bind_of_ok hb]
      exact ihn b hn hm'' hc

/-- From the beginning of a plan to that of a task which it calls, the heap changes as the policy
admits. -/
theorem change_to_calls (hp : p.Lawful) {α : Type} {plan : Plan α} {machine there : Machine}
    {task : Task} {ensures : α → Heap → Prop} (h : plan.Obeys p machine.heap ensures)
    (hm : p.Admits machine) (hc : plan.Calls (Task.run rounds depth) machine task there) :
    p.change machine.heap there.heap := by
  induction plan generalizing machine with
  | done result => exact hc.elim
  | act action next ih =>
    obtain ⟨b, machine', hb, hc⟩ := hc
    have hact := hp.act action hm h.1
    rw [Ends, hb] at hact
    obtain ⟨hs, hensures⟩ := hact
    exact hp.trans hs.becomes.change
      (ih b (h.2 b machine'.heap hs.becomes.change hensures) (hm.after hp hs) hc)
  | call first next ih =>
    rcases hc with ⟨rfl, rfl⟩ | ⟨r, machine', hr, hc⟩
    · exact hp.refl _
    · have hfirst : p.Ends (first.run rounds depth) machine fun r heap => p.Result heap first r :=
        hp.task first h.1 hm
      rw [Ends, hr] at hfirst
      obtain ⟨hs, hensures⟩ := hfirst
      exact hp.trans hs.becomes.change
        (ih r (h.2 r machine'.heap hs.becomes.change hensures) (hm.after hp hs) hc)
  | within env inner next ih ihn =>
    have hm' : p.Admits { machine with environment := env } := ⟨hm.heap, h.1⟩
    rcases hc with hc | ⟨b, machine', hb, hc⟩
    · change p.change ({ machine with environment := env } : Machine).heap there.heap
      exact ih h.2 hm' hc
    · obtain ⟨hchange, hn, hm''⟩ := hp.within_then h hm hb
      exact hp.trans hchange (ihn b hn hm'' hc)

/-- From the beginning of a moment to that of one which it calls. -/
theorem change_to_moment (hp : p.Lawful) {mo mo' : Moment} (hw : mo.task.WellFormed Token.Scanned)
    (hm : p.Admits mo.machine) (hc : mo.Calls rounds mo') :
    p.change mo.machine.heap mo'.machine.heap := by
  obtain ⟨depth, task, machine⟩ := mo
  obtain ⟨-, hc⟩ := hc
  cases task with
  | expr e => exact hp.change_to_calls (e.plan_obeys hp hw) hm hc
  | stmt s => exact hp.change_to_calls (s.plan_obeys hp rounds hw) hm hc

/-- From the end of a moment to the end of one that leads to it. -/
theorem change_of_reaches (hp : p.Lawful) (mo : Moment) {mo' : Moment}
    (hw : mo.task.WellFormed Token.Scanned) (hm : p.Admits mo.machine)
    (hr : mo.Reaches rounds mo') : p.change (mo'.after rounds).heap (mo.after rounds).heap := by
  induction hr with
  | refl => exact hp.refl _
  | @tail mid last hr hc ih =>
    refine hp.trans ?_ ih
    obtain ⟨hw', hm'⟩ := hp.reaches mo hw hm hr
    obtain ⟨depth, task, machine⟩ := mid
    obtain ⟨depth', task', machine'⟩ := last
    obtain ⟨hd, hc⟩ := hc
    obtain rfl : depth = depth' + 1 := hd
    unfold Moment.after
    dsimp only at hw' hm' hc ⊢
    rw [Task.run_succ]
    cases task with
    | expr e => exact hp.change_of_calls (e.plan_obeys hp hw') hm' hc
    | stmt s => exact hp.change_of_calls (s.plan_obeys hp rounds hw') hm' hc

/-- From the end of a moment to the end of its request. -/
theorem change_of_evaluates (hp : p.Lawful) {request : Request} {machine : Machine} {mo : Moment}
    (hm : p.Admits machine) (h : request.Evaluates limits machine mo) :
    p.change (mo.after limits.rounds).heap ((request.perform limits).after machine).heap := by
  cases request with
  | program source =>
    obtain ⟨before, s, after, value, start, hl, hb, hr⟩ := h
    have hw := load_wellFormed hl
    simp only [List.forall_mem_append, List.forall_mem_cons] at hw
    obtain ⟨hwb, hws, hwa⟩ := hw
    have hbefore : p.Ends (ScopedScript.execAll limits .nil before) machine fun v heap =>
        p.value heap v := hp.execAll hwb hm (hp.plain rfl)
    rw [Ends, hb] at hbefore
    have hstart : p.Admits start := hm.after hp hbefore.1
    have hreached : p.change (mo.after limits.rounds).heap
        ((exec limits.rounds limits.depth s).after start).heap :=
      change_of_reaches hp ⟨limits.depth, .stmt s, start⟩ hws hstart hr
    refine hp.trans hreached ?_
    rw [Request.perform, run, Run.after_ofExcept_bind, hl]
    dsimp only
    rw [Run.after_ofEval, execAll_append, Eval.after_bind_of_ok hb, ScopedScript.execAll]
    have hs : p.Ends (exec limits.rounds limits.depth s) start fun outcome heap =>
        p.value heap outcome.value := hp.task (.stmt s) hws hstart
    cases hr : exec limits.rounds limits.depth s start with
    | error stop machine' =>
      rw [Eval.after_bind_of_error hr, Eval.after_of_error hr]
      exact hp.refl _
    | ok outcome machine' =>
      rw [Ends, hr] at hs
      rw [Eval.after_bind_of_ok hr, Eval.after_of_ok hr]
      exact (step_after (hp.execAll hwa (hstart.after hp hs.1) hs.2)).becomes.change
  | expression source =>
    obtain ⟨e, hl, hr⟩ := h
    rw [Request.perform, runExpression, Run.after_ofExcept_bind, hl]
    dsimp only
    rw [Run.after_ofEval]
    exact change_of_reaches hp ⟨limits.depth, .expr e, machine⟩ (loadExpression_wellFormed hl) hm hr
  | statement source =>
    obtain ⟨s, hl, hr⟩ := h
    rw [Request.perform, runStatement, Run.after_ofExcept_bind, hl]
    dsimp only
    rw [Run.after_map, Run.after_ofEval]
    exact change_of_reaches hp ⟨limits.depth, .stmt s, machine⟩ (loadStatement_wellFormed hl) hm hr

/-- Requests in a row make an admitted change. -/
theorem change_of_serve (hp : p.Lawful) (requests : List Request) {machine : Machine}
    (hm : p.Admits machine) : p.change machine.heap (machine.serve limits requests).heap := by
  induction requests generalizing machine with
  | nil => exact hp.refl _
  | cons request requests ih =>
    have hs : p.Step machine ((request.perform limits).after machine) := hp.perform request hm
    exact hp.trans hs.becomes.change (ih (hm.after hp hs))

end Policy.Lawful

/-! ## The moments of a history -/

/-- **The moment is one of the history** of a new machine that requests are made of, one after the
other. -/
def Moment.Happens (limits : Limits) (clock : Clock) (requests : List Request) (mo : Moment) :
    Prop :=
  ∃ before request after, requests = before ++ request :: after ∧
    request.Evaluates limits ((Machine.initial clock).serve limits before) mo

/-- Requests are made one after the other. -/
theorem Machine.serve_append (limits : Limits) (machine : Machine) (before after : List Request) :
    machine.serve limits (before ++ after) = (machine.serve limits before).serve limits after := by
  unfold Machine.serve
  rw [List.foldl_append]

theorem initial_lasting (clock : Clock) : lasting.Admits (Machine.initial clock) :=
  ⟨(initial_hasReceivers clock).heap, trivial⟩

namespace Moment

variable {limits : Limits} {clock : Clock} {requests : List Request} {mo mo' : Moment}

/-- At every moment of a history the node is well-formed, and the machine is admitted. -/
theorem Happens.admitted (h : mo.Happens limits clock requests) :
    mo.task.WellFormed Token.Scanned ∧ lasting.Admits mo.machine := by
  obtain ⟨before, request, after, rfl, h⟩ := h
  exact lasting_lawful.evaluates (lasting_lawful.serve before (initial_lasting clock)) h

/-- A moment that is reached from one of the history is one of the history. -/
theorem Happens.reaches (h : mo.Happens limits clock requests) (hr : mo.Reaches limits.rounds mo') :
    mo'.Happens limits clock requests := by
  obtain ⟨before, request, after, hrequests, h⟩ := h
  refine ⟨before, request, after, hrequests, ?_⟩
  cases request with
  | program source =>
    obtain ⟨bs, s, as, value, start, hl, hb, hr'⟩ := h
    exact ⟨bs, s, as, value, start, hl, hb, hr'.trans hr⟩
  | expression source | statement source =>
    obtain ⟨tree, hl, hr'⟩ := h
    exact ⟨tree, hl, hr'.trans hr⟩

/-- **What there is after a moment of the history is there at the end.** -/
theorem Happens.lasts (h : mo.Happens limits clock requests) :
    (mo.after limits.rounds).heap.Lasts ((Machine.initial clock).serve limits requests).heap := by
  obtain ⟨before, request, after, rfl, h⟩ := h
  have hm : lasting.Admits ((Machine.initial clock).serve limits before) :=
    lasting_lawful.serve before (initial_lasting clock)
  have hs : lasting.Step _ ((request.perform limits).after _) := lasting_lawful.perform request hm
  rw [Machine.serve_append]
  exact Heap.Lasts.trans (lasting_lawful.change_of_evaluates hm h)
    (lasting_lawful.change_of_serve after (hm.after lasting_lawful hs))

/-- What there is at a moment of the history is there when its evaluation is over. -/
theorem Happens.lasts_after (h : mo.Happens limits clock requests) :
    mo.machine.heap.Lasts (mo.after limits.rounds).heap := by
  obtain ⟨hw, hm⟩ := h.admitted
  exact (Policy.Lawful.step_after (lasting_lawful.task mo.task hw hm)).becomes.change

/-- What there is at a moment of the history is there at the moments that it calls. -/
theorem Happens.lasts_calls (h : mo.Happens limits clock requests)
    (hc : mo.Calls limits.rounds mo') : mo.machine.heap.Lasts mo'.machine.heap := by
  obtain ⟨hw, hm⟩ := h.admitted
  exact lasting_lawful.change_to_moment hw hm hc

/-- What there is at a moment of the history is there at the end. -/
theorem Happens.lasts_from (h : mo.Happens limits clock requests) :
    mo.machine.heap.Lasts ((Machine.initial clock).serve limits requests).heap :=
  h.lasts_after.trans h.lasts

end Moment

/-- **The machine is one of the history**: as it is at the end, or when a moment begins or is
over. -/
def Machine.Arises (limits : Limits) (clock : Clock) (requests : List Request) (machine : Machine) :
    Prop :=
  machine = (Machine.initial clock).serve limits requests ∨
    ∃ mo : Moment, mo.Happens limits clock requests ∧
      (machine = mo.machine ∨ machine = mo.after limits.rounds)

namespace Machine.Arises

variable {limits : Limits} {clock : Clock} {requests : List Request} {machine : Machine}

/-- **What there is on a machine of the history is there at the end.** -/
theorem lasts (h : machine.Arises limits clock requests) :
    machine.heap.Lasts ((Machine.initial clock).serve limits requests).heap := by
  rcases h with rfl | ⟨mo, hmo, rfl | rfl⟩
  · exact .refl _
  · exact hmo.lasts_from
  · exact hmo.lasts

end Machine.Arises

end ScopedScript

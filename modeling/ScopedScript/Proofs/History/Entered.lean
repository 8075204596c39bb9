import ScopedScript.Proofs.History.Makers

/-!
# Which environment a node is evaluated in

A node has its own parts evaluated in its own environment, except that the statements of a block
are executed in a new frame inside it.  The only other nodes it has evaluated are the statements
of a function that it calls, and these are executed in a new frame inside the environment of the
function.  So every moment that a moment calls is of one of two kinds.

## Main definitions

* `Plan.Stays`: a plan that stays in one environment.
* `Moment.Enters`: a function is called at a moment, and another moment is in its body.

## Main results

* `Moment.Calls.own_or_enters`: the two kinds of moments that a moment calls.
* `Moment.Enters.body`: what is evaluated when a function is entered, and where.
-/

namespace ScopedScript

/-! ## Plans that stay in one environment -/

namespace Plan

variable {α β : Type} {P : Task → Prop} {rounds depth : Nat} {machine there : Machine} {task : Task}

/-- **The plan stays in the environment** in which it is begun, and the tasks that it may call are
as `P` says. -/
def Stays (P : Task → Prop) {α : Type} : Plan α → Prop
  | done _ => True
  | act _ next => ∀ b, (next b).Stays P
  | call task next => P task ∧ ∀ r, (next r).Stays P
  | within _ _ _ => False

/-- What a plan that stays in its environment calls, and where. -/
theorem Stays.of_calls {p : Plan α} (h : p.Stays P)
    (hc : p.Calls (Task.run rounds depth) machine task there) :
    P task ∧ there.environment = machine.environment := by
  induction p generalizing machine with
  | done result => exact hc.elim
  | act action next ih =>
    obtain ⟨b, machine', hb, hc⟩ := hc
    have hsame := SameEnvironment.act action machine
    rw [Eval.after_of_ok hb] at hsame
    obtain ⟨hP, henv⟩ := ih b (h b) hc
    exact ⟨hP, henv.trans hsame⟩
  | call first next ih =>
    rcases hc with ⟨rfl, rfl⟩ | ⟨r, machine', hr, hc⟩
    · exact ⟨h.1, rfl⟩
    · have hsame := sameEnvironment_respected.task rounds depth first machine
      rw [Eval.after_of_ok hr] at hsame
      obtain ⟨hP, henv⟩ := ih r (h.2 r) hc
      exact ⟨hP, henv.trans hsame⟩
  | within env inner next => exact h.elim

theorem stays_evalAll {es : List Expr} {next : List Value → Plan α} (he : ∀ e, P (.expr e))
    (hn : ∀ vs, (next vs).Stays P) : (evalAll es next).Stays P := by
  induction es generalizing next with
  | nil => exact hn []
  | cons e es ih => exact ⟨he e, fun v => ih fun vs => hn (v :: vs)⟩

theorem stays_execAll {ss : List Stmt} (hs : ∀ s ∈ ss, P (.stmt s)) : (execAll ss).Stays P := by
  induction ss with
  | nil => trivial
  | cons s ss ih =>
    obtain ⟨hs, hss⟩ := List.forall_mem_cons.1 hs
    refine ⟨hs, fun outcome => ?_⟩
    cases outcome with
    | returned value => trivial
    | normal value => exact ih hss

theorem stays_repeatWhile {condition : Expr} {body : Stmt} (hc : P (.expr condition))
    (hb : P (.stmt body)) (n : Nat) : (repeatWhile condition body n).Stays P := by
  induction n with
  | zero => exact fun _ => trivial
  | succ n ih =>
    refine ⟨hc, fun v holds => ?_⟩
    dsimp only
    split
    · refine ⟨hb, fun outcome => ?_⟩
      cases outcome with
      | returned value => trivial
      | normal value => exact ih
    · trivial

end Plan

/-- An expression that is not a call stays in its environment, and has expressions evaluated. -/
theorem Expr.plan_stays {e : Expr} (h : ∀ callee paren args, e ≠ .call callee paren args) :
    e.plan.Stays fun task => ∃ e', task = .expr e' := by
  cases e with
  | call callee paren args => exact absurd rfl (h callee paren args)
  | literal => trivial
  | «variable» | lambda | this => exact fun _ => trivial
  | group => exact ⟨⟨_, rfl⟩, fun _ => trivial⟩
  | assign | get => exact ⟨⟨_, rfl⟩, fun _ _ => trivial⟩
  | unary => exact ⟨⟨_, rfl⟩, fun _ _ _ => trivial⟩
  | binary => exact ⟨⟨_, rfl⟩, fun _ => ⟨⟨_, rfl⟩, fun _ _ _ => trivial⟩⟩
  | logical =>
    refine ⟨⟨_, rfl⟩, fun a holds => ?_⟩
    dsimp only
    split
    · trivial
    · exact ⟨⟨_, rfl⟩, fun _ _ => trivial⟩
  | conditional =>
    refine ⟨⟨_, rfl⟩, fun v holds => ?_⟩
    dsimp only
    split <;> exact ⟨⟨_, rfl⟩, fun _ => trivial⟩
  | sequence items => exact Plan.stays_evalAll (fun e => ⟨e, rfl⟩) fun _ => trivial
  | set =>
    refine ⟨⟨_, rfl⟩, fun o target => ?_⟩
    cases target with
    | none => exact fun _ => trivial
    | some target => exact ⟨⟨_, rfl⟩, fun _ _ => trivial⟩

/-- A statement that is not a block stays in its environment. -/
theorem Stmt.plan_stays (rounds : Nat) {s : Stmt} (h : ∀ ss, s ≠ .block ss) :
    (s.plan rounds).Stays fun _ => True := by
  cases s with
  | block ss => exact absurd rfl (h ss)
  | «class» => exact fun _ => trivial
  | expression => exact ⟨trivial, fun _ => trivial⟩
  | print => exact ⟨trivial, fun _ _ => trivial⟩
  | var name initializer =>
    cases initializer with
    | none => exact fun _ => trivial
    | some initializer => exact ⟨trivial, fun _ _ => trivial⟩
  | branch condition whenTrue whenFalse =>
    refine ⟨trivial, fun v holds => ?_⟩
    dsimp only
    split
    · exact ⟨trivial, fun _ => trivial⟩
    · cases whenFalse with
      | none => trivial
      | some whenFalse => exact ⟨trivial, fun _ => trivial⟩
  | loop condition body => exact Plan.stays_repeatWhile trivial trivial rounds
  | function decl =>
    cases decl
    exact fun _ => trivial
  | «return» keyword value =>
    cases value with
    | none => trivial
    | some value => exact ⟨trivial, fun _ => trivial⟩

/-! ## Entering functions -/

/-- **A task is called by the body of a function** that is called on a machine. -/
def Closure.BodyCalls (rounds depth : Nat) (closure : Closure) (args : List Value)
    (start : Machine) (task : Task) (there : Machine) : Prop :=
  ∃ env mid, (Action.openCall closure args).run start = .ok env mid ∧
    (Plan.execAll closure.body).Calls (Task.run rounds depth) { mid with environment := env }
      task there

/-- **A function is called at the first moment, and the second is the beginning of a statement of
its body.** -/
def Moment.Enters (rounds : Nat) (mo : Moment) (closure : Closure) (mo' : Moment) : Prop :=
  mo.Calls rounds mo' ∧ ∃ args start, mo.Invokes rounds mo'.depth closure args start ∧
    closure.BodyCalls rounds mo'.depth args start mo'.task mo'.machine

section Calls

variable {α : Type} {rounds depth : Nat} {machine there : Machine} {task : Task}

/-- A plan that calls no task. -/
def Plan.CallsNone (p : Plan α) : Prop := p.CallsOnly fun _ => False

theorem Plan.callsNone_done (a : α) : (Plan.done a).CallsNone := trivial

theorem environment_of_eval {e : Expr} {value : Value} {machine' : Machine}
    (h : eval rounds depth e machine = .ok value machine') :
    machine'.environment = machine.environment := by
  have hsame : SameEnvironment machine ((eval rounds depth e).after machine) :=
    sameEnvironment_respected.task rounds depth (.expr e) machine
  rw [Eval.after_of_ok h] at hsame
  exact hsame

theorem Plan.bodyCalls_of_invoke {closure : Closure} {args : List Value} {next : Value → Plan α}
    (hn : ∀ v, (next v).CallsNone)
    (hc : (Plan.invoke closure args next).Calls (Task.run rounds depth) machine task there) :
    closure.BodyCalls rounds depth args machine task there := by
  obtain ⟨env, mid, ho, hc | ⟨outcome, mid', -, hc⟩⟩ := hc
  · exact ⟨env, mid, ho, hc⟩
  · dsimp only at hc
    split at hc
    · obtain ⟨v, _, -, hc⟩ := hc
      exact ((hn v).of_calls hc).elim
    · cases outcome with
      | returned value => exact ((hn value).of_calls hc).elim
      | normal value => exact ((hn .nil).of_calls hc).elim

theorem Plan.bodyCalls_of_apply {callee : Value} {paren : Token} {args : List Value}
    (hc : (Plan.apply callee paren args).Calls (Task.run rounds depth) machine task there) :
    ∃ callable closure start, machine.heap.callable? callee = some callable ∧
      args.length = callable.arity ∧ callable.invoked? machine = some (closure, start) ∧
        closure.BodyCalls rounds depth args start task there := by
  obtain ⟨callable?, mid, hcallable, hc⟩ := hc
  cases hcallable
  cases hf : machine.heap.callable? callee with
  | none =>
    rw [hf] at hc
    obtain ⟨_, _, -, hc⟩ := hc
    exact hc.elim
  | some callable =>
    rw [hf] at hc
    dsimp only at hc
    split at hc
    · obtain ⟨_, _, -, hc⟩ := hc
      exact hc.elim
    · rename_i hl
      refine ⟨callable, ?_⟩
      cases callable with
      | function closure =>
        have hc :
            (Plan.invoke closure args .done).Calls (Task.run rounds depth) machine task there := hc
        exact ⟨closure, machine, rfl, Decidable.not_not.1 hl, rfl,
          Plan.bodyCalls_of_invoke (fun _ => Plan.callsNone_done _) hc⟩
      | native code =>
        obtain ⟨_, _, -, hc⟩ := hc
        exact hc.elim
      | «class» handle cls =>
        obtain ⟨object, mid, hcreate, hc⟩ := hc
        cases hcreate
        cases hi : cls.initializer? with
        | none =>
          rw [hi] at hc
          exact hc.elim
        | some method =>
          rw [hi] at hc
          obtain ⟨bound, mid, hbind, hc⟩ := hc
          rw [Action.run, bindMethod_eq] at hbind
          cases hbind
          have hb := Plan.bodyCalls_of_invoke (fun _ => Plan.callsNone_done _) hc
          refine ⟨_, _, rfl, Decidable.not_not.1 hl, ?_, hb⟩
          rw [Callable.invoked?, hi]
          rfl

theorem Plan.calls_evalAll {es : List Expr} {next : List Value → Plan α}
    (hc : (Plan.evalAll es next).Calls (Task.run rounds depth) machine task there) :
    task ∈ es.map Task.expr ∧ there.environment = machine.environment ∨
      ∃ vs mid, es.mapM (eval rounds depth) machine = .ok vs mid ∧
        (next vs).Calls (Task.run rounds depth) mid task there := by
  induction es generalizing machine next with
  | nil => exact .inr ⟨[], machine, rfl, hc⟩
  | cons e es ih =>
    rcases hc with ⟨rfl, rfl⟩ | ⟨v, mid, hv, hc⟩
    · exact .inl ⟨List.mem_cons_self, rfl⟩
    · have hv : eval rounds depth e machine = .ok v mid := hv
      rcases ih hc with ⟨hm, henv⟩ | ⟨vs, last, hvs, hc⟩
      · exact .inl ⟨List.mem_cons_of_mem _ hm, henv.trans (environment_of_eval hv)⟩
      · refine .inr ⟨v :: vs, last, ?_, hc⟩
        rw [List.mapM_cons, bind_of_ok hv, bind_of_ok hvs]
        rfl

/-- What a call expression has evaluated: the callee and the arguments, and then the body of the
function that it calls. -/
theorem Expr.calls_call {callee : Expr} {paren : Token} {args : List Expr}
    (hc : (Expr.call callee paren args).plan.Calls (Task.run rounds depth) machine task there) :
    task ∈ (Task.expr (.call callee paren args)).ownParts ∧
        there.environment = machine.environment ∨
      ∃ closure vs start,
        (Expr.call callee paren args).invoked? rounds depth machine = some (closure, vs, start) ∧
          closure.BodyCalls rounds depth vs start task there := by
  rcases hc with ⟨rfl, rfl⟩ | ⟨f, mid, hf, hc⟩
  · exact .inl ⟨List.mem_cons_self, rfl⟩
  · have hf : eval rounds depth callee machine = .ok f mid := hf
    rcases Plan.calls_evalAll hc with ⟨hm, henv⟩ | ⟨vs, start, hvs, hc⟩
    · exact .inl ⟨List.mem_cons_of_mem _ hm, henv.trans (environment_of_eval hf)⟩
    · obtain ⟨callable, closure, start', hcallable, hl, hi, hb⟩ := Plan.bodyCalls_of_apply hc
      refine .inr ⟨closure, vs, start', ?_, hb⟩
      simp only [Expr.invoked?, hf, hvs, hcallable, hl, hi, if_true, Option.map_some]

end Calls

/-- A call is in a new frame inside the environment of the function. -/
theorem openCall_environment {closure : Closure} {args : List Value} {machine mid : Machine}
    {env : Environment} (h : (Action.openCall closure args).run machine = .ok env mid) :
    env = closure.environment.inner machine.heap.frames.next := by
  have hpush : Eval.onHeap (·.pushFrame closure.environment) machine =
      .ok (closure.environment.inner machine.heap.frames.next)
        { machine with heap := (machine.heap.pushFrame closure.environment).2 } := rfl
  rw [Action.run, bind_of_ok hpush] at h
  obtain ⟨_, _, -, h⟩ := bind_eq_ok_iff.1 h
  exact (pure_eq_ok_iff.1 h).1.symm

namespace Moment

variable {rounds : Nat} {mo mo' : Moment} {closure : Closure}

/-- **What is evaluated when a function is entered, and where.** -/
theorem Enters.body (h : mo.Enters rounds closure mo') :
    (∃ s ∈ closure.body, mo'.task = .stmt s) ∧
      ∃ frame, mo'.machine.environment = closure.environment.inner frame := by
  obtain ⟨-, args, start, -, env, mid, ho, hc⟩ := h
  have hstays : (Plan.execAll closure.body).Stays fun task => ∃ s ∈ closure.body, task = .stmt s :=
    Plan.stays_execAll fun s hs => ⟨s, hs, rfl⟩
  obtain ⟨hs, henv⟩ := hstays.of_calls hc
  exact ⟨hs, start.heap.frames.next, henv.trans (openCall_environment ho)⟩

/-- A node of one's own is evaluated in the same environment, or in a frame inside it. -/
def Stacks (mo mo' : Moment) : Prop :=
  ∃ inner, mo'.machine.environment.chain = inner ++ mo.machine.environment.chain

theorem stacks_of_eq (h : mo'.machine.environment = mo.machine.environment) : mo.Stacks mo' :=
  ⟨[], by rw [h, List.nil_append]⟩

/-- **The two kinds of moments that a moment calls**: for one of its own parts, in its environment
or in a frame inside it; and for a statement of a function that it calls. -/
theorem Calls.own_or_enters (h : mo.Calls rounds mo') :
    mo'.task ∈ mo.task.ownParts ∧ mo.Stacks mo' ∨ ∃ closure, mo.Enters rounds closure mo' := by
  obtain ⟨depth, task, machine⟩ := mo
  obtain ⟨depth', task', there⟩ := mo'
  obtain ⟨hd, hc⟩ := id h
  obtain rfl : depth = depth' + 1 := hd
  cases task with
  | stmt s =>
    have hown : task' ∈ (Task.stmt s).ownParts := (s.plan_callsOnly rounds).of_calls hc
    refine .inl ⟨hown, ?_⟩
    by_cases hb : ∃ ss, s = .block ss
    · obtain ⟨ss, rfl⟩ := hb
      obtain ⟨env, mid, hopen, hc | ⟨_, _, -, hc⟩⟩ := hc
      · cases hopen
        have hstays : (Plan.execAll ss).Stays fun _ => True := Plan.stays_execAll fun _ _ => trivial
        obtain ⟨-, henv⟩ := hstays.of_calls hc
        exact ⟨[machine.heap.frames.next], by rw [henv]; rfl⟩
      · exact hc.elim
    · exact stacks_of_eq ((Stmt.plan_stays rounds fun ss hs => hb ⟨ss, hs⟩).of_calls hc).2
  | expr e =>
    by_cases hcall : ∃ callee paren args, e = .call callee paren args
    · obtain ⟨callee, paren, args, rfl⟩ := hcall
      rcases Expr.calls_call hc with ⟨hown, henv⟩ | ⟨closure, vs, start, hi, hb⟩
      · exact .inl ⟨hown, stacks_of_eq henv⟩
      · exact .inr ⟨closure, h, vs, start, ⟨rfl, _, rfl, hi⟩, hb⟩
    · obtain ⟨he, henv⟩ := (Expr.plan_stays fun callee paren args he =>
        hcall ⟨callee, paren, args, he⟩).of_calls hc
      obtain ⟨e', rfl⟩ := he
      exact .inl ⟨e.plan_callsOnly.of_calls hc e' rfl, stacks_of_eq henv⟩

/-- An own part is evaluated in the same environment, or in a frame inside it. -/
theorem Calls.stacks (h : mo.Calls rounds mo') (hown : mo'.task ∈ mo.task.ownParts) :
    mo.Stacks mo' := by
  rcases h.own_or_enters with ⟨-, hs⟩ | ⟨closure, henters⟩
  · exact hs
  · obtain ⟨⟨s, -, hs⟩, -⟩ := henters.body
    obtain ⟨-, args, start, ⟨-, e, he, -⟩, -⟩ := henters
    rw [he] at hown
    obtain ⟨e', he'⟩ := Task.ownParts_expr hown
    rw [hs] at he'
    cases he'

/-- What there is when a function is called is there when a statement of its body begins. -/
theorem Happens.lasts_bodyCalls {limits : Limits} {clock : Clock} {requests : List Request}
    {depth : Nat} {args : List Value} {start there : Machine} {task : Task}
    (h : mo.Happens limits clock requests)
    (hi : mo.Invokes limits.rounds depth closure args start)
    (hb : closure.BodyCalls limits.rounds depth args start task there) :
    start.heap.Lasts there.heap := by
  obtain ⟨hw, hm⟩ := h.admitted
  obtain ⟨hh, hf⟩ := lasting_lawful.invokes hi hw hm
  have hobeys : (Plan.invoke closure args .done).Obeys lasting start.heap fun _ _ => True :=
    Plan.obeys_invoke lasting_lawful hf (fun _ _ => trivial) fun _ _ _ _ => trivial
  obtain ⟨env, mid, ho, hc⟩ := hb
  exact lasting_lawful.change_to_calls hobeys ⟨hh, trivial⟩ ⟨env, mid, ho, .inl hc⟩

end Moment

end ScopedScript

import ScopedScript.Proofs.Moments
import ScopedScript.Proofs.Scope.Loaded

/-!
# The log of an evaluation

The log of a node's evaluation says what happens in its course, in order: which nodes begin to
be evaluated, and which are over, with their results.  What happens in a function that is
called meanwhile is marked as such.  So the entries of a function's body without a mark are
about its own code and about this call of it, also where the function calls itself.

An expression has a statement executed only by calling the function whose body it is in.  That
is where the marks are set.

## Main definitions

* `Task.ownParts`, `Task.Owns`: the nodes inside a node, without those of inner functions.
* `Event`: an entry of the log.
* `Plan.log`, `Task.log`, `callLog`: the logs of plans, nodes and calls.

## Main results

* `Task.begun_iff_reaches`: the log has every node that is evaluated, and no other.
* `Task.log_owned`: an entry without a mark is about a node of one's own.
* `callLog_owned`: and in a call, about one of the function's own body.
-/

namespace ScopedScript

/-! ## The own code of a node -/

namespace Task

/-- The nodes that a node is made of and that run with it.  The body of a function runs only
when the function is called. -/
def ownParts : Task → List Task
  | expr (.lambda _ _ _) | stmt (.function _) | stmt (.class _ _) => []
  | task => task.parts

/-- **The second node is in the own code of the first**, or the same. -/
def Owns : Task → Task → Prop := Relation.ReflTransGen fun outer inner => inner ∈ outer.ownParts

/-- An expression owns expressions only. -/
theorem ownParts_expr {e : Expr} {part : Task} (h : part ∈ (expr e).ownParts) :
    ∃ e', part = expr e' := by
  cases e with
  | literal | «variable» | this | lambda => cases h
  | assign | group | unary | get => exact ⟨_, List.mem_singleton.1 h⟩
  | binary | logical | set =>
    simp only [ownParts, parts, Expr.parts, List.mem_cons, List.not_mem_nil, or_false] at h
    rcases h with rfl | rfl <;> exact ⟨_, rfl⟩
  | conditional =>
    simp only [ownParts, parts, Expr.parts, List.mem_cons, List.not_mem_nil, or_false] at h
    rcases h with rfl | rfl | rfl <;> exact ⟨_, rfl⟩
  | sequence =>
    obtain ⟨e', -, rfl⟩ := List.mem_map.1 h
    exact ⟨e', rfl⟩
  | call =>
    rcases List.mem_cons.1 h with rfl | h
    · exact ⟨_, rfl⟩
    · obtain ⟨e', -, rfl⟩ := List.mem_map.1 h
      exact ⟨e', rfl⟩

theorem Owns.expr {e : Expr} {task : Task} (h : (expr e).Owns task) : ∃ e', task = .expr e' := by
  induction h with
  | refl => exact ⟨e, rfl⟩
  | tail _ hp ih =>
    obtain ⟨e', rfl⟩ := ih
    exact ownParts_expr hp

/-- What a node owns is the node itself or owned by one of its parts. -/
theorem owns_iff {outer inner : Task} :
    outer.Owns inner ↔ outer = inner ∨ ∃ part ∈ outer.ownParts, part.Owns inner := by
  constructor
  · intro h
    rcases Relation.ReflTransGen.cases_head h with rfl | ⟨part, hp, h⟩
    · exact .inl rfl
    · exact .inr ⟨part, hp, h⟩
  · rintro (rfl | ⟨part, hp, h⟩)
    · exact .refl
    · exact .head hp h

end Task

/-! ## Logs -/

/-- **An entry of a log**: a node begins to be evaluated, or it is over with a result; or an
entry of a call that is made meanwhile. -/
inductive Event where
  | begins (task : Task)
  | ends (task : Task) (result : task.Result)
  | inCall (event : Event)

/-- The node that an entry is about, if it is not one of another call. -/
def Event.own? : Event → Option Task
  | begins task => some task
  | ends task _ => some task
  | inCall _ => none

namespace Plan

variable (perform : (task : Task) → Eval task.Result) (note : Task → Machine → List Event)

/-- **The log of a plan** that is followed from a machine, given what tasks do and their logs.
Nothing is logged after what ends early. -/
def log {α : Type} : Plan α → Machine → List Event
  | done _, _ => []
  | act action next, machine =>
    match action.run machine with
    | .ok b machine' => (next b).log machine'
    | .error _ _ => []
  | call task next, machine =>
    note task machine ++
      match perform task machine with
      | .ok r machine' => (next r).log machine'
      | .error _ _ => []
  | within env inner next, machine =>
    inner.log { machine with environment := env } ++
      match Eval.inEnvironment env (inner.run perform) machine with
      | .ok b machine' => (next b).log machine'
      | .error _ _ => []

/-- Every task that the plan may call is as `P` says. -/
def CallsOnly (P : Task → Prop) {α : Type} : Plan α → Prop
  | done _ => True
  | act _ next => ∀ b, (next b).CallsOnly P
  | call task next => P task ∧ ∀ r, (next r).CallsOnly P
  | within _ inner next => inner.CallsOnly P ∧ ∀ b, (next b).CallsOnly P

variable {perform note}

/-- **A plan logs what the tasks log that it calls.** -/
theorem mem_log_iff {α : Type} {p : Plan α} {machine : Machine} {event : Event} :
    event ∈ p.log perform note machine ↔
      ∃ task there, p.Calls perform machine task there ∧ event ∈ note task there := by
  induction p generalizing machine with
  | done result => simp [log, Calls]
  | act action next ih =>
    rw [log]
    constructor
    · intro he
      cases ha : action.run machine with
      | error stop machine' =>
        rw [ha] at he
        cases he
      | ok b machine' =>
        rw [ha] at he
        obtain ⟨task, there, hc, he⟩ := (ih b).1 he
        exact ⟨task, there, ⟨b, machine', ha, hc⟩, he⟩
    · rintro ⟨task, there, ⟨b, machine', ha, hc⟩, he⟩
      rw [ha]
      exact (ih b).2 ⟨task, there, hc, he⟩
  | call task next ih =>
    rw [log, List.mem_append]
    constructor
    · rintro (he | he)
      · exact ⟨task, machine, .inl ⟨rfl, rfl⟩, he⟩
      · cases hr : perform task machine with
        | error stop machine' =>
          rw [hr] at he
          cases he
        | ok r machine' =>
          rw [hr] at he
          obtain ⟨task', there, hc, he⟩ := (ih r).1 he
          exact ⟨task', there, .inr ⟨r, machine', hr, hc⟩, he⟩
    · rintro ⟨task', there, ⟨rfl, rfl⟩ | ⟨r, machine', hr, hc⟩, he⟩
      · exact .inl he
      · rw [hr]
        exact .inr ((ih r).2 ⟨task', there, hc, he⟩)
  | within env inner next ih ihn =>
    rw [log, List.mem_append, ih]
    constructor
    · rintro (⟨task', there, hc, he⟩ | he)
      · exact ⟨task', there, .inl hc, he⟩
      · cases hb : Eval.inEnvironment env (inner.run perform) machine with
        | error stop machine' =>
          rw [hb] at he
          cases he
        | ok b machine' =>
          rw [hb] at he
          obtain ⟨task', there, hc, he⟩ := (ihn b).1 he
          exact ⟨task', there, .inr ⟨b, machine', hb, hc⟩, he⟩
    · rintro ⟨task', there, hc | ⟨b, machine', hb, hc⟩, he⟩
      · exact .inl ⟨task', there, hc, he⟩
      · rw [hb]
        exact .inr ((ihn b).2 ⟨task', there, hc, he⟩)

theorem CallsOnly.of_calls {P : Task → Prop} {α : Type} {p : Plan α} (h : p.CallsOnly P)
    {machine there : Machine} {task : Task} (hc : p.Calls perform machine task there) :
    P task := by
  induction p generalizing machine with
  | done result => exact hc.elim
  | act action next ih =>
    obtain ⟨b, machine', -, hc⟩ := hc
    exact ih b (h b) hc
  | call first next ih =>
    rcases hc with ⟨rfl, rfl⟩ | ⟨r, machine', -, hc⟩
    · exact h.1
    · exact ih r (h.2 r) hc
  | within env inner next ih ihn =>
    rcases hc with hc | ⟨b, machine', -, hc⟩
    · exact ih h.1 hc
    · exact ihn b (h.2 b) hc

/-- What a plan logs comes from the tasks that it may call. -/
theorem CallsOnly.mem_log {P : Task → Prop} {α : Type} {p : Plan α} (h : p.CallsOnly P)
    {machine : Machine} {event : Event} (he : event ∈ p.log perform note machine) :
    ∃ task there, P task ∧ event ∈ note task there := by
  obtain ⟨task, there, hc, he⟩ := mem_log_iff.1 he
  exact ⟨task, there, h.of_calls hc, he⟩

end Plan

namespace Task

/-- The logs of the tasks that a node calls, for its own log: statements that an expression has
executed are in a call. -/
def notes (note : Task → Machine → List Event) : Task → Task → Machine → List Event
  | expr _, stmt s, machine => (note (stmt s) machine).map .inCall
  | _, task, machine => note task machine

/-- The entry that a node is over, unless its evaluation ends early. -/
def ending (task : Task) (step : Eval task.Result) (machine : Machine) : List Event :=
  match step machine with
  | .ok r _ => [.ends task r]
  | .error _ _ => []

/-- **The log of a node's evaluation** on a machine, at a depth. -/
def log (rounds : Nat) : Nat → Task → Machine → List Event
  | 0, task, _ => [.begins task]
  | depth + 1, task, machine =>
    .begins task ::
      ((task.plan rounds).log (Task.run rounds depth) (task.notes (log rounds depth)) machine ++
        task.ending (task.run rounds (depth + 1)) machine)

end Task

/-- **The log of a call**: of the function's body, in the frame that the call makes. -/
def callLog (rounds depth : Nat) (closure : Closure) (args : List Value) (machine : Machine) :
    List Event :=
  match (Action.openCall closure args).run machine with
  | .ok env there =>
    (Plan.execAll closure.body).log (Task.run rounds depth) (Task.log rounds depth)
      { there with environment := env }
  | .error _ _ => []

/-! ## The nodes in a log -/

/-- The node that begins to be evaluated with an entry, in this or in another call. -/
def Event.begun? : Event → Option Task
  | begins task => some task
  | ends _ _ => none
  | inCall event => event.begun?

/-- A mark does not change which node begins. -/
theorem Task.begun_notes_iff {note : Task → Machine → List Event} {outer task inner : Task}
    {machine : Machine} :
    (∃ event ∈ outer.notes note task machine, event.begun? = some inner) ↔
      ∃ event ∈ note task machine, event.begun? = some inner := by
  cases outer with
  | stmt s => rfl
  | expr e =>
    cases task with
    | expr e' => rfl
    | stmt s =>
      constructor
      · rintro ⟨event, he, hb⟩
        obtain ⟨event', hm, rfl⟩ := List.mem_map.1 he
        exact ⟨event', hm, hb⟩
      · rintro ⟨event, he, hb⟩
        exact ⟨.inCall event, List.mem_map_of_mem he, hb⟩

/-- **The log has every node that is evaluated, and no other.** -/
theorem Task.begun_iff_reaches {rounds depth : Nat} {task inner : Task} {machine : Machine} :
    (∃ event ∈ task.log rounds depth machine, event.begun? = some inner) ↔
      ∃ depth' there, Moment.Reaches rounds ⟨depth, task, machine⟩ ⟨depth', inner, there⟩ := by
  induction depth generalizing task machine with
  | zero =>
    constructor
    · rintro ⟨event, he, hb⟩
      obtain rfl := List.mem_singleton.1 he
      cases hb
      exact ⟨0, machine, .refl⟩
    · rintro ⟨depth', there, hr⟩
      rcases Relation.ReflTransGen.cases_head hr with h | ⟨mo, hc, -⟩
      · cases h
        exact ⟨_, List.mem_singleton_self _, rfl⟩
      · exact absurd hc.1 (Nat.succ_ne_zero _).symm
  | succ depth ih =>
    constructor
    · rintro ⟨event, he, hb⟩
      rw [log, List.mem_cons, List.mem_append] at he
      rcases he with rfl | he | he
      · cases hb
        exact ⟨depth + 1, machine, .refl⟩
      · obtain ⟨task', there, hc, he⟩ := Plan.mem_log_iff.1 he
        obtain ⟨depth', there', hr⟩ := ih.1 (begun_notes_iff.1 ⟨event, he, hb⟩)
        exact ⟨depth', there', .head ⟨rfl, hc⟩ hr⟩
      · rw [ending] at he
        split at he
        · obtain rfl := List.mem_singleton.1 he
          cases hb
        · cases he
    · rintro ⟨depth', there, hr⟩
      rw [log]
      rcases Relation.ReflTransGen.cases_head hr with h | ⟨⟨d, task', mid⟩, ⟨hd, hc⟩, hr⟩
      · cases h
        exact ⟨_, List.mem_cons_self, rfl⟩
      · obtain rfl : depth = d := Nat.succ.inj hd
        obtain ⟨event, he, hb⟩ := begun_notes_iff.2 (ih.2 ⟨depth', there, hr⟩)
        exact ⟨event, List.mem_cons_of_mem _
          (List.mem_append_left _ (Plan.mem_log_iff.2 ⟨task', mid, hc, he⟩)), hb⟩

/-! ## Entries without a mark -/

section Calls

variable {P : Task → Prop} {α : Type}

theorem Plan.callsOnly_evalAll {es : List Expr} {next : List Value → Plan α}
    (he : ∀ e ∈ es, P (.expr e)) (hn : ∀ vs, (next vs).CallsOnly P) :
    (Plan.evalAll es next).CallsOnly P := by
  induction es generalizing next with
  | nil => exact hn []
  | cons e es ih =>
    obtain ⟨he, hes⟩ := List.forall_mem_cons.1 he
    exact ⟨he, fun v => ih hes fun vs => hn (v :: vs)⟩

theorem Plan.callsOnly_execAll {ss : List Stmt} (hs : ∀ s ∈ ss, P (.stmt s)) :
    (Plan.execAll ss).CallsOnly P := by
  induction ss with
  | nil => trivial
  | cons s ss ih =>
    obtain ⟨hs, hss⟩ := List.forall_mem_cons.1 hs
    refine ⟨hs, fun outcome => ?_⟩
    cases outcome with
    | returned value => trivial
    | normal value => exact ih hss

theorem Plan.callsOnly_repeatWhile {condition : Expr} {body : Stmt} (hc : P (.expr condition))
    (hb : P (.stmt body)) (n : Nat) : (Plan.repeatWhile condition body n).CallsOnly P := by
  induction n with
  | zero => exact fun _ => trivial
  | succ n ih =>
    refine ⟨hc, fun v holds => ?_⟩
    dsimp only
    split
    · refine ⟨hb, fun outcome => ?_⟩
      cases outcome with
      | returned value => trivial
      | normal value => exact ih
    · trivial

theorem Plan.callsOnly_invoke {closure : Closure} {args : List Value} {next : Value → Plan α}
    (hs : ∀ s, P (.stmt s)) (hn : ∀ v, (next v).CallsOnly P) :
    (Plan.invoke closure args next).CallsOnly P := by
  refine fun env => ⟨Plan.callsOnly_execAll fun s _ => hs s, fun outcome => ?_⟩
  dsimp only
  split
  · exact fun v => hn v
  · cases outcome with
    | returned value => exact hn value
    | normal value => exact hn .nil

theorem Plan.callsOnly_apply {callee : Value} {paren : Token} {args : List Value}
    (hs : ∀ s, P (.stmt s)) : (Plan.apply callee paren args).CallsOnly P := by
  intro callable
  cases callable with
  | none => exact fun _ => trivial
  | some callable =>
    dsimp only
    split
    · exact fun _ => trivial
    · cases callable with
      | function closure => exact Plan.callsOnly_invoke hs fun _ => trivial
      | native code => exact fun _ => trivial
      | «class» handle cls =>
        intro object
        dsimp only
        cases cls.initializer? with
        | none => trivial
        | some initializer => exact fun bound => Plan.callsOnly_invoke hs fun _ => trivial

end Calls

/-- The expressions that an expression has evaluated are its own; statements are not. -/
theorem Expr.plan_callsOnly (e : Expr) :
    e.plan.CallsOnly fun task => ∀ e', task = .expr e' → task ∈ (Task.expr e).ownParts := by
  cases e with
  | literal => trivial
  | «variable» | this | lambda => exact fun _ => trivial
  | assign => exact ⟨fun _ _ => List.mem_cons_self, fun _ _ => trivial⟩
  | group => exact ⟨fun _ _ => List.mem_cons_self, fun _ => trivial⟩
  | get => exact ⟨fun _ _ => List.mem_cons_self, fun _ _ => trivial⟩
  | unary => exact ⟨fun _ _ => List.mem_cons_self, fun _ _ _ => trivial⟩
  | binary =>
    exact ⟨fun _ _ => List.mem_cons_self, fun _ =>
      ⟨fun _ _ => List.mem_cons_of_mem _ List.mem_cons_self, fun _ _ _ => trivial⟩⟩
  | logical =>
    refine ⟨fun _ _ => List.mem_cons_self, fun a holds => ?_⟩
    dsimp only
    split
    · trivial
    · exact ⟨fun _ _ => List.mem_cons_of_mem _ List.mem_cons_self, fun _ _ => trivial⟩
  | conditional =>
    refine ⟨fun _ _ => List.mem_cons_self, fun v holds => ?_⟩
    dsimp only
    split
    · exact ⟨fun _ _ => by simp [Task.ownParts, Task.parts, Expr.parts], fun _ => trivial⟩
    · exact ⟨fun _ _ => by simp [Task.ownParts, Task.parts, Expr.parts], fun _ => trivial⟩
  | sequence items =>
    exact Plan.callsOnly_evalAll (fun e he _ _ => List.mem_map_of_mem he) fun _ => trivial
  | call callee paren args =>
    refine ⟨fun _ _ => List.mem_cons_self, fun f => ?_⟩
    refine Plan.callsOnly_evalAll (fun e he _ _ => List.mem_cons_of_mem _ (List.mem_map_of_mem he))
      fun vs => Plan.callsOnly_apply fun s e' h => ?_
    cases h
  | set =>
    refine ⟨fun _ _ => List.mem_cons_self, fun o target => ?_⟩
    cases target with
    | none => exact fun _ => trivial
    | some target =>
      exact ⟨fun _ _ => List.mem_cons_of_mem _ List.mem_cons_self, fun _ _ => trivial⟩

/-- What a statement has evaluated and executed is its own. -/
theorem Stmt.plan_callsOnly (rounds : Nat) (s : Stmt) :
    (s.plan rounds).CallsOnly (· ∈ (Task.stmt s).ownParts) := by
  cases s with
  | expression => exact ⟨List.mem_cons_self, fun _ => trivial⟩
  | print => exact ⟨List.mem_cons_self, fun _ _ => trivial⟩
  | var name initializer =>
    cases initializer with
    | none => exact fun _ => trivial
    | some initializer => exact ⟨List.mem_cons_self, fun _ _ => trivial⟩
  | block ss =>
    exact fun env => ⟨Plan.callsOnly_execAll fun s hs => List.mem_map_of_mem hs, fun _ => trivial⟩
  | branch condition whenTrue whenFalse =>
    refine ⟨List.mem_cons_self, fun v holds => ?_⟩
    dsimp only
    split
    · exact ⟨List.mem_cons_of_mem _ List.mem_cons_self, fun _ => trivial⟩
    · cases whenFalse with
      | none => trivial
      | some whenFalse =>
        exact ⟨by simp [Task.ownParts, Task.parts, Stmt.parts], fun _ => trivial⟩
  | loop condition body =>
    exact Plan.callsOnly_repeatWhile List.mem_cons_self
      (List.mem_cons_of_mem _ List.mem_cons_self) rounds
  | function decl =>
    cases decl
    exact fun _ => trivial
  | «return» keyword value =>
    cases value with
    | none => trivial
    | some value => exact ⟨List.mem_cons_self, fun _ => trivial⟩
  | «class» => exact fun _ => trivial

/-- **An entry without a mark is about a node of one's own.** -/
theorem Task.log_owned {rounds depth : Nat} {task inner : Task} {machine : Machine}
    {event : Event} (h : event ∈ task.log rounds depth machine) (ho : event.own? = some inner) :
    task.Owns inner := by
  induction depth generalizing task machine event with
  | zero =>
    rw [log, List.mem_singleton] at h
    subst h
    cases ho
    exact .refl
  | succ depth ih =>
    rw [log, List.mem_cons, List.mem_append] at h
    rcases h with rfl | h | h
    · cases ho
      exact .refl
    · cases task with
      | expr e =>
        obtain ⟨task, there, hp, h⟩ := e.plan_callsOnly.mem_log h
        cases task with
        | expr e' => exact .head (hp e' rfl) (ih h ho)
        -- a statement is in a call, and its entries are marked
        | stmt s =>
          obtain ⟨event', -, rfl⟩ := List.mem_map.1 h
          cases ho
      | stmt s =>
        obtain ⟨task, there, hp, h⟩ := (s.plan_callsOnly rounds).mem_log h
        have h : event ∈ task.log rounds depth there := by
          cases task <;> exact h
        exact .head hp (ih h ho)
    · rw [ending] at h
      split at h
      · rw [List.mem_singleton] at h
        subst h
        cases ho
        exact .refl
      · cases h

/-- **An entry of a call without a mark is about a node of the function's own body.** -/
theorem callLog_owned {rounds depth : Nat} {closure : Closure} {args : List Value}
    {machine : Machine} {event : Event} {inner : Task}
    (h : event ∈ callLog rounds depth closure args machine) (ho : event.own? = some inner) :
    ∃ s ∈ closure.body, (Task.stmt s).Owns inner := by
  unfold callLog at h
  split at h
  · have hc : (Plan.execAll closure.body).CallsOnly
        fun task => ∃ s ∈ closure.body, task = .stmt s :=
      Plan.callsOnly_execAll fun s hs => ⟨s, hs, rfl⟩
    obtain ⟨task, there, ⟨s, hs, rfl⟩, h⟩ := hc.mem_log h
    exact ⟨s, hs, Task.log_owned h ho⟩
  · cases h

end ScopedScript

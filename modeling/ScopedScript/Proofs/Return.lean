import ScopedScript.Proofs.Log
import ScopedScript.Proofs.Results

/-!
# Returning ends the execution of a body

A statement that executes others has to look at how each of them completed: after one that
returned it must do nothing more and complete in the same way.  `Plan.Heeds` says this of a
plan, and it holds of the plan of every statement but `return` itself.  What follows is said
of logs: after a `return` of one's own code is over, nothing is logged but that the statements
around it are over too, with the same outcome; and an evaluation returns only because of such
a `return`.

## Main definitions

* `Event.EndsReturn`: the entry that a `return` is over.
* `Plan.Heeds`: plans that heed how the statements they execute complete.
* `Heeded`: what follows for a log.

## Main results

* `Stmt.log_heeded`: a statement heeds returns.
* `callLog_heeded`: and so does a call, which results in the value that is returned.
-/

namespace ScopedScript

/-- The entry says that a `return` is over, with this outcome. -/
def Event.EndsReturn (event : Event) (outcome : Outcome) : Prop :=
  ∃ keyword value, event = .ends (.stmt (.return keyword value)) outcome

theorem Event.EndsReturn.own? {event : Event} {outcome : Outcome} (h : event.EndsReturn outcome) :
    ∃ keyword value, event.own? = some (.stmt (.return keyword value)) := by
  obtain ⟨keyword, value, rfl⟩ := h
  exact ⟨keyword, value, rfl⟩

/-- **Returns are heeded** in a log, by an evaluation that ends with certain outcomes. -/
structure Heeded (log : List Event) (ended : Outcome → Prop) : Prop where
  /-- After a `return` only statements around it end, with the same outcome. -/
  after : log.Pairwise fun earlier later => ∀ outcome, earlier.EndsReturn outcome →
    ∃ s, later = .ends (.stmt s) outcome
  /-- The evaluation ends with the outcome of a `return`. -/
  result : ∀ event ∈ log, ∀ outcome, event.EndsReturn outcome →
    outcome.isReturn = true ∧ ended outcome
  /-- It returns only because of a `return`. -/
  cause : ∀ value, ended (.returned value) → ∃ event ∈ log, event.EndsReturn (.returned value)

namespace Heeded

variable {log more : List Event} {ended : Outcome → Prop}

/-- Nothing is logged and nothing returns. -/
theorem nil (h : ∀ value, ¬ ended (.returned value)) : Heeded [] ended :=
  ⟨.nil, fun _ he => absurd he List.not_mem_nil, fun value hv => absurd hv (h value)⟩

/-- What has no `return` of its own comes first. -/
theorem append (hl : ∀ event ∈ log, ∀ outcome, ¬ event.EndsReturn outcome)
    (h : Heeded more ended) : Heeded (log ++ more) ended := by
  refine ⟨List.pairwise_append.2 ⟨?_, h.after, ?_⟩, fun event he => ?_, fun value hv => ?_⟩
  · exact List.pairwise_of_forall_mem_list fun event he _ _ outcome hr =>
      absurd hr (hl event he outcome)
  · exact fun event he _ _ outcome hr => absurd hr (hl event he outcome)
  · rcases List.mem_append.1 he with he | he
    · exact fun outcome hr => absurd hr (hl event he outcome)
    · exact h.result event he
  · obtain ⟨event, he, hr⟩ := h.cause value hv
    exact ⟨event, List.mem_append_right _ he, hr⟩

theorem congr {other : Outcome → Prop} (h : Heeded log ended)
    (he : ∀ outcome, ended outcome ↔ other outcome) : Heeded log other :=
  ⟨h.after, fun event hm outcome hr => (h.result event hm outcome hr).imp_right (he outcome).1,
    fun value hv => h.cause value ((he _).2 hv)⟩

end Heeded

/-- The step ends with the result. -/
def Eval.EndsWith {α : Type} (step : Eval α) (machine : Machine) (a : α) : Prop :=
  ∃ machine', step machine = .ok a machine'

/-- Coming back to the environment does not change how a step ended. -/
theorem Eval.endsWith_inEnvironment_iff {α : Type} {env : Environment} {step : Eval α}
    {machine : Machine} {a : α} :
    EndsWith (inEnvironment env step) machine a ↔
      EndsWith step { machine with environment := env } a := by
  unfold EndsWith inEnvironment
  cases step { machine with environment := env } <;> simp

/-- A statement that is no `return` is over after what it had executed. -/
theorem Heeded.ends {log : List Event} {step : Eval Outcome} {machine : Machine} {s : Stmt}
    (h : Heeded log (Eval.EndsWith step machine))
    (hs : ∀ keyword value, s ≠ .return keyword value) :
    Heeded (.begins (.stmt s) :: (log ++ (Task.stmt s).ending step machine))
      (Eval.EndsWith step machine) := by
  have hbegins : ∀ event ∈ [Event.begins (.stmt s)], ∀ outcome, ¬ event.EndsReturn outcome := by
    intro event he outcome hr
    obtain rfl := List.mem_singleton.1 he
    obtain ⟨_, _, h⟩ := hr
    cases h
  rw [← List.singleton_append]
  refine Heeded.append hbegins ?_
  rw [Task.ending]
  cases hm : step machine with
  | error stop machine' =>
    change Heeded (log ++ []) _
    rw [List.append_nil]
    exact h
  | ok r machine' =>
    have hend : ∀ outcome, ¬ (Event.ends (.stmt s) r).EndsReturn outcome := by
      rintro outcome ⟨keyword, value, h⟩
      cases h
      exact hs keyword value rfl
    refine ⟨List.pairwise_append.2 ⟨h.after, List.pairwise_singleton _ _, ?_⟩,
      fun event he outcome hr => ?_, fun value hv => ?_⟩
    -- a `return` before it had the outcome with which the statement ends now
    · intro event he last hl outcome hr
      obtain rfl := List.mem_singleton.1 hl
      obtain ⟨-, machine'', ho⟩ := h.result event he outcome hr
      rw [hm] at ho
      cases ho
      exact ⟨s, rfl⟩
    · rcases List.mem_append.1 he with he | he
      · exact h.result event he outcome hr
      · obtain rfl := List.mem_singleton.1 he
        exact absurd hr (hend outcome)
    · obtain ⟨event, he, hr⟩ := h.cause value hv
      exact ⟨event, List.mem_append_left _ he, hr⟩

/-! ## Plans that heed returns -/

/-- **A plan that heeds returns**: it never returns by itself, and when a statement that it
executes returns, it does nothing more and returns as well. -/
inductive Plan.Heeds : Plan Outcome → Prop where
  | done (value : Value) : Heeds (.done (.normal value))
  | giveUp {next : Outcome → Plan Outcome} : Heeds (.act .giveUp next)
  | act {β : Type} {action : Action β} {next : β → Plan Outcome}
      (h : ∀ b, Heeds (next b)) : Heeds (.act action next)
  | evaluate {e : Expr} {next : Value → Plan Outcome}
      (h : ∀ v, Heeds (next v)) : Heeds (.call (.expr e) next)
  | execute {s : Stmt} {next : Outcome → Plan Outcome}
      (hr : ∀ v, next (.returned v) = .done (.returned v))
      (hn : ∀ v, Heeds (next (.normal v))) : Heeds (.call (.stmt s) next)
  | within {env : Environment} {inner : Plan Outcome}
      (h : Heeds inner) : Heeds (.within env inner .done)

namespace Plan

variable {perform : (task : Task) → Eval task.Result} {note : Task → Machine → List Event}

/-- **What is logged when a plan heeds returns**, if the statements that it executes do. -/
theorem Heeds.heeded {p : Plan Outcome} (h : p.Heeds)
    (hexpr : ∀ e machine, ∀ event ∈ note (.expr e) machine, ∀ outcome, ¬ event.EndsReturn outcome)
    (hstmt : ∀ s machine,
      Heeded (note (.stmt s) machine) (Eval.EndsWith (perform (.stmt s)) machine))
    (machine : Machine) :
    Heeded (p.log perform note machine) (Eval.EndsWith (p.run perform) machine) := by
  induction h generalizing machine with
  | done value =>
    refine .nil fun v hv => ?_
    obtain ⟨machine', hv⟩ := hv
    cases hv
  | giveUp =>
    refine .nil fun v hv => ?_
    obtain ⟨machine', hv⟩ := hv
    cases hv
  | @act β action next _ ih =>
    cases ha : action.run machine with
    | ok b machine' =>
      have hrun : (Plan.act action next).run perform machine = (next b).run perform machine' :=
        bind_of_ok ha
      simp only [log, ha]
      refine (ih b machine').congr fun outcome => ?_
      rw [Eval.EndsWith, Eval.EndsWith, hrun]
    | error stop machine' =>
      simp only [log, ha]
      refine .nil fun v hv => ?_
      obtain ⟨last, hv⟩ := hv
      obtain ⟨b, mid, hb, -⟩ := bind_eq_ok_iff.1 hv
      rw [ha] at hb
      cases hb
  | @evaluate e next _ ih =>
    rw [log]
    refine .append (hexpr e machine) ?_
    cases he : perform (.expr e) machine with
    | ok v machine' =>
      have hrun : (Plan.call (.expr e) next).run perform machine = (next v).run perform machine' :=
        bind_of_ok he
      refine (ih v machine').congr fun outcome => ?_
      rw [Eval.EndsWith, Eval.EndsWith, hrun]
    | error stop machine' =>
      refine .nil fun v hv => ?_
      obtain ⟨last, hv⟩ := hv
      obtain ⟨v', mid, hv', -⟩ := bind_eq_ok_iff.1 hv
      rw [he] at hv'
      cases hv'
  | @execute s next hr _ ih =>
    have hs := hstmt s machine
    rw [log]
    cases he : perform (.stmt s) machine with
    | error stop machine' =>
      simp only [List.append_nil]
      refine hs.congr fun outcome => ⟨?_, ?_⟩
      · rintro ⟨last, h⟩
        rw [he] at h
        cases h
      · rintro ⟨last, h⟩
        obtain ⟨r, mid, hr', -⟩ := bind_eq_ok_iff.1 h
        rw [he] at hr'
        cases hr'
    | ok outcome machine' =>
      have hrun : (Plan.call (.stmt s) next).run perform machine =
          (next outcome).run perform machine' := bind_of_ok he
      cases outcome with
      | returned value =>
        -- nothing comes after a statement that returned
        simp only [hr, log, List.append_nil]
        refine hs.congr fun outcome => ?_
        rw [Eval.EndsWith, Eval.EndsWith, hrun, hr, he]
        rfl
      | normal value =>
        have hnone : ∀ event ∈ note (.stmt s) machine, ∀ outcome, ¬ event.EndsReturn outcome := by
          intro event hm outcome h
          obtain ⟨hret, last, hend⟩ := hs.result event hm outcome h
          rw [he] at hend
          cases hend
          cases hret
        refine .append hnone ((ih value machine').congr fun outcome => ?_)
        rw [Eval.EndsWith, Eval.EndsWith, hrun]
  | @within env inner _ ih =>
    have hi := ih { machine with environment := env }
    have hlog : (Plan.within env inner .done).log perform note machine =
        inner.log perform note { machine with environment := env } := by
      rw [log]
      split <;> exact List.append_nil _
    have hrun : (Plan.within env inner .done).run perform =
        Eval.inEnvironment env (inner.run perform) := by
      simp only [Plan.run, bind_pure]
    rw [hlog, hrun]
    exact hi.congr fun outcome => Eval.endsWith_inEnvironment_iff.symm

theorem heeds_execAll (ss : List Stmt) : (Plan.execAll ss).Heeds := by
  induction ss with
  | nil => exact .done .nil
  | cons s ss ih => exact .execute (fun _ => rfl) fun _ => ih

theorem heeds_repeatWhile (condition : Expr) (body : Stmt) (n : Nat) :
    (Plan.repeatWhile condition body n).Heeds := by
  induction n with
  | zero => exact .giveUp
  | succ n ih =>
    refine .evaluate fun v => .act fun holds => ?_
    split
    · exact .execute (fun _ => rfl) fun _ => ih
    · exact .done .nil

end Plan

/-- **The plan of a statement heeds returns**, unless it is a `return` itself. -/
theorem Stmt.plan_heeds (rounds : Nat) {s : Stmt} (h : ∀ keyword value, s ≠ .return keyword value) :
    (s.plan rounds).Heeds := by
  cases s with
  | expression => exact .evaluate fun v => .done v
  | print => exact .evaluate fun _ => .act fun _ => .done .nil
  | var name initializer =>
    cases initializer with
    | none => exact .act fun _ => .done .nil
    | some initializer => exact .evaluate fun _ => .act fun _ => .done .nil
  | block ss => exact .act fun _ => .within (Plan.heeds_execAll ss)
  | branch condition whenTrue whenFalse =>
    refine .evaluate fun v => .act fun holds => ?_
    split
    · exact .execute (fun _ => rfl) .done
    · cases whenFalse with
      | none => exact .done .nil
      | some whenFalse => exact .execute (fun _ => rfl) .done
  | loop condition body => exact Plan.heeds_repeatWhile condition body rounds
  | function decl =>
    cases decl
    exact .act fun _ => .done .nil
  | «return» keyword value => exact absurd rfl (h keyword value)
  | «class» => exact .act fun _ => .done .nil

/-! ## Statements and calls -/

section

variable {rounds depth : Nat}

/-- No `return` of one's own is in an expression. -/
theorem Expr.log_no_return (e : Expr) (machine : Machine) :
    ∀ event ∈ (Task.expr e).log rounds depth machine, ∀ outcome, ¬ event.EndsReturn outcome := by
  intro event he outcome hr
  obtain ⟨keyword, value, ho⟩ := hr.own?
  obtain ⟨e', h⟩ := (Task.log_owned he ho).expr
  cases h

/-- A `return` is over after its value is there. -/
theorem Stmt.log_return (keyword : Token) (value : Option Expr) (machine : Machine) :
    Heeded ((Task.stmt (.return keyword value)).log rounds (depth + 1) machine)
      (Eval.EndsWith (exec rounds (depth + 1) (.return keyword value)) machine) := by
  rw [Task.log]
  have hbefore : ∀ event ∈ .begins (.stmt (.return keyword value)) ::
      ((Task.stmt (.return keyword value)).plan rounds).log (Task.run rounds depth)
        ((Task.stmt (.return keyword value)).notes (Task.log rounds depth)) machine,
      ∀ outcome, ¬ event.EndsReturn outcome := by
    intro event he outcome hr
    rcases List.mem_cons.1 he with rfl | he
    · obtain ⟨_, _, h⟩ := hr
      cases h
    · obtain ⟨task, there, hp, he⟩ := (Stmt.plan_callsOnly rounds _).mem_log he
      cases value with
      | none => cases hp
      | some value =>
        obtain rfl := List.mem_singleton.1 hp
        exact Expr.log_no_return value there event he outcome hr
  refine List.cons_append ▸ Heeded.append hbefore ?_
  have hrun : exec rounds (depth + 1) (.return keyword value) =
      (Task.stmt (.return keyword value)).run rounds (depth + 1) := rfl
  rw [hrun, Task.ending]
  cases he : (Task.stmt (.return keyword value)).run rounds (depth + 1) machine with
  | error stop machine' =>
    refine .nil fun v hv => ?_
    obtain ⟨last, hv⟩ := hv
    rw [he] at hv
    cases hv
  | ok outcome machine' =>
    have hreturn : outcome.isReturn = true := by
      rw [Task.run_succ] at he
      cases value with
      | none =>
        cases he
        rfl
      | some value =>
        obtain ⟨v, mid, -, h⟩ := bind_eq_ok_iff.1 he
        cases h
        rfl
    refine ⟨List.pairwise_singleton _ _, fun event hm outcome' hr => ?_, fun v hv => ?_⟩
    · obtain rfl := List.mem_singleton.1 hm
      obtain ⟨_, _, h⟩ := hr
      cases h
      exact ⟨hreturn, machine', he⟩
    · obtain ⟨last, hv⟩ := hv
      rw [he] at hv
      cases hv
      exact ⟨_, List.mem_singleton_self _, keyword, value, rfl⟩

/-- **A statement heeds returns.** -/
theorem Stmt.log_heeded (s : Stmt) (machine : Machine) :
    Heeded ((Task.stmt s).log rounds depth machine)
      (Eval.EndsWith (exec rounds depth s) machine) := by
  induction depth generalizing s machine with
  | zero =>
    refine ⟨List.pairwise_singleton _ _, fun event he outcome hr => ?_, fun v hv => ?_⟩
    · obtain rfl := List.mem_singleton.1 he
      obtain ⟨_, _, h⟩ := hr
      cases h
    · obtain ⟨last, hv⟩ := hv
      cases hv
  | succ depth ih =>
    by_cases hs : ∃ keyword value, s = .return keyword value
    · obtain ⟨keyword, value, rfl⟩ := hs
      exact Stmt.log_return keyword value machine
    · have hs : ∀ keyword value, s ≠ .return keyword value :=
        fun keyword value h => hs ⟨keyword, value, h⟩
      have hplan : Heeded
          ((s.plan rounds).log (Task.run rounds depth)
            ((Task.stmt s).notes (Task.log rounds depth)) machine)
          (Eval.EndsWith ((s.plan rounds).run (Task.run rounds depth)) machine) :=
        (Stmt.plan_heeds rounds hs).heeded Expr.log_no_return ih machine
      rw [← exec_succ rounds depth s] at hplan
      rw [Task.log]
      exact hplan.ends hs

/-- How the body of a function completes when it is called. -/
def BodyEndsWith (rounds depth : Nat) (closure : Closure) (args : List Value) (machine : Machine)
    (outcome : Outcome) : Prop :=
  ∃ env there, (Action.openCall closure args).run machine = .ok env there ∧
    Eval.EndsWith (Eval.runIn (exec rounds depth) env closure.body) there outcome

/-- **A call heeds returns.** -/
theorem callLog_heeded (closure : Closure) (args : List Value) (machine : Machine) :
    Heeded (callLog rounds depth closure args machine)
      (BodyEndsWith rounds depth closure args machine) := by
  rw [callLog]
  cases ho : (Action.openCall closure args).run machine with
  | error stop machine' =>
    refine .nil fun v hv => ?_
    obtain ⟨env, there, h, -⟩ := hv
    rw [ho] at h
    cases h
  | ok env there =>
    have hbody : Heeded
        ((Plan.execAll closure.body).log (Task.run rounds depth) (Task.log rounds depth)
          { there with environment := env })
        (Eval.EndsWith ((Plan.execAll closure.body).run (Task.run rounds depth))
          { there with environment := env }) :=
      (Plan.heeds_execAll closure.body).heeded Expr.log_no_return Stmt.log_heeded _
    refine hbody.congr fun outcome => ?_
    rw [Plan.run_execAll, BodyEndsWith, ← Eval.endsWith_inEnvironment_iff]
    constructor
    · exact fun h => ⟨env, there, ho, h⟩
    · rintro ⟨env', there', h, hend⟩
      rw [ho] at h
      cases h
      exact hend

end

end ScopedScript

import Mathlib.Logic.Relation
import ScopedScript.Proofs.Restore
import ScopedScript.Proofs.Results

/-!
# The moments of an evaluation

While a program runs, nodes are evaluated inside the evaluation of other nodes, each on the
machine as it is by then.  A moment is such an evaluation at its beginning: the node, the
machine, and how much deeper it may nest.  From the plan of its node one can tell which
moments it calls, and so which moments a run goes through.

A run ends early exactly where one of its moments raises what it ends with: no node catches
what a node it called raised.

An invariant of moments is shown by following each node's plan once.  `Plan.Safe` collects
what there is to show, and gives at the same time what the node leaves behind, that the
moments it calls satisfy the invariant, and what its own actions can raise.

## Main definitions

* `Plan.Calls`, `Plan.Raises`: the tasks that a plan calls, and what its own actions raise.
* `Moment`, `Moment.Reaches`: the moments and how they lead to each other.
* `Contract`, `Plan.Safe`: what holds before and after tasks, and plans that keep to it.

## Main results

* `Moment.fails_iff`: a moment fails exactly with what a moment it reaches raises.
* `Contract.Kept.task`, `Contract.Kept.reaches`, `Contract.Kept.raises`: what follows from a
  contract that every plan keeps to.
-/

namespace ScopedScript

/-! ## What a plan calls and raises -/

namespace Plan

variable (perform : (task : Task) → Eval task.Result) {α : Type}

/-- The plan calls a task, when it is followed from a machine; the last machine is the one
on which the task is called. -/
def Calls {α : Type} : Plan α → Machine → Task → Machine → Prop
  | done _, _, _, _ => False
  | act action next, machine, task, there =>
    ∃ b machine', action.run machine = .ok b machine' ∧ (next b).Calls machine' task there
  | call first next, machine, task, there =>
    first = task ∧ machine = there ∨
      ∃ r machine', perform first machine = .ok r machine' ∧ (next r).Calls machine' task there
  | within env inner next, machine, task, there =>
    inner.Calls { machine with environment := env } task there ∨
      ∃ b machine', Eval.inEnvironment env (inner.run perform) machine = .ok b machine' ∧
        (next b).Calls machine' task there

/-- One of the plan's own actions ends early, when it is followed from a machine. -/
def Raises {α : Type} : Plan α → Machine → Stop → Prop
  | done _, _, _ => False
  | act action next, machine, stop =>
    (∃ machine', action.run machine = .error stop machine') ∨
      ∃ b machine', action.run machine = .ok b machine' ∧ (next b).Raises machine' stop
  | call first next, machine, stop =>
    ∃ r machine', perform first machine = .ok r machine' ∧ (next r).Raises machine' stop
  | within env inner next, machine, stop =>
    inner.Raises { machine with environment := env } stop ∨
      ∃ b machine', Eval.inEnvironment env (inner.run perform) machine = .ok b machine' ∧
        (next b).Raises machine' stop

end Plan

namespace Eval

variable {α β : Type}

/-- The step ends early. -/
def Fails (step : Eval α) (machine : Machine) (stop : Stop) : Prop :=
  ∃ machine', step machine = .error stop machine'

theorem fails_bind_iff {step : Eval α} {next : α → Eval β} {machine : Machine} {stop : Stop} :
    Fails (step >>= next) machine stop ↔
      Fails step machine stop ∨
        ∃ a machine', step machine = .ok a machine' ∧ Fails (next a) machine' stop := by
  simp only [Fails, bind_eq_error_iff, exists_or]
  refine or_congr_right ⟨?_, ?_⟩
  · rintro ⟨machine', a, mid, h, hn⟩
    exact ⟨a, mid, h, machine', hn⟩
  · rintro ⟨a, mid, h, machine', hn⟩
    exact ⟨machine', a, mid, h, hn⟩

theorem fails_inEnvironment_iff {env : Environment} {step : Eval α} {machine : Machine}
    {stop : Stop} :
    Fails (inEnvironment env step) machine stop ↔
      Fails step { machine with environment := env } stop := by
  unfold Fails inEnvironment
  cases step { machine with environment := env } <;> simp

end Eval

/-- A plan fails exactly with what its own actions raise or a task it calls fails with. -/
theorem Plan.fails_run_iff (perform : (task : Task) → Eval task.Result) {α : Type} (p : Plan α)
    {machine : Machine} {stop : Stop} :
    Eval.Fails (p.run perform) machine stop ↔
      p.Raises perform machine stop ∨
        ∃ task there, p.Calls perform machine task there ∧
          Eval.Fails (perform task) there stop := by
  -- Both sides unfold along the plan: each case says whose failure comes first.
  induction p generalizing machine with
  | done result =>
    simp only [run, Raises, Calls, false_and, exists_false, or_false, iff_false]
    rintro ⟨_, h⟩
    cases h
  | act action next ih =>
    simp only [run, Raises, Calls, Eval.fails_bind_iff, ih]
    constructor
    · rintro (h | ⟨b, n, hb, h | ⟨task, there, hc, hf⟩⟩)
      · exact .inl (.inl h)
      · exact .inl (.inr ⟨b, n, hb, h⟩)
      · exact .inr ⟨task, there, ⟨b, n, hb, hc⟩, hf⟩
    · rintro ((h | ⟨b, n, hb, h⟩) | ⟨task, there, ⟨b, n, hb, hc⟩, hf⟩)
      · exact .inl h
      · exact .inr ⟨b, n, hb, .inl h⟩
      · exact .inr ⟨b, n, hb, .inr ⟨task, there, hc, hf⟩⟩
  | call first next ih =>
    simp only [run, Raises, Calls, Eval.fails_bind_iff, ih]
    constructor
    · rintro (h | ⟨r, n, hr, h | ⟨task, there, hc, hf⟩⟩)
      · exact .inr ⟨first, machine, .inl ⟨rfl, rfl⟩, h⟩
      · exact .inl ⟨r, n, hr, h⟩
      · exact .inr ⟨task, there, .inr ⟨r, n, hr, hc⟩, hf⟩
    · rintro (⟨r, n, hr, h⟩ | ⟨task, there, ⟨rfl, rfl⟩ | ⟨r, n, hr, hc⟩, hf⟩)
      · exact .inr ⟨r, n, hr, .inl h⟩
      · exact .inl hf
      · exact .inr ⟨r, n, hr, .inr ⟨task, there, hc, hf⟩⟩
  | within env inner next ih ihn =>
    simp only [run, Raises, Calls, Eval.fails_bind_iff, Eval.fails_inEnvironment_iff, ih, ihn]
    constructor
    · rintro ((h | ⟨task, there, hc, hf⟩) | ⟨b, n, hb, h | ⟨task, there, hc, hf⟩⟩)
      · exact .inl (.inl h)
      · exact .inr ⟨task, there, .inl hc, hf⟩
      · exact .inl (.inr ⟨b, n, hb, h⟩)
      · exact .inr ⟨task, there, .inr ⟨b, n, hb, hc⟩, hf⟩
    · rintro ((h | ⟨b, n, hb, h⟩) | ⟨task, there, hc | ⟨b, n, hb, hc⟩, hf⟩)
      · exact .inl (.inl h)
      · exact .inr ⟨b, n, hb, .inl h⟩
      · exact .inl (.inr ⟨task, there, hc, hf⟩)
      · exact .inr ⟨b, n, hb, .inr ⟨task, there, hc, hf⟩⟩

/-! ## Moments -/

/-- **A node about to be evaluated** on a machine, with how deep it may nest. -/
structure Moment where
  depth : Nat
  task : Task
  machine : Machine

namespace Moment

variable (rounds : Nat)

/-- Evaluating the first moment's node has the second moment's node evaluated. -/
def Calls (mo mo' : Moment) : Prop :=
  mo.depth = mo'.depth + 1 ∧
    (mo.task.plan rounds).Calls (Task.run rounds mo'.depth) mo.machine mo'.task mo'.machine

/-- **Evaluating the first moment's node leads to the second moment.** -/
def Reaches : Moment → Moment → Prop := Relation.ReflTransGen (Calls rounds)

/-- Evaluating the moment's node ends early. -/
def Fails (mo : Moment) (stop : Stop) : Prop :=
  Eval.Fails (mo.task.run rounds mo.depth) mo.machine stop

/-- **The moment itself ends early**: nothing may nest there, or an action of its node's
plan fails. -/
def Raises (mo : Moment) (stop : Stop) : Prop :=
  match mo.depth with
  | 0 => stop = .tooDeep
  | depth + 1 => (mo.task.plan rounds).Raises (Task.run rounds depth) mo.machine stop

theorem fails_iff_raises_or_calls {mo : Moment} {stop : Stop} :
    mo.Fails rounds stop ↔
      mo.Raises rounds stop ∨ ∃ mo', mo.Calls rounds mo' ∧ mo'.Fails rounds stop := by
  obtain ⟨depth, task, machine⟩ := mo
  cases depth with
  | zero =>
    have hc : ∀ mo', ¬ Calls rounds ⟨0, task, machine⟩ mo' := fun _ h => by simp [Calls] at h
    simp only [hc, false_and, exists_false, or_false]
    simp only [Fails, Raises, Eval.Fails, Task.run_zero]
    constructor
    · rintro ⟨_, h⟩
      cases h
      rfl
    · rintro rfl
      exact ⟨machine, rfl⟩
  | succ depth =>
    simp only [Fails, Raises, Task.run_succ, Plan.fails_run_iff]
    refine or_congr_right ⟨?_, ?_⟩
    · rintro ⟨task', there, hc, hf⟩
      exact ⟨⟨depth, task', there⟩, ⟨rfl, hc⟩, hf⟩
    · rintro ⟨⟨depth', task', there⟩, ⟨hd, hc⟩, hf⟩
      obtain rfl : depth = depth' := Nat.succ.inj hd
      exact ⟨task', there, hc, hf⟩

/-- **A moment fails exactly with what a moment it reaches raises.** -/
theorem fails_iff {mo : Moment} {stop : Stop} :
    mo.Fails rounds stop ↔ ∃ mo', mo.Reaches rounds mo' ∧ mo'.Raises rounds stop := by
  constructor
  · intro h
    -- induction on how deep the moment may nest
    generalize hd : mo.depth = depth
    induction depth generalizing mo with
    | zero =>
      rcases (fails_iff_raises_or_calls rounds).1 h with h | ⟨mo', hc, -⟩
      · exact ⟨mo, .refl, h⟩
      · exact absurd (hd.symm.trans hc.1) (Nat.succ_ne_zero _).symm
    | succ depth ih =>
      rcases (fails_iff_raises_or_calls rounds).1 h with h | ⟨mo', hc, hf⟩
      · exact ⟨mo, .refl, h⟩
      · obtain ⟨mo'', hr, h⟩ := ih hf (Nat.succ.inj (hc.1.symm.trans hd))
        exact ⟨mo'', .head hc hr, h⟩
  · rintro ⟨mo', hr, h⟩
    induction hr using Relation.ReflTransGen.head_induction_on with
    | refl => exact (fails_iff_raises_or_calls rounds).2 (.inl h)
    | head hc _ ih => exact (fails_iff_raises_or_calls rounds).2 (.inr ⟨_, hc, ih⟩)

end Moment

/-! ## Contracts -/

/-- **What holds before and after tasks**, how they change the machine however they end, and
what a task may raise at one of its own actions: for a task at a depth on a machine, with the
machine the action is taken on. -/
structure Contract where
  pre : Task → Machine → Prop
  post : (task : Task) → Machine → task.Result → Machine → Prop
  change : Machine → Machine → Prop
  blame : Nat → Task → Machine → Machine → Stop → Prop

/-- **A plan keeps to a contract** when it is followed from a machine, and ends with
`ensures`.  The tasks it calls may be taken to keep to the contract. -/
def Plan.Safe (c : Contract) (perform : (task : Task) → Eval task.Result)
    (blame : Machine → Stop → Prop) {α : Type} :
    Plan α → Machine → (α → Machine → Prop) → Prop
  | done result, machine, ensures => ensures result machine
  | act action next, machine, ensures =>
    (∀ stop machine', action.run machine = .error stop machine' →
        c.change machine machine' ∧ blame machine stop) ∧
      ∀ b machine', action.run machine = .ok b machine' →
        c.change machine machine' ∧ (next b).Safe c perform blame machine' ensures
  | call task next, machine, ensures =>
    c.pre task machine ∧
      ∀ r machine', perform task machine = .ok r machine' → c.change machine machine' →
        c.post task machine r machine' → (next r).Safe c perform blame machine' ensures
  | within env inner next, machine, ensures =>
    inner.Safe c perform blame { machine with environment := env } fun b machine' =>
      c.change { machine with environment := env } machine' →
        (next b).Safe c perform blame { machine' with environment := machine.environment } ensures

namespace Contract

variable (c : Contract) (rounds : Nat)

/-- **Every plan keeps to the contract.** -/
structure Kept : Prop where
  refl : ∀ machine, c.change machine machine
  trans : ∀ a b d, c.change a b → c.change b d → c.change a d
  enter : ∀ {machine machine' : Machine} (env : Environment),
    c.change { machine with environment := env } machine' →
      c.change machine { machine' with environment := machine.environment }
  plan : ∀ {depth : Nat} {task : Task} {machine : Machine}, c.pre task machine →
    (task.plan rounds).Safe c (Task.run rounds depth) (c.blame depth task machine) machine
      (c.post task machine)

/-- A step that ends with `ensures` if it succeeds, and changes the machine as the contract
says however it ends. -/
def Ends {α : Type} (step : Eval α) (machine : Machine) (ensures : α → Machine → Prop) : Prop :=
  (∀ a machine', step machine = .ok a machine' →
      c.change machine machine' ∧ ensures a machine') ∧
    ∀ stop machine', step machine = .error stop machine' → c.change machine machine'

variable {c rounds} {α β : Type}

theorem Ends.bind {step : Eval α} {next : α → Eval β} {machine : Machine}
    {middle : α → Machine → Prop} {ensures : β → Machine → Prop}
    (h : c.Ends step machine middle) (hc : c.Kept rounds)
    (hn : ∀ a machine', step machine = .ok a machine' → middle a machine' →
      c.Ends (next a) machine' ensures) :
    c.Ends (step >>= next) machine ensures := by
  change c.Ends (EStateM.bind step next) machine ensures
  obtain ⟨ho, he⟩ := h
  unfold Ends EStateM.bind
  -- The second step is taken only if the first one succeeds, on the machine it leaves.
  cases hm : step machine with
  | ok a machine' =>
    obtain ⟨hr, hp⟩ := ho a machine' hm
    obtain ⟨ho', he'⟩ := hn a machine' hm hp
    constructor
    · intro b machine'' h
      obtain ⟨hr', hp'⟩ := ho' b machine'' h
      exact ⟨hc.trans _ _ _ hr hr', hp'⟩
    · intro stop machine'' h
      exact hc.trans _ _ _ hr (he' stop machine'' h)
  | error stop machine' =>
    constructor
    · intro b machine'' h
      cases h
    · intro stop' machine'' h
      cases h
      exact he _ _ hm

theorem Ends.inEnvironment (hc : c.Kept rounds) {step : Eval α} {machine : Machine}
    {env : Environment} {ensures : α → Machine → Prop}
    (h : c.Ends step { machine with environment := env } fun a machine' =>
      c.change { machine with environment := env } machine' →
        ensures a { machine' with environment := machine.environment }) :
    c.Ends (Eval.inEnvironment env step) machine ensures := by
  obtain ⟨ho, he⟩ := h
  unfold Ends Eval.inEnvironment
  cases hm : step { machine with environment := env } with
  | ok a machine' =>
    obtain ⟨hr, hp⟩ := ho a machine' hm
    constructor
    · intro b machine'' h
      cases h
      -- the environment comes back before `ensures` is asked for
      exact ⟨hc.enter env hr, hp hr⟩
    · intro stop machine'' h
      cases h
  | error stop machine' =>
    constructor
    · intro b machine'' h
      cases h
    · intro stop' machine'' h
      cases h
      exact hc.enter env (he _ _ hm)

/-- A plan that keeps to the contract does so when it is followed, if the tasks do. -/
theorem Kept.follow (hc : c.Kept rounds) {perform : (task : Task) → Eval task.Result}
    (hp : ∀ task machine, c.pre task machine →
      c.Ends (perform task) machine (c.post task machine))
    {blame : Machine → Stop → Prop} {p : Plan α} {machine : Machine}
    {ensures : α → Machine → Prop} (h : p.Safe c perform blame machine ensures) :
    c.Ends (p.run perform) machine ensures := by
  induction p generalizing machine with
  | done result =>
    constructor
    · intro a machine' hr
      cases hr
      exact ⟨hc.refl machine, h⟩
    · intro stop machine' hr
      cases hr
  | act action next ih =>
    obtain ⟨he, ho⟩ := h
    have ha : c.Ends action.run machine fun b machine' =>
        (next b).Safe c perform blame machine' ensures :=
      ⟨ho, fun stop machine' hs => (he stop machine' hs).1⟩
    exact ha.bind hc fun b _ _ h => ih b h
  | call task next ih =>
    obtain ⟨hpre, hn⟩ := h
    obtain ⟨ho, he⟩ := hp task machine hpre
    have ht : c.Ends (perform task) machine fun r machine' =>
        (next r).Safe c perform blame machine' ensures := by
      refine ⟨fun r machine' hm => ?_, he⟩
      obtain ⟨hchange, hpost⟩ := ho r machine' hm
      exact ⟨hchange, hn r machine' hm hchange hpost⟩
    exact ht.bind hc fun r _ _ h => ih r h
  | within env inner next ih ihn =>
    have hi : c.Ends (Eval.inEnvironment env (inner.run perform)) machine fun b machine' =>
        (next b).Safe c perform blame machine' ensures := .inEnvironment hc (ih h)
    exact hi.bind hc fun b _ _ h => ihn b h

/-- **A task that may be called keeps to the contract.** -/
theorem Kept.task (hc : c.Kept rounds) {depth : Nat} {task : Task} {machine : Machine}
    (h : c.pre task machine) :
    c.Ends (task.run rounds depth) machine (c.post task machine) := by
  -- Each task is run one level less deep than the plan that calls it.
  induction depth generalizing task machine with
  | zero =>
    rw [Task.run_zero]
    constructor
    · intro a machine' hr
      cases hr
    · intro stop machine' hr
      cases hr
      exact hc.refl machine
  | succ depth ih =>
    rw [Task.run_succ]
    exact hc.follow (fun _ _ => ih) (hc.plan h)

/-- The part of a safe plan that is followed in another environment. -/
theorem Kept.within (hc : c.Kept rounds) {depth : Nat} {blame : Machine → Stop → Prop}
    {env : Environment} {inner : Plan β} {next : β → Plan α} {machine : Machine}
    {ensures : α → Machine → Prop}
    (h : (Plan.within env inner next).Safe c (Task.run rounds depth) blame machine ensures) :
    c.Ends (Eval.inEnvironment env (inner.run (Task.run rounds depth))) machine fun b machine' =>
      (next b).Safe c (Task.run rounds depth) blame machine' ensures := by
  have hi : inner.Safe c (Task.run rounds depth) blame { machine with environment := env }
      fun b machine' => c.change { machine with environment := env } machine' →
        (next b).Safe c (Task.run rounds depth) blame
          { machine' with environment := machine.environment } ensures := h
  exact .inEnvironment hc (hc.follow (fun _ _ hpre => hc.task hpre) hi)

/-- The tasks that a safe plan calls may be called. -/
theorem Kept.calls (hc : c.Kept rounds) {depth : Nat} {blame : Machine → Stop → Prop}
    {p : Plan α} {machine there : Machine} {ensures : α → Machine → Prop} {task : Task}
    (h : p.Safe c (Task.run rounds depth) blame machine ensures)
    (hcall : p.Calls (Task.run rounds depth) machine task there) : c.pre task there := by
  induction p generalizing machine with
  | done result => exact hcall.elim
  | act action next ih =>
    obtain ⟨b, machine', hb, hn⟩ := hcall
    exact ih b (h.2 b machine' hb).2 hn
  | call first next ih =>
    obtain ⟨hpre, hn⟩ := h
    rcases hcall with ⟨rfl, rfl⟩ | ⟨r, machine', hr, hcall⟩
    · exact hpre
    · obtain ⟨hchange, hpost⟩ := (hc.task hpre).1 r machine' hr
      exact ih r (hn r machine' hr hchange hpost) hcall
  | within env inner next ih ihn =>
    rcases hcall with hcall | ⟨b, machine', hb, hcall⟩
    · exact ih h hcall
    · exact ihn b ((hc.within h).1 b machine' hb).2 hcall

/-- What the own actions of a safe plan raise they may be blamed for. -/
theorem Kept.blames (hc : c.Kept rounds) {depth : Nat} {blame : Machine → Stop → Prop}
    {p : Plan α} {machine : Machine} {ensures : α → Machine → Prop} {stop : Stop}
    (h : p.Safe c (Task.run rounds depth) blame machine ensures)
    (hr : p.Raises (Task.run rounds depth) machine stop) : ∃ there, blame there stop := by
  induction p generalizing machine with
  | done result => exact hr.elim
  | act action next ih =>
    rcases hr with ⟨machine', he⟩ | ⟨b, machine', hb, hn⟩
    · exact ⟨machine, (h.1 stop machine' he).2⟩
    · exact ih b (h.2 b machine' hb).2 hn
  | call first next ih =>
    obtain ⟨hpre, hn⟩ := h
    obtain ⟨r, machine', hm, hr⟩ := hr
    obtain ⟨hchange, hpost⟩ := (hc.task hpre).1 r machine' hm
    exact ih r (hn r machine' hm hchange hpost) hr
  | within env inner next ih ihn =>
    rcases hr with hr | ⟨b, machine', hb, hr⟩
    · exact ih h hr
    · exact ihn b ((hc.within h).1 b machine' hb).2 hr

/-- **Every moment reached from one that may be may be itself.** -/
theorem Kept.reaches (hc : c.Kept rounds) {mo mo' : Moment} (h : c.pre mo.task mo.machine)
    (hr : mo.Reaches rounds mo') : c.pre mo'.task mo'.machine := by
  induction hr with
  | refl => exact h
  | tail _ hcall ih => exact hc.calls (hc.plan ih) hcall.2

/-- **What a moment raises it may be blamed for**, unless it may not nest. -/
theorem Kept.raises (hc : c.Kept rounds) {mo : Moment} {stop : Stop}
    (h : c.pre mo.task mo.machine) (hr : mo.Raises rounds stop) :
    stop = .tooDeep ∨ ∃ depth there, mo.depth = depth + 1 ∧
      c.blame depth mo.task mo.machine there stop := by
  obtain ⟨depth, task, machine⟩ := mo
  cases depth with
  | zero => exact .inl hr
  | succ depth =>
    obtain ⟨there, hb⟩ := hc.blames (hc.plan h) hr
    exact .inr ⟨depth, there, rfl, hb⟩

end Contract

end ScopedScript

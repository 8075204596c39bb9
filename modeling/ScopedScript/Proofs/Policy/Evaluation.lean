import ScopedScript.Proofs.Operators
import ScopedScript.Proofs.Policy

/-!
# Evaluation goes by a policy

A node passes on what it was given: values that the nodes inside it resulted in, and what its
own actions found on the heap.  So if the code is well formed, its plan takes only actions that
a lawful policy allows, and evaluation as a whole goes by the policy, however it ends.  This
carries over to the moments of a request, and to requests one after the other.

## Main definitions

* `Plan.Obeys`: plans that only take actions that are allowed.
* `Request.Evaluates`: the moments of a request.

## Main results

* `Expr.plan_obeys`, `Stmt.plan_obeys`: the plan of a well-formed node obeys every lawful policy.
* `Policy.Lawful.task`: so the evaluation of a node goes by it.
* `Policy.Lawful.evaluates`, `Policy.Lawful.serve`: and so do the moments of a request, and
  requests one after the other.
-/

namespace ScopedScript

/-- What the result of a task may be used for. -/
def Policy.Result (p : Policy) (heap : Heap) : (task : Task) → task.Result → Prop
  | .expr _, value => p.value heap value
  | .stmt _, outcome => p.value heap outcome.value

/-! ## Plans -/

/-- **A plan obeys a policy** on a heap, and ends with `ensures`: it takes actions that are
allowed and calls well-formed nodes, whatever these result in and however the heap changes. -/
def Plan.Obeys (p : Policy) {α : Type} : Plan α → Heap → (α → Heap → Prop) → Prop
  | done result, heap, ensures => ensures result heap
  | act action next, heap, ensures =>
    p.Allows heap action ∧ ∀ b heap', p.change heap heap' → p.Grants heap' action b →
      (next b).Obeys p heap' ensures
  | call task next, heap, ensures =>
    task.WellFormed Token.Scanned ∧ ∀ r heap', p.change heap heap' → p.Result heap' task r →
      (next r).Obeys p heap' ensures
  | within env inner next, heap, ensures =>
    p.environment heap env ∧ inner.Obeys p heap fun b heap' =>
      p.change heap heap' → (next b).Obeys p heap' ensures

section Plans

variable {p : Policy} {α : Type} {heap : Heap} {ensures : α → Heap → Prop}

theorem Plan.obeys_evalAll (hp : p.Lawful) {es : List Expr} {next : List Value → Plan α}
    (he : ∀ e ∈ es, e.WellFormed Token.Scanned)
    (hn : ∀ vs heap', p.change heap heap' → (∀ v ∈ vs, p.value heap' v) →
      (next vs).Obeys p heap' ensures) :
    (Plan.evalAll es next).Obeys p heap ensures := by
  induction es generalizing heap next with
  | nil => exact hn [] heap (hp.refl heap) fun _ hv => absurd hv List.not_mem_nil
  | cons e es ih =>
    obtain ⟨he, hes⟩ := List.forall_mem_cons.1 he
    refine ⟨he, fun v heap' hc hv => ih hes fun vs heap'' hc' hvs => ?_⟩
    exact hn (v :: vs) heap'' (hp.trans hc hc')
      (List.forall_mem_cons.2 ⟨hp.value_mono hc' hv, hvs⟩)

theorem Plan.obeys_execAll (hp : p.Lawful) {ss : List Stmt} {ensures : Outcome → Heap → Prop}
    (hs : ∀ s ∈ ss, s.WellFormed Token.Scanned)
    (he : ∀ outcome heap', p.change heap heap' → p.value heap' outcome.value →
      ensures outcome heap') :
    (Plan.execAll ss).Obeys p heap ensures := by
  induction ss generalizing heap with
  | nil => exact he .done heap (hp.refl heap) (hp.plain rfl)
  | cons s ss ih =>
    obtain ⟨hs, hss⟩ := List.forall_mem_cons.1 hs
    refine ⟨hs, fun outcome heap' hc hv => ?_⟩
    cases outcome with
    | returned value => exact he (.returned value) heap' hc hv
    | normal value => exact ih hss fun outcome heap'' hc' => he outcome heap'' (hp.trans hc hc')

theorem Plan.obeys_repeatWhile (hp : p.Lawful) {condition : Expr} {body : Stmt}
    (hc : condition.WellFormed Token.Scanned) (hb : body.WellFormed Token.Scanned) (n : Nat) :
    (Plan.repeatWhile condition body n).Obeys p heap fun outcome heap' =>
      p.value heap' outcome.value := by
  induction n generalizing heap with
  | zero => exact ⟨trivial, fun _ _ _ h => h.elim⟩
  | succ n ih =>
    refine ⟨hc, fun v heap' _ _ => ⟨trivial, fun holds heap' _ _ => ?_⟩⟩
    dsimp only
    split
    · refine ⟨hb, fun outcome heap' _ hv => ?_⟩
      cases outcome with
      | returned value => exact hv
      | normal value => exact ih
    · exact hp.plain rfl

theorem Plan.obeys_invoke (hp : p.Lawful) {closure : Closure} {args : List Value}
    {next : Value → Plan α} (hf : p.function heap closure) (ha : ∀ arg ∈ args, p.value heap arg)
    (hn : ∀ v heap', p.change heap heap' → p.value heap' v → (next v).Obeys p heap' ensures) :
    (Plan.invoke closure args next).Obeys p heap ensures := by
  refine ⟨⟨hf, ha⟩, fun env heap₁ hc₁ he => ⟨he, ?_⟩⟩
  refine Plan.obeys_execAll hp (hp.wellFormed hf).body fun outcome heap₂ _ hv hc₂ => ?_
  have hc : p.change heap heap₂ := hp.trans hc₁ hc₂
  dsimp only
  split
  · exact ⟨hp.function_mono hc hf, fun v heap₃ hc₃ hv => hn v heap₃ (hp.trans hc hc₃) hv⟩
  · cases outcome with
    | returned value => exact hn value heap₂ hc hv
    | normal value => exact hn .nil heap₂ hc (hp.plain rfl)

theorem Plan.obeys_apply (hp : p.Lawful) {callee : Value} {paren : Token} {args : List Value}
    (hv : p.value heap callee) (ha : ∀ arg ∈ args, p.value heap arg) :
    (Plan.apply callee paren args).Obeys p heap fun v heap' => p.value heap' v := by
  refine ⟨hv, fun callable heap₁ hc₁ hg => ?_⟩
  have ha : ∀ arg ∈ args, p.value heap₁ arg := fun v hv => hp.value_mono hc₁ (ha v hv)
  have hv : p.value heap₁ callee := hp.value_mono hc₁ hv
  cases callable with
  | none => exact ⟨trivial, fun v heap' _ h => by cases h⟩
  | some callable =>
    dsimp only
    split
    · exact ⟨trivial, fun v heap' _ h => by cases h⟩
    · cases callable with
      | function closure => exact Plan.obeys_invoke hp (hg.1 closure rfl) ha fun _ _ _ hv => hv
      | native code => exact ⟨ha, fun _ _ _ hv => hv⟩
      | «class» handle cls =>
        obtain ⟨rfl, hm⟩ := hg.2 handle cls rfl
        refine ⟨hv, fun object heap₂ hc₂ ho => ?_⟩
        dsimp only
        cases hi : cls.initializer? with
        | none => exact ho
        | some initializer =>
          refine ⟨⟨hp.method_mono hc₂ (hm initializer hi), ho⟩, fun bound heap₃ hc₃ hb => ?_⟩
          refine Plan.obeys_invoke hp hb
            (fun v hv => hp.value_mono (hp.trans hc₂ hc₃) (ha v hv)) fun _ heap₄ hc₄ _ => ?_
          exact hp.value_mono (hp.trans hc₃ hc₄) ho

end Plans

/-! ## Nodes -/

section Nodes

variable {p : Policy} {heap : Heap}

/-- **The plan of a well-formed expression obeys every lawful policy.** -/
theorem Expr.plan_obeys (hp : p.Lawful) {e : Expr} (he : e.WellFormed Token.Scanned) :
    e.plan.Obeys p heap fun v heap' => p.value heap' v := by
  cases e with
  | literal value => exact hp.plain (Value.isScalar_of_isPlain he)
  | «variable» name hops => exact ⟨he.2, fun _ _ _ hv => hv⟩
  | assign name value hops =>
    exact ⟨he.2, fun v heap₁ _ hv => ⟨⟨he.1, hv⟩, fun _ _ hc _ => hp.value_mono hc hv⟩⟩
  | group inner => exact ⟨he, fun _ _ _ hv => hv⟩
  | unary op operand =>
    exact ⟨he.2.2, fun _ _ _ _ => ⟨trivial, fun _ _ _ _ =>
      ⟨trivial, fun _ _ _ h => hp.plain (unaryValue_isScalar h)⟩⟩⟩
  | binary left op right =>
    exact ⟨he.1, fun _ _ _ _ => ⟨he.2.2.2, fun _ _ _ _ => ⟨trivial, fun _ _ _ _ =>
      ⟨trivial, fun _ _ _ h => hp.plain (binaryValue_isScalar h)⟩⟩⟩⟩
  | logical left op right =>
    refine ⟨he.1, fun _ _ _ _ => ⟨trivial, fun holds _ _ _ => ?_⟩⟩
    dsimp only
    split
    · exact hp.plain rfl
    · exact ⟨he.2.2.2, fun _ _ _ _ => ⟨trivial, fun _ _ _ _ => hp.plain rfl⟩⟩
  | conditional condition whenTrue whenFalse =>
    refine ⟨he.1, fun _ _ _ _ => ⟨trivial, fun holds _ _ _ => ?_⟩⟩
    dsimp only
    split
    · exact ⟨he.2.1, fun _ _ _ hv => hv⟩
    · exact ⟨he.2.2, fun _ _ _ hv => hv⟩
  | sequence items =>
    exact Plan.obeys_evalAll hp (fun e hm => he.2.of_mem hm) fun vs _ _ hvs => hp.list hvs
  | call callee paren args =>
    refine ⟨he.1, fun f heap₁ _ hf => ?_⟩
    refine Plan.obeys_evalAll hp (fun e hm => he.2.2.2.of_mem hm) fun vs heap₂ hc hvs => ?_
    exact Plan.obeys_apply hp (hp.value_mono hc hf) hvs
  | lambda keyword params body =>
    exact ⟨⟨he.2.1.2, fun s hs => he.2.2.of_mem hs⟩, fun _ _ _ hv => hv⟩
  | get object name => exact ⟨he.1, fun _ _ _ ho => ⟨ho, fun _ _ _ hv => hv⟩⟩
  | set object name value =>
    refine ⟨he.1, fun o heap₁ _ ho => ⟨trivial, fun target heap₂ hc₂ hg => ?_⟩⟩
    cases target with
    | none => exact ⟨trivial, fun v heap' _ h => by cases h⟩
    | some target =>
      obtain ⟨index, found⟩ := target
      obtain ⟨label, rfl⟩ := hg index found rfl
      refine ⟨he.2.2, fun v heap₃ hc₃ hv => ⟨⟨⟨label, ?_⟩, hv⟩, fun _ _ hc _ => ?_⟩⟩
      -- the instance is in use since before the value was computed
      · exact hp.value_mono (hp.trans hc₂ hc₃) ho
      · exact hp.value_mono hc hv
  | this keyword hops => exact ⟨rfl, fun _ _ _ hv => hv⟩

/-- **The plan of a well-formed statement obeys every lawful policy.** -/
theorem Stmt.plan_obeys (hp : p.Lawful) (rounds : Nat) {s : Stmt}
    (hs : s.WellFormed Token.Scanned) :
    (s.plan rounds).Obeys p heap fun outcome heap' => p.value heap' outcome.value := by
  cases s with
  | expression inner => exact ⟨hs, fun _ _ _ hv => hv⟩
  | print inner => exact ⟨hs, fun _ _ _ _ => ⟨trivial, fun _ _ _ _ => hp.plain rfl⟩⟩
  | var name initializer =>
    cases initializer with
    | none => exact ⟨⟨hs.1, hp.plain rfl⟩, fun _ _ _ _ => hp.plain rfl⟩
    | some initializer =>
      exact ⟨hs.2, fun _ _ _ hv => ⟨⟨hs.1, hv⟩, fun _ _ _ _ => hp.plain rfl⟩⟩
  | block statements =>
    refine ⟨trivial, fun env heap₁ _ he => ⟨he, ?_⟩⟩
    exact Plan.obeys_execAll hp (fun s hm => Stmt.AllWellFormed.of_mem hs hm)
      fun _ _ _ hv _ => hv
  | branch condition whenTrue whenFalse =>
    refine ⟨hs.1, fun _ _ _ _ => ⟨trivial, fun holds _ _ _ => ?_⟩⟩
    dsimp only
    split
    · exact ⟨hs.2.1, fun _ _ _ hv => hv⟩
    · cases whenFalse with
      | none => exact hp.plain rfl
      | some whenFalse => exact ⟨hs.2.2.2.1, fun _ _ _ hv => hv⟩
  | loop condition body => exact Plan.obeys_repeatWhile hp hs.1 hs.2.1 rounds
  | function decl =>
    cases decl with
    | mk name params body =>
      exact ⟨⟨hs.1, FunctionDecl.WellFormed.wellFormedBody hs⟩, fun _ _ _ _ => hp.plain rfl⟩
  | «return» keyword value =>
    cases value with
    | none => exact hp.plain rfl
    | some value => exact ⟨hs.2, fun _ _ _ hv => hv⟩
  | «class» name methods =>
    exact ⟨⟨hs.1, fun f hf => (hs.2.of_mem hf).wellFormedBody⟩, fun _ _ _ _ => hp.plain rfl⟩

end Nodes

/-- **A request evaluates a node at this moment.** -/
def Request.Evaluates (limits : Limits) (machine : Machine) : Request → Moment → Prop
  | program source, mo => Evaluated limits machine source mo
  | expression source, mo => ∃ e, loadSingle readExpression source = .ok e ∧
      Moment.Reaches limits.rounds ⟨limits.depth, .expr e, machine⟩ mo
  | statement source, mo => ∃ s, loadSingle readDeclaration source = .ok s ∧
      Moment.Reaches limits.rounds ⟨limits.depth, .stmt s, machine⟩ mo

/-! ## Evaluation -/

namespace Policy

/-- **What a policy asks of evaluation, as a contract.** -/
def contract (p : Policy) : Contract where
  pre task machine := task.WellFormed Token.Scanned ∧ p.Admits machine
  post task _ r machine' := p.Result machine'.heap task r
  change machine machine' := p.heap machine.heap → p.Step machine machine'
  blame _ _ _ _ _ := True

variable {p : Policy}

/-- A plan that obeys the policy keeps to its contract. -/
theorem safe_of_obeys (hp : p.Lawful) {perform : (task : Task) → Eval task.Result}
    {blame : Machine → Stop → Prop} (hblame : ∀ machine stop, blame machine stop) {α : Type}
    {plan : Plan α} {machine : Machine} {ensures : α → Heap → Prop}
    {ensures' : α → Machine → Prop} (h : plan.Obeys p machine.heap ensures)
    (hm : p.Admits machine) (he : ∀ a machine', ensures a machine'.heap → ensures' a machine') :
    plan.Safe p.contract perform blame machine ensures' := by
  -- The heaps that `Obeys` speaks of are the heaps of the machines that the plan goes through.
  induction plan generalizing machine with
  | done result => exact he result machine h
  | act action next ih =>
    have hact := hp.act action hm h.1
    constructor
    · intro stop machine' hs
      rw [Ends, hs] at hact
      exact ⟨fun _ => hact, hblame machine stop⟩
    · intro b machine' hs
      rw [Ends, hs] at hact
      refine ⟨fun _ => hact.1, ih b ?_ (hm.after hp hact.1) he⟩
      exact h.2 b machine'.heap hact.1.becomes.change hact.2
  | call task next ih =>
    refine ⟨⟨h.1, hm⟩, fun r machine' _ hc hr => ?_⟩
    have hs : p.Step machine machine' := hc hm.heap
    exact ih r (h.2 r machine'.heap hs.becomes.change hr) (hm.after hp hs) he
  | within env inner next ih ihn =>
    have hm' : p.Admits { machine with environment := env } := ⟨hm.heap, h.1⟩
    refine ih h.2 hm' fun b machine' hb hc => ?_
    have hs : p.Step { machine with environment := env } machine' := hc hm.heap
    have hback : p.Admits { machine' with environment := machine.environment } :=
      ⟨hs.becomes.heap, hp.environment_mono hs.becomes.change hm.environment⟩
    exact ihn b (hb hs.becomes.change) hback he

namespace Lawful

theorem kept (hp : p.Lawful) (rounds : Nat) : p.contract.Kept rounds where
  refl _ h := hp.step_refl h
  trans _ _ _ hab hbc h := (hab h).trans hp (hbc (hab h).becomes.heap)
  enter _ h hm := ⟨rfl, (h hm).becomes⟩
  plan {depth task machine} h := by
    cases task with
    | expr e =>
      exact safe_of_obeys hp (fun _ _ => trivial) (e.plan_obeys hp h.1) h.2 fun _ _ hv => hv
    | stmt s =>
      exact safe_of_obeys hp (fun _ _ => trivial) (s.plan_obeys hp rounds h.1) h.2 fun _ _ hv => hv

variable {machine : Machine} {rounds depth : Nat}

/-- What follows a plan that obeys the policy goes by it. -/
theorem plan (hp : p.Lawful) {α : Type} {plan : Plan α} {ensures : α → Heap → Prop}
    (h : plan.Obeys p machine.heap ensures) (hm : p.Admits machine) :
    p.Ends (plan.run (Task.run rounds depth)) machine ensures := by
  have hk := hp.kept rounds
  have hsafe : plan.Safe p.contract (Task.run rounds depth) (fun _ _ => True) machine
      fun a machine' => ensures a machine'.heap :=
    safe_of_obeys hp (fun _ _ => trivial) h hm fun _ _ he => he
  obtain ⟨ho, he⟩ := hk.follow (fun _ _ hpre => hk.task hpre) hsafe
  unfold Ends
  cases hr : plan.run (Task.run rounds depth) machine with
  | ok a machine' =>
    obtain ⟨hc, ha⟩ := ho a machine' hr
    exact ⟨hc hm.heap, ha⟩
  | error stop machine' => exact he stop machine' hr hm.heap

/-- **The evaluation of a node goes by the policy**, however it ends. -/
theorem task (hp : p.Lawful) (task : Task) (hw : task.WellFormed Token.Scanned)
    (hm : p.Admits machine) :
    p.Ends (task.run rounds depth) machine fun r heap => p.Result heap task r := by
  cases depth with
  | zero =>
    rw [Task.run_zero]
    exact .of_error hp rfl hm.heap
  | succ depth =>
    rw [Task.run_succ]
    cases task with
    | expr e => exact hp.plan (e.plan_obeys hp hw) hm
    | stmt s => exact hp.plan (s.plan_obeys hp rounds hw) hm

/-- The values of expressions in order may all be used. -/
theorem evalAll (hp : p.Lawful) {es : List Expr} (hw : ∀ e ∈ es, e.WellFormed Token.Scanned)
    (hm : p.Admits machine) :
    p.Ends (es.mapM (eval rounds depth)) machine fun vs heap => ∀ v ∈ vs, p.value heap v := by
  induction es generalizing machine with
  | nil => exact .of_same hp rfl hm.heap fun _ hv => absurd hv List.not_mem_nil
  | cons e es ih =>
    obtain ⟨he, hw⟩ := List.forall_mem_cons.1 hw
    have hfirst : p.Ends (eval rounds depth e) machine fun v heap => p.value heap v :=
      hp.task (.expr e) he hm
    rw [List.mapM_cons]
    refine hfirst.bind hp fun v machine' _ hs hv => ?_
    have hm' := hm.after hp hs
    refine (ih hw hm').bind hp fun vs machine'' _ hs' hvs => ?_
    exact .of_same hp rfl hs'.becomes.heap
      (List.forall_mem_cons.2 ⟨hp.value_mono hs'.becomes.change hv, hvs⟩)

/-- So does a moment that is reached from an admitted one. -/
theorem reaches (hp : p.Lawful) (mo : Moment) {mo' : Moment} (hw : mo.task.WellFormed Token.Scanned)
    (hm : p.Admits mo.machine) (hr : mo.Reaches rounds mo') :
    mo'.task.WellFormed Token.Scanned ∧ p.Admits mo'.machine :=
  (hp.kept rounds).reaches ⟨hw, hm⟩ hr

/-! ### Requests -/

variable {limits : Limits}

theorem execAll (hp : p.Lawful) {ss : List Stmt} (hw : ∀ s ∈ ss, s.WellFormed Token.Scanned)
    (hm : p.Admits machine) {value : Value} (hv : p.value machine.heap value) :
    p.Ends (execAll limits value ss) machine fun v heap => p.value heap v := by
  induction ss generalizing machine value with
  | nil => exact .of_same hp rfl hm.heap hv
  | cons s ss ih =>
    obtain ⟨hs, hw⟩ := List.forall_mem_cons.1 hw
    have hfirst : p.Ends (exec limits.rounds limits.depth s) machine fun outcome heap =>
        p.value heap outcome.value := hp.task (.stmt s) hs hm
    exact hfirst.bind hp fun outcome machine' _ hs hv => ih hw (hm.after hp hs) hv

/-- **At the moments of a request the machine is as the policy admits**, and the code well
formed. -/
theorem evaluates (hp : p.Lawful) {request : Request} {mo : Moment} (hm : p.Admits machine)
    (h : request.Evaluates limits machine mo) :
    mo.task.WellFormed Token.Scanned ∧ p.Admits mo.machine := by
  cases request with
  | program source =>
    obtain ⟨before, s, after, value, start, hl, hb, hr⟩ := h
    have hw := load_wellFormed hl
    simp only [List.forall_mem_append, List.forall_mem_cons] at hw
    have hbefore : p.Ends (ScopedScript.execAll limits .nil before) machine fun v heap =>
        p.value heap v := hp.execAll hw.1 hm (hp.plain rfl)
    rw [Ends, hb] at hbefore
    exact hp.reaches ⟨limits.depth, .stmt s, start⟩ hw.2.1 (hm.after hp hbefore.1) hr
  | expression source =>
    obtain ⟨e, hl, hr⟩ := h
    exact hp.reaches ⟨limits.depth, .expr e, machine⟩ (loadExpression_wellFormed hl) hm hr
  | statement source =>
    obtain ⟨s, hl, hr⟩ := h
    exact hp.reaches ⟨limits.depth, .stmt s, machine⟩ (loadStatement_wellFormed hl) hm hr

theorem step_after {α : Type} {step : Eval α} {ensures : α → Heap → Prop}
    (h : p.Ends step machine ensures) : p.Step machine (step.after machine) := by
  unfold Ends at h
  unfold Eval.after
  cases hs : step machine with
  | ok a machine' =>
    rw [hs] at h
    exact h.1
  | error stop machine' =>
    rw [hs] at h
    exact h

/-- A request goes by the policy, however it ends. -/
theorem perform (hp : p.Lawful) (request : Request) (hm : p.Admits machine) :
    p.Step machine ((request.perform limits).after machine) := by
  cases request with
  | program source =>
    rw [Request.perform, run, Run.after_ofExcept_bind]
    cases hl : load source with
    | error failure => exact hp.step_refl hm.heap
    | ok ss =>
      dsimp only
      rw [Run.after_ofEval]
      exact step_after (hp.execAll (load_wellFormed hl) hm (hp.plain rfl))
  | expression source =>
    rw [Request.perform, runExpression, Run.after_ofExcept_bind]
    cases hl : loadSingle readExpression source with
    | error failure => exact hp.step_refl hm.heap
    | ok e =>
      dsimp only
      rw [Run.after_ofEval]
      exact step_after (hp.task (.expr e) (loadExpression_wellFormed hl) hm)
  | statement source =>
    rw [Request.perform, runStatement, Run.after_ofExcept_bind]
    cases hl : loadSingle readDeclaration source with
    | error failure => exact hp.step_refl hm.heap
    | ok s =>
      dsimp only
      rw [Run.after_map, Run.after_ofEval]
      exact step_after (hp.task (.stmt s) (loadStatement_wellFormed hl) hm)

/-- **Requests one after the other go by the policy**, whichever of them fail. -/
theorem serve (hp : p.Lawful) (requests : List Request) (hm : p.Admits machine) :
    p.Admits (machine.serve limits requests) := by
  induction requests generalizing machine with
  | nil => exact hm
  | cons request requests ih => exact ih (hm.after hp (hp.perform request hm))

end Lawful

end Policy

end ScopedScript

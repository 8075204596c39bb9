import ScopedScript.Proofs.Scope.Agreement

/-!
# Runs of sources

A machine runs one source after another, and some of the runs may fail.  The moments of a run
are those that its statements lead to, in order, as far as the run gets; a run ends early
exactly with what one of them raises.  A machine that has only run sources stands in no scope,
so at each moment of the next run scopes and frames go together.

## Main definitions

* `Evaluated`: the moments of a run.
* `Moment.LooksUpOn`: the machine on which the variable of a moment is looked up.
* `Run.failure?`: what a run failed with.

## Main results

* `run_stops_iff`: a run ends early exactly with what one of its moments raises.
* `served_standsIn`: a machine that has run sources stands in no scope.
* `Evaluated.agreement`: at every moment of a run scopes and frames go together.
* `missed_of_defect`: a defect comes from a variable that is not ready.
-/

namespace ScopedScript

/-! ## The moments of a run -/

/-- **A run of the source evaluates a node at this moment.**  Some statement of the program
leads to it, after those before it were executed. -/
def Evaluated (limits : Limits) (machine : Machine) (source : String) (mo : Moment) : Prop :=
  ∃ before s after value start, load source = .ok (before ++ s :: after) ∧
    execAll limits .nil before machine = .ok value start ∧
      Moment.Reaches limits.rounds ⟨limits.depth, .stmt s, start⟩ mo

/-- The machine on which the variable of a moment is looked up. -/
def Moment.LooksUpOn (rounds : Nat) (mo : Moment) (there : Machine) : Prop :=
  ∃ depth, mo.depth = depth + 1 ∧ mo.task.LooksUpOn rounds depth mo.machine there

section Fails

variable {limits : Limits} {machine : Machine} {stop : Stop}

theorem execAll_fails_iff {value : Value} {ss : List Stmt} :
    Eval.Fails (execAll limits value ss) machine stop ↔
      ∃ before s after value' start, ss = before ++ s :: after ∧
        execAll limits value before machine = .ok value' start ∧
          Eval.Fails (exec limits.rounds limits.depth s) start stop := by
  induction ss generalizing value machine with
  | nil =>
    constructor
    · rintro ⟨_, h⟩
      cases h
    · rintro ⟨before, s, after, _, _, h, -⟩
      simp at h
  | cons first ss ih =>
    rw [execAll, Eval.fails_bind_iff]
    constructor
    · rintro (h | ⟨outcome, mid, hf, h⟩)
      · exact ⟨[], first, ss, value, machine, rfl, rfl, h⟩
      · obtain ⟨before, s, after, value', start, rfl, hb, hs⟩ := ih.1 h
        refine ⟨first :: before, s, after, value', start, rfl, ?_, hs⟩
        rw [execAll, bind_of_ok hf]
        exact hb
    · rintro ⟨before, s, after, value', start, hss, hb, hs⟩
      cases before with
      | nil =>
        cases hss
        cases hb
        exact .inl hs
      | cons first before =>
        cases hss
        rw [execAll, bind_eq_ok_iff] at hb
        obtain ⟨outcome, mid, hf, hb⟩ := hb
        exact .inr ⟨outcome, mid, hf, ih.2 ⟨before, s, after, value', start, rfl, hb, hs⟩⟩

/-- Loading never ends like an evaluation. -/
theorem load_ne_stop (source : String) : load source ≠ .error (.stop stop) := by
  intro h
  unfold load loadTokens at h
  dsimp only at h
  split at h
  case isFalse => cases h
  case isTrue =>
    change (loadStatements (scan source).tokens >>= fun ss =>
      (analyze ss).mapError .resolve) = _ at h
    cases hs : loadStatements (scan source).tokens with
    | error failure =>
      rw [hs] at h
      cases h
      unfold loadStatements at hs
      dsimp only at hs
      split at hs
      · cases hs
      · split at hs <;> cases hs
    | ok ss =>
      rw [hs] at h
      change (analyze ss).mapError _ = _ at h
      cases ha : analyze ss <;> rw [ha] at h <;> cases h

/-- **A run ends early exactly with what one of its moments raises.** -/
theorem run_stops_iff {source : String} :
    (∃ machine', run limits source machine = .error (.stop stop) machine') ↔
      ∃ mo, Evaluated limits machine source mo ∧ mo.Raises limits.rounds stop := by
  cases hl : load source with
  | error failure =>
    constructor
    · rintro ⟨machine', h⟩
      rw [run, hl] at h
      cases h
      exact absurd hl (load_ne_stop source)
    · rintro ⟨mo, ⟨before, s, after, value, start, h, -⟩, -⟩
      rw [hl] at h
      cases h
  | ok ss =>
    have hr : (∃ machine', run limits source machine = .error (.stop stop) machine') ↔
        Eval.Fails (execAll limits .nil ss) machine stop := by
      rw [run, hl]
      change (∃ machine', EStateM.adaptExcept RunFailure.stop (execAll limits .nil ss) machine =
        .error (.stop stop) machine') ↔ _
      unfold EStateM.adaptExcept Eval.Fails
      cases execAll limits .nil ss machine <;> simp
    rw [hr, execAll_fails_iff]
    constructor
    · rintro ⟨before, s, after, value, start, rfl, hb, hf⟩
      -- no statement catches what a statement raises: go to the moment that raised it
      have hf : Moment.Fails limits.rounds ⟨limits.depth, .stmt s, start⟩ stop := hf
      obtain ⟨mo, hreach, hraise⟩ := (Moment.fails_iff _).1 hf
      exact ⟨mo, ⟨before, s, after, value, start, hl, hb, hreach⟩, hraise⟩
    · rintro ⟨mo, ⟨before, s, after, value, start, hl', hb, hreach⟩, hraise⟩
      have hf := (Moment.fails_iff _).2 ⟨mo, hreach, hraise⟩
      exact ⟨before, s, after, value, start, Except.ok.inj (hl.symm.trans hl'), hb, hf⟩

end Fails

/-! ## Machines between runs -/

/-- A new machine stands in no scope. -/
theorem initial_standsIn (known : Task → Prop) (clock : Clock) :
    (Machine.initial clock).StandsIn known [] :=
  ⟨⟨rfl, Nat.one_pos⟩, ⟨fun _ h => absurd h (Array.not_mem_empty _),
    fun _ h => absurd h (Array.not_mem_empty _)⟩⟩

section Served

variable {known : Task → Prop} {limits : Limits} {machine : Machine}

theorem execAll_standsIn (hclosed : Task.Closed known) {ss : List Stmt}
    (hk : ∀ s ∈ ss, known (.stmt s)) (hl : ∀ s ∈ ss, s.LocatedIn [])
    (hm : machine.StandsIn known []) (value : Value) :
    ((execAll limits value ss).after machine).StandsIn known [] := by
  induction ss generalizing machine value with
  | nil => exact hm
  | cons s ss ih =>
    obtain ⟨hks, hk⟩ := List.forall_mem_cons.1 hk
    obtain ⟨hls, hl⟩ := List.forall_mem_cons.1 hl
    have hpre : (agreement known limits.rounds).pre (.stmt s) machine := ⟨hks, [], hls, hm⟩
    obtain ⟨ho, he⟩ := (agreement_kept hclosed limits.rounds).task hpre
    rw [execAll, Eval.after_bind]
    cases hs : exec limits.rounds limits.depth s machine with
    | ok outcome machine' => exact ih hk hl (hm.mono (ho outcome machine' hs).1) outcome.value
    | error stop machine' => exact hm.mono (he stop machine' hs)

variable {sources : List String}

/-- The statements of a loaded source are known and located in no scope. -/
theorem loaded_known {source : String} (hs : source ∈ sources) {ss : List Stmt}
    (hl : load source = .ok ss) :
    (∀ s ∈ ss, Occurs sources (.stmt s)) ∧ ∀ s ∈ ss, s.LocatedIn [] :=
  ⟨fun s hm => ⟨source, hs, ss, hl, s, hm, .refl⟩, (load_located hl).of_nil⟩

/-- **A machine that runs sources stands in no scope afterwards.** -/
theorem served_standsIn {earlier : List String} (hr : ∀ source ∈ earlier, source ∈ sources)
    (hm : machine.StandsIn (Occurs sources) []) :
    (machine.serve limits (earlier.map .program)).StandsIn (Occurs sources) [] := by
  induction earlier generalizing machine with
  | nil => exact hm
  | cons source earlier ih =>
    obtain ⟨hs, hr⟩ := List.forall_mem_cons.1 hr
    refine ih hr ?_
    change ((run limits source).after machine).StandsIn (Occurs sources) []
    rw [run, Run.after_ofExcept_bind]
    cases hl : load source with
    | error failure => exact hm
    | ok ss =>
      obtain ⟨hk, hl⟩ := loaded_known hs hl
      dsimp only
      rw [Run.after_ofEval]
      exact execAll_standsIn (Occurs.closed sources) hk hl hm .nil

/-- A new machine that has run some sources stands in no scope when it runs another one. -/
theorem initial_served_standsIn (limits : Limits) (clock : Clock) (earlier : List String)
    (source : String) :
    ((Machine.initial clock).serve limits (earlier.map .program)).StandsIn
      (Occurs (earlier ++ [source])) [] :=
  served_standsIn (fun _ h => List.mem_append_left _ h) (initial_standsIn _ clock)

/-- **At every moment of a run scopes and frames go together.** -/
theorem Evaluated.agreement {source : String} {mo : Moment}
    (h : Evaluated limits machine source mo) (hs : source ∈ sources)
    (hm : machine.StandsIn (Occurs sources) []) :
    (agreement (Occurs sources) limits.rounds).pre mo.task mo.machine := by
  obtain ⟨before, s, after, value, start, hl, hb, hreach⟩ := h
  obtain ⟨hk, hl⟩ := loaded_known hs hl
  simp only [List.forall_mem_append, List.forall_mem_cons] at hk hl
  have hstart : ((execAll limits .nil before).after machine).StandsIn (Occurs sources) [] :=
    execAll_standsIn (Occurs.closed sources) hk.1 hl.1 hm .nil
  rw [Eval.after, hb] at hstart
  have hpre : (ScopedScript.agreement (Occurs sources) limits.rounds).pre (.stmt s) start :=
    ⟨hk.2.1, [], hl.2.1, hstart⟩
  exact (agreement_kept (Occurs.closed sources) limits.rounds).reaches hpre hreach

end Served

/-- The variable of a node is looked up among the same scopes as the node is evaluated. -/
theorem Task.LooksUpOn.standsIn {known : Task → Prop} (hclosed : Task.Closed known)
    {rounds depth : Nat} {task : Task} {machine there : Machine} {scopes : List Scope}
    (h : task.LooksUpOn rounds depth machine there) (hk : known task)
    (hl : task.LocatedIn scopes) (hm : machine.StandsIn known scopes) :
    there.StandsIn known scopes := by
  unfold Task.LooksUpOn at h
  split at h
  · rename_i name value hops seen
    obtain ⟨v, hv⟩ := h
    have hpre : (agreement known rounds).pre (.expr value) machine :=
      ⟨hclosed hk _ List.mem_cons_self, scopes, hl.2.1, hm⟩
    exact hm.mono (((agreement_kept hclosed rounds).task hpre).1 v there hv).1
  · rw [h]
    exact hm

/-! ## Defects of a run -/

/-- What a run failed with, if it did. -/
def Run.failure? {α : Type} (step : Run α) (machine : Machine) : Option RunFailure :=
  match step machine with
  | .ok _ _ => none
  | .error failure _ => some failure

theorem Run.failure?_eq_some_iff {α : Type} {step : Run α} {machine : Machine}
    {failure : RunFailure} :
    step.failure? machine = some failure ↔ ∃ machine', step machine = .error failure machine' := by
  unfold Run.failure?
  cases step machine <;> simp

/-- A run that ends with a defect has a moment at which a variable that is not ready is looked
up in a frame that lacks it. -/
theorem missed_of_defect {limits : Limits} {machine : Machine} {source : String}
    {sources : List String} {e : RuntimeError} (hs : source ∈ sources)
    (hm : machine.StandsIn (Occurs sources) [])
    (hf : (run limits source).failure? machine = some (.stop (.error e)))
    (hd : e.fault.isDefect = true) :
    ∃ mo r there distance, Evaluated limits machine source mo ∧ mo.task.access? = some r ∧
      mo.LooksUpOn limits.rounds there ∧ r.Misses there distance ∧
        markAt r.scopes distance r.name.lexeme = some false ∧ e = r.missing distance := by
  obtain ⟨mo, he, hraise⟩ := run_stops_iff.1 (Run.failure?_eq_some_iff.1 hf)
  have hkept := agreement_kept (Occurs.closed sources) limits.rounds
  -- running out of depth is no defect, so an action of the moment is to blame
  rcases hkept.raises (he.agreement hs hm) hraise with h | ⟨depth, there, hdepth, hblame⟩
  · cases h
  · obtain ⟨r, distance, hr, hl, hmiss, hu, h⟩ := hblame hd
    exact ⟨mo, r, there, distance, he, hr, ⟨depth, hdepth, hl⟩, hmiss, hu, Stop.error.inj h⟩

end ScopedScript

import ScopedScript.Proofs.ForLoop.Direct
import ScopedScript.Proofs.Scope.Runs

/-!
# Grounded machines

A frame is made before an environment comes to have it, and frames are never taken away.  So
every machine that a program can be at is grounded: the frames of its environments exist.  A
grounded machine matches itself, without spare frames, and evaluation keeps machines grounded.

## Main definitions

* `Machine.Grounded`: the frames of a machine's environments exist.

## Main results

* `Evaluated.grounded`: a run is at a grounded machine at each of its moments.
* `Machine.Grounded.serve`: a machine that serves requests stays grounded.
* `Machine.Grounded.match_self`: a grounded machine matches itself.
-/

namespace ScopedScript

open Eval

/-- The frames of an environment exist. -/
def Frames.Has (frames : Frames) (env : Environment) : Prop :=
  ∀ frame ∈ env.chain, frame < frames.next

/-- **A machine whose environments have frames that exist**: its own, and those of its functions
and methods. -/
structure Machine.Grounded (machine : Machine) : Prop where
  global : 0 < machine.heap.frames.next
  environment : machine.heap.frames.Has machine.environment
  functions : ∀ closure ∈ machine.heap.functions, machine.heap.frames.Has closure.environment
  methods : ∀ cls ∈ machine.heap.classes, ∀ name method, cls.methods.get? name = some method →
    machine.heap.frames.Has method.environment

/-- Frames that stand for scopes exist. -/
theorem Covers.has {frames : Frames} {scopes : List Scope} {env : Environment}
    (h : Covers frames scopes env.chain) : frames.Has env := by
  unfold Frames.Has
  generalize env.chain = chain at h ⊢
  induction scopes generalizing chain with
  | nil =>
    obtain ⟨rfl, hn⟩ := h
    simpa using hn
  | cons scope scopes ih =>
    cases chain with
    | nil => exact h.elim
    | cons frame chain => exact List.forall_mem_cons.2 ⟨h.2.1, ih chain h.2.2.2⟩

/-- A machine among some scopes is grounded. -/
theorem Machine.StandsIn.grounded {known : Task → Prop} {machine : Machine} {scopes : List Scope}
    (h : machine.StandsIn known scopes) : machine.Grounded where
  global := h.covers.next_pos
  environment := h.covers.has
  functions closure hc := by
    obtain ⟨_, hcovers, -⟩ := h.sound.functions closure hc
    exact hcovers.has
  methods cls hc name method hm := by
    obtain ⟨_, hcovers, -⟩ := h.sound.classes cls hc name method hm
    exact hcovers.has

/-- **A run is at a grounded machine at each of its moments**, whatever ran before. -/
theorem Evaluated.grounded {limits : Limits} {clock : Clock} {earlier : List String}
    {source : String} {mo : Moment}
    (h : Evaluated limits ((Machine.initial clock).serve limits (earlier.map .program)) source mo) :
    mo.machine.Grounded := by
  have hm := initial_served_standsIn limits clock earlier source
  obtain ⟨-, scopes, -, hs⟩ := h.agreement (List.mem_append_right _ (List.mem_singleton_self _)) hm
  exact hs.grounded

/-! ## A grounded machine matches itself -/

variable {note : Nat → List Scope → List Scope} {machine : Machine}

theorem TablesMatch.same {α : Type} {entries : α → α → Prop} {table : Array α}
    (h : ∀ a ∈ table, entries a a) : TablesMatch entries table table where
  size := rfl
  entry i := by
    cases hi : table[i]? with
    | none => exact .none
    | some a => exact .some (h a (Array.mem_of_getElem? hi))

/-- A function whose environment exists matches itself. -/
theorem Closure.matchAt_same {frames : Frames} {closure : Closure}
    (h : frames.Has closure.environment) :
    MatchAt note (Layout.same frames.next) none none closure closure :=
  ⟨rfl, rfl, rfl, .same h, (Stmt.widenAll_none _).symm⟩

/-- **A grounded machine matches itself.** -/
theorem Machine.Grounded.match_self (h : machine.Grounded) :
    Machine.Match note (Layout.same machine.heap.frames.next) machine machine where
  frames := .same h.global
  functions := .same fun closure hc =>
    ⟨none, Closure.matchAt_same (h.functions closure hc), fun _ => by simp⟩
  classes := .same fun cls hc =>
    { name := rfl
      methods := fun name => by
        cases hm : cls.methods.get? name with
        | none => exact .none
        | some method =>
          exact .some ⟨none, Closure.matchAt_same (h.methods cls hc name method hm)⟩ }
  natives := rfl
  instances := rfl
  output := rfl
  clock := rfl
  ticks := rfl

/-! ## Evaluation keeps machines grounded -/

theorem Layout.Chains.has {layout : Layout} {cutoff : Cutoff} {wide narrow : Frames}
    {env env' : Environment} (h : layout.Chains cutoff env.chain env'.chain)
    (hf : Frames.Match layout wide narrow) : wide.Has env := by
  unfold Frames.Has
  generalize env.chain = wides at h ⊢
  generalize env'.chain = narrows at h
  induction h with
  | nil => simp
  | kept hp _ ih => exact List.forall_mem_cons.2 ⟨hf.lt_wide hp, ih⟩
  | spare hs _ ih =>
    exact List.forall_mem_cons.2 ⟨List.mem_range.1 (hf.all.mem_iff.1 (by simp [hs])), ih⟩

/-- An entry of a table has a match in a table that matches. -/
theorem TablesMatch.exists_of_mem {α : Type} {entries : α → α → Prop} {wide narrow : Array α}
    (h : TablesMatch entries wide narrow) {a : α} (ha : a ∈ wide) : ∃ a', entries a a' := by
  obtain ⟨i, hi, rfl⟩ := Array.mem_iff_getElem.1 ha
  have he := h.entry i
  rw [Array.getElem?_eq_getElem hi] at he
  generalize narrow[i]? = found at he
  cases he with
  | some he => exact ⟨_, he⟩

/-- A machine that matches another one is grounded. -/
theorem Machine.Match.grounded {layout : Layout} {cutoff : Cutoff} {wide narrow : Machine}
    (h : Match note layout wide narrow)
    (hc : layout.Chains cutoff wide.environment.chain narrow.environment.chain) :
    wide.Grounded where
  global := h.frames.lt_wide h.frames.global
  environment := hc.has h.frames
  functions closure hm := by
    obtain ⟨_, _, hm, -⟩ := h.functions.exists_of_mem hm
    exact hm.environment.has h.frames
  methods cls hm name method hn := by
    obtain ⟨cls', hm⟩ := h.classes.exists_of_mem hm
    have hr := hm.methods name
    rw [hn] at hr
    generalize cls'.methods.get? name = found at hr
    cases hr with
    | some hr =>
      obtain ⟨_, hr⟩ := hr
      exact hr.environment.has h.frames

/-- **A step that mirrors itself keeps machines grounded.** -/
theorem Machine.Grounded.after {α : Type} {step : Eval α} (h : machine.Grounded)
    (hs : Mirrors (fun _ scopes => scopes) (Layout.same machine.heap.frames.next) none Same step
      step) :
    (step.after machine).Grounded := by
  have hc : (Layout.same machine.heap.frames.next).Chains none machine.environment.chain
      machine.environment.chain := .same h.environment
  have hkept : ∀ {layout : Layout} {machine' : Machine},
      Machine.After (fun _ scopes => scopes) (Layout.same machine.heap.frames.next) machine machine
        layout machine' machine' → machine'.Grounded := by
    intro layout machine' ha
    have hc' : layout.Chains none machine'.environment.chain machine'.environment.chain := by
      rw [ha.wide]
      exact hc.mono ha.extended
    exact ha.matched.grounded hc'
  have he := hs machine machine hc h.match_self
  unfold Eval.after
  cases hr : step machine with
  | ok a machine' =>
    rw [hr] at he
    cases he with
    | ok he =>
      obtain ⟨_, ha, -⟩ := he
      exact hkept ha
  | error stop machine' =>
    rw [hr] at he
    cases he with
    | error he =>
      obtain ⟨_, ha, -⟩ := he
      exact hkept ha

/-- Statements that are executed in order mirror themselves. -/
theorem mirrors_execAll {layout : Layout} (limits : Limits) (value : Value) (ss : List Stmt) :
    Mirrors note layout none Same (execAll limits value ss) (execAll limits value ss) := by
  induction ss generalizing layout value with
  | nil => exact mirrors_pure rfl
  | cons s ss ih =>
    rw [execAll]
    exact (ForLoop.mirrors_exec limits.rounds limits.depth s).andThen fun _ outcome _ =>
      ih outcome.value

/-- A request leaves a grounded machine. -/
theorem Machine.Grounded.perform (h : machine.Grounded) (limits : Limits) (request : Request) :
    ((request.perform limits).after machine).Grounded := by
  cases request with
  | program source =>
    rw [Request.perform, run, Run.after_ofExcept_bind]
    cases load source with
    | error failure => exact h
    | ok ss =>
      dsimp only
      rw [Run.after_ofEval]
      exact h.after (mirrors_execAll limits .nil ss)
  | expression source =>
    rw [Request.perform, runExpression, Run.after_ofExcept_bind]
    cases loadSingle readExpression source with
    | error failure => exact h
    | ok e =>
      dsimp only
      rw [Run.after_ofEval]
      exact h.after (ForLoop.mirrors_eval limits.rounds limits.depth e)
  | statement source =>
    rw [Request.perform, runStatement, Run.after_ofExcept_bind]
    cases loadSingle readDeclaration source with
    | error failure => exact h
    | ok s =>
      dsimp only
      rw [Run.after_map, Run.after_ofEval]
      exact h.after (ForLoop.mirrors_exec limits.rounds limits.depth s)

/-- **A machine that serves requests stays grounded.** -/
theorem Machine.Grounded.serve (h : machine.Grounded) (limits : Limits) (requests : List Request) :
    (machine.serve limits requests).Grounded := by
  induction requests generalizing machine with
  | nil => exact h
  | cons request requests ih => exact ih (h.perform limits request)

end ScopedScript

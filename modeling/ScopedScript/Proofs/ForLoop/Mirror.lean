import Mathlib.Data.List.Forall2
import ScopedScript.Evaluate
import ScopedScript.Proofs.ForLoop.Layout

/-!
# Evaluation with and without a spare frame

Two machines are compared, one of which has spare frames.  They have the same output, instances
and values; their functions and classes are the same but for the frames that the environments
have and the trees count.

Evaluating a widened tree on the wide machine mirrors evaluating the tree on the narrow one: both
give the same value, or both stop for the same reason, and the machines go on to match.  A spare
frame stays without bindings, since a tree that is evaluated right in it binds nothing.

## Main definitions

* `Machine.Match`: the machines match in a layout.
* `Eval.Mirrors`: one step does on the wide machine what another does on the narrow one.

## Main results

* `Eval.Mirrors.bind`, `Eval.Mirrors.inEnvironment`: mirroring steps are put together.
* `mirrorsTo`: evaluating a widened tree mirrors evaluating the tree.
-/

namespace ScopedScript

variable (note : Nat → List Scope → List Scope)

/-! ## Matching machines -/

/-- **Two functions match**: the environment has a spare frame at `outside`, and the body counts
it as lying at `inside`. -/
structure Closure.MatchAt (layout : Layout) (outside inside : Cutoff) (wide narrow : Closure) :
    Prop where
  name : wide.name = narrow.name
  params : wide.params = narrow.params
  initializer : wide.initializer = narrow.initializer
  environment : layout.Chains outside wide.environment.chain narrow.environment.chain
  body : wide.body = Stmt.widenAll note inside narrow.body

/-- Two functions match: the body is one frame inside the environment.  The innermost frame of an
initializer is that of `this`, which is not spare. -/
def Closure.Match (layout : Layout) (wide narrow : Closure) : Prop :=
  ∃ cutoff : Cutoff, MatchAt note layout cutoff cutoff.inner wide narrow ∧
    (narrow.initializer = true → cutoff ≠ some 0)

/-- Two methods match: once they are bound, the frame of `this` lies between the body and the
environment. -/
def Closure.MethodMatch (layout : Layout) (wide narrow : Closure) : Prop :=
  ∃ cutoff : Cutoff, MatchAt note layout cutoff cutoff.inner.inner wide narrow

/-- Two method tables match: they have matching methods under the same names. -/
def MethodsMatch (layout : Layout) (wide narrow : NameMap Closure) : Prop :=
  ∀ name, Option.Rel (Closure.MethodMatch note layout) (wide.get? name) (narrow.get? name)

/-- Two classes match: they have the same name and matching methods. -/
structure ClassDef.Match (layout : Layout) (wide narrow : ClassDef) : Prop where
  name : wide.name = narrow.name
  methods : MethodsMatch note layout wide.methods narrow.methods

/-- Two tables match entry by entry. -/
structure TablesMatch {α : Type} (entries : α → α → Prop) (wide narrow : Array α) : Prop where
  size : wide.size = narrow.size
  entry : ∀ i : Nat, Option.Rel entries wide[i]? narrow[i]?

/-- **Two machines match**: they show and hold the same, and all that a program can reach on the
one it can reach on the other. -/
structure Machine.Match (layout : Layout) (wide narrow : Machine) : Prop where
  frames : Frames.Match layout wide.heap.frames narrow.heap.frames
  functions : TablesMatch (Closure.Match note layout) wide.heap.functions narrow.heap.functions
  classes : TablesMatch (ClassDef.Match note layout) wide.heap.classes narrow.heap.classes
  natives : wide.heap.natives = narrow.heap.natives
  instances : wide.heap.instances = narrow.heap.instances
  output : wide.output = narrow.output
  clock : wide.clock = narrow.clock
  ticks : wide.ticks = narrow.ticks

/-- **The same reason to stop**, with the spare frame counted where an error tells a number of
frames. -/
inductive Stop.Match : Stop → Stop → Prop where
  | error {e e' : RuntimeError} (h : e.Match e') : Match (.error e) (.error e')
  | tooDeep : Match .tooDeep .tooDeep
  | tooLong : Match .tooLong .tooLong

variable {note} {layout layout' layout'' : Layout}

theorem rel_imp {α : Type} {R S : α → α → Prop} {a a' : Option α} (h : Option.Rel R a a')
    (hi : ∀ x y, R x y → S x y) : Option.Rel S a a' := by
  cases h with
  | none => exact .none
  | some h => exact .some (hi _ _ h)

theorem rel_map {α β : Type} {R : α → α → Prop} {S : β → β → Prop} {f f' : α → β}
    {a a' : Option α} (h : Option.Rel R a a') (hf : ∀ x y, R x y → S (f x) (f' y)) :
    Option.Rel S (a.map f) (a'.map f') := by
  cases h with
  | none => exact .none
  | some h => exact .some (hf _ _ h)

theorem TablesMatch.imp {α : Type} {entries entries' : α → α → Prop} {wide narrow : Array α}
    (h : TablesMatch entries wide narrow) (hi : ∀ a a', entries a a' → entries' a a') :
    TablesMatch entries' wide narrow :=
  ⟨h.size, fun i => rel_imp (h.entry i) hi⟩

/-- Matching tables match with matching entries behind them. -/
theorem TablesMatch.push {α : Type} {entries : α → α → Prop} {wide narrow : Array α} {a a' : α}
    (h : TablesMatch entries wide narrow) (ha : entries a a') :
    TablesMatch entries (wide.push a) (narrow.push a') where
  size := by simp [h.size]
  entry i := by
    rw [Array.getElem?_push, Array.getElem?_push, h.size]
    split
    · exact .some ha
    · exact h.entry i

/-- Functions that match go on to match when frames are added. -/
theorem Closure.MatchAt.mono {outside inside : Cutoff} {wide narrow : Closure}
    (h : MatchAt note layout outside inside wide narrow) (he : layout.Extends layout') :
    MatchAt note layout' outside inside wide narrow :=
  { h with environment := h.environment.mono he }

/-- Matching tables of methods match with one more method in each. -/
theorem MethodsMatch.insert {table table' : NameMap Closure} {method method' : Closure}
    (h : MethodsMatch note layout table table')
    (hm : Closure.MethodMatch note layout method method') (name : String) :
    MethodsMatch note layout (table.insert name method) (table'.insert name method') := by
  intro other
  rw [NameMap.get?_insert, NameMap.get?_insert]
  split
  · exact .some hm
  · exact h other

theorem ClassDef.Match.mono {wide narrow : ClassDef} (h : Match note layout wide narrow)
    (he : layout.Extends layout') : Match note layout' wide narrow where
  name := h.name
  methods name := rel_imp (h.methods name) fun _ _ ⟨cutoff, hm⟩ => ⟨cutoff, hm.mono he⟩

/-- A class takes as many arguments as the class that it matches. -/
theorem ClassDef.Match.arity {wide narrow : ClassDef} (h : Match note layout wide narrow) :
    wide.arity = narrow.arity := by
  have hm := h.methods "init"
  unfold ClassDef.arity ClassDef.initializer?
  generalize wide.methods.get? "init" = method at hm ⊢
  generalize narrow.methods.get? "init" = method' at hm ⊢
  cases hm with
  | none => rfl
  | some hm =>
    obtain ⟨_, hm⟩ := hm
    exact congrArg List.length hm.params

namespace Machine

variable {wide narrow wide' narrow' wide'' narrow'' : Machine}

/-- Machines go on to match when the layout comes to have more frames. -/
theorem Match.grow (h : Match note layout wide narrow) (he : layout.Extends layout')
    {frames frames' : Frames} (hf : Frames.Match layout' frames frames') :
    Match note layout' { wide with heap := { wide.heap with frames := frames } }
      { narrow with heap := { narrow.heap with frames := frames' } } :=
  { h with
    frames := hf
    functions := h.functions.imp fun _ _ ⟨cutoff, hc, hi⟩ => ⟨cutoff, hc.mono he, hi⟩
    classes := h.classes.imp fun _ _ hc => hc.mono he }

/-- **Where a step leads**: the machines match, in a layout with more frames perhaps, and are
back in their environments. -/
structure After (note : Nat → List Scope → List Scope) (layout : Layout) (wide narrow : Machine)
    (layout' : Layout) (wide' narrow' : Machine) : Prop where
  extended : layout.Extends layout'
  matched : Match note layout' wide' narrow'
  wide : wide'.environment = wide.environment
  narrow : narrow'.environment = narrow.environment

/-- One run after the other, on both sides. -/
theorem After.trans (h : After note layout wide narrow layout' wide' narrow')
    (h' : After note layout' wide' narrow' layout'' wide'' narrow'') :
    After note layout wide narrow layout'' wide'' narrow'' :=
  ⟨h.extended.trans h'.extended, h'.matched, h'.wide.trans h.wide, h'.narrow.trans h.narrow⟩

end Machine

/-! ## Mirroring steps -/

namespace Eval

variable {α α' β β' : Type} {cutoff : Cutoff}

/-- **One step mirrors another.**  From matching machines whose environments have a spare frame at
the cutoff, both give related values or both stop for the same reason. -/
def Mirrors (note : Nat → List Scope → List Scope) (layout : Layout) (cutoff : Cutoff)
    (values : Layout → α → α' → Prop) (step : Eval α) (step' : Eval α') : Prop :=
  ∀ wide narrow : Machine, layout.Chains cutoff wide.environment.chain narrow.environment.chain →
    Machine.Match note layout wide narrow →
      EndsAlike
        (fun a wide' a' narrow' => ∃ layout',
          Machine.After note layout wide narrow layout' wide' narrow' ∧ values layout' a a')
        (fun stop wide' stop' narrow' => ∃ layout',
          Machine.After note layout wide narrow layout' wide' narrow' ∧ stop.Match stop')
        (step wide) (step' narrow)

/-- The same value on both sides. -/
def Same : Layout → α → α → Prop := fun _ a a' => a = a'

variable {values : Layout → α → α' → Prop} {ends : Layout → β → β' → Prop}
  {step : Eval α} {step' : Eval α'} {next : α → Eval β} {next' : α' → Eval β'}

/-- **Mirroring steps one after the other.** -/
theorem Mirrors.bind (h : Mirrors note layout cutoff values step step')
    (hn : ∀ layout' a a', layout.Extends layout' → values layout' a a' →
      Mirrors note layout' cutoff ends (next a) (next' a')) :
    Mirrors note layout cutoff ends (step >>= next) (step' >>= next') := by
  intro wide narrow hc hm
  refine (h wide narrow hc hm).bind ?_
  rintro a wide' a' narrow' ⟨layout', ha, hv⟩
  -- the environments are back, so the chains are as they were
  have hc' : layout'.Chains cutoff wide'.environment.chain narrow'.environment.chain := by
    rw [ha.wide, ha.narrow]
    exact hc.mono ha.extended
  refine (hn layout' a a' ha.extended hv wide' narrow' hc' ha.matched).imp ?_ ?_
  · rintro b wide'' b' narrow'' ⟨layout'', ha', hv'⟩
    exact ⟨layout'', ha.trans ha', hv'⟩
  · rintro stop wide'' stop' narrow'' ⟨layout'', ha', hs⟩
    exact ⟨layout'', ha.trans ha', hs⟩

/-- Steps that mirror each other do so when less is asked of their results. -/
theorem Mirrors.imp {values' : Layout → α → α' → Prop}
    (h : Mirrors note layout cutoff values step step')
    (hv : ∀ layout' a a', values layout' a a' → values' layout' a a') :
    Mirrors note layout cutoff values' step step' :=
  fun wide narrow hc hm => (h wide narrow hc hm).imp
    (fun _ _ _ _ ⟨layout', ha, h⟩ => ⟨layout', ha, hv _ _ _ h⟩) fun _ _ _ _ h => h

/-- A step with the same value on both sides, and what comes after it. -/
theorem Mirrors.andThen {step step' : Eval α} {next : α → Eval β} {next' : α → Eval β'}
    (h : Mirrors note layout cutoff Same step step')
    (hn : ∀ layout' a, layout.Extends layout' →
      Mirrors note layout' cutoff ends (next a) (next' a)) :
    Mirrors note layout cutoff ends (step >>= next) (step' >>= next') :=
  h.bind fun layout' a _ he ha => ha ▸ hn layout' a he

/-- A step on the wide side that is done after its first part. -/
theorem Mirrors.of_bind_pure (h : Mirrors note layout cutoff values (step >>= pure) step') :
    Mirrors note layout cutoff values step step' := by
  rwa [bind_pure] at h

/-- A step on the narrow side that is done after its first part. -/
theorem Mirrors.of_pure_bind (h : Mirrors note layout cutoff values step (step' >>= pure)) :
    Mirrors note layout cutoff values step step' := by
  rwa [bind_pure] at h

theorem mirrors_pure {a : α} {a' : α'} (h : values layout a a') :
    Mirrors note layout cutoff values (pure a) (pure a') :=
  fun _ _ _ hm => .ok ⟨layout, ⟨.refl _, hm, rfl, rfl⟩, h⟩

theorem mirrors_throw {stop stop' : Stop} (h : stop.Match stop') :
    Mirrors note layout cutoff values (throw stop) (throw stop') :=
  fun _ _ _ hm => .error ⟨layout, ⟨.refl _, hm, rfl, rfl⟩, h⟩

theorem mirrors_fail (e : RuntimeError) :
    Mirrors note layout cutoff values (fail e) (fail e) :=
  mirrors_throw (.error (.refl e))

/-- A computation that does not touch the machine is mirrored by itself. -/
theorem mirrors_ofExcept (result : Except RuntimeError α) :
    Mirrors note layout cutoff Same (ofExcept result) (ofExcept result) := by
  cases result with
  | ok a => exact mirrors_pure rfl
  | error e => exact mirrors_fail e

/-- The environment is looked at. -/
theorem mirrors_environment {next : Environment → Eval β} {next' : Environment → Eval β'}
    (h : ∀ env env', layout.Chains cutoff env.chain env'.chain →
      Mirrors note layout cutoff ends (next env) (next' env')) :
    Mirrors note layout cutoff ends (environment >>= next) (environment >>= next') :=
  fun wide narrow hc hm => h _ _ hc wide narrow hc hm

/-- The machine is looked at. -/
theorem mirrors_get {next : Machine → Eval β} {next' : Machine → Eval β'}
    (h : ∀ wide narrow, Machine.Match note layout wide narrow →
      Mirrors note layout cutoff ends (next wide) (next' narrow)) :
    Mirrors note layout cutoff ends (get >>= next) (get >>= next') :=
  fun wide narrow hc hm => h wide narrow hm wide narrow hc hm

/-- An operation on the frames. -/
theorem mirrors_onFrames {values : α → α' → Prop} {op : FrameM α} {op' : FrameM α'}
    (h : Frames.Alike layout values op op') :
    Mirrors note layout cutoff (fun _ => values) (onFrames op) (onFrames op') := by
  intro wide narrow _ hm
  have ho := h _ _ hm.frames
  unfold onFrames
  dsimp only
  generalize op wide.heap.frames = r at ho ⊢
  generalize op' narrow.heap.frames = r' at ho ⊢
  cases ho with
  | ok ho => exact .ok ⟨layout, ⟨.refl _, hm.grow (.refl _) ho.2, rfl, rfl⟩, ho.1⟩
  | error ho => exact .error ⟨layout, ⟨.refl _, hm.grow (.refl _) ho.2, rfl, rfl⟩, .error ho.1⟩

/-- **A new frame on both sides.** -/
theorem mirrors_pushFrame {inside : Cutoff} {env env' : Environment}
    (hc : layout.Chains inside env.chain env'.chain) :
    Mirrors note layout cutoff
      (fun layout' env env' => layout'.Chains inside.inner env.chain env'.chain)
      (onHeap (·.pushFrame env)) (onHeap (·.pushFrame env')) := by
  intro wide narrow _ hm
  have he := layout.extends_keep wide.heap.frames.next
  have hp := layout.pairs_keep wide.heap.frames.next
  rw [hm.frames.kept] at hp
  exact .ok ⟨_, ⟨he, hm.grow he hm.frames.push, rfl, rfl⟩, .kept hp (hc.mono he)⟩

/-- Both sides put a function on the heap, under one handle. -/
theorem mirrors_addFunction {closure closure' : Closure}
    (h : Closure.Match note layout closure closure') :
    Mirrors note layout cutoff Same (onHeap (·.addFunction closure))
      (onHeap (·.addFunction closure')) := by
  intro wide narrow _ hm
  obtain ⟨_, hc, -⟩ := id h
  refine .ok ⟨layout, ⟨.refl _, { hm with functions := hm.functions.push h }, rfl, rfl⟩, ?_⟩
  exact congrArg Value.function (congr (congrArg Handle.mk hc.name) hm.functions.size)

/-- Both sides put a class on the heap, under one handle. -/
theorem mirrors_addClass {cls cls' : ClassDef} (h : ClassDef.Match note layout cls cls') :
    Mirrors note layout cutoff Same (onHeap (·.addClass cls)) (onHeap (·.addClass cls')) := by
  intro wide narrow _ hm
  refine .ok ⟨layout, ⟨.refl _, { hm with classes := hm.classes.push h }, rfl, rfl⟩, ?_⟩
  exact congrArg Value.class (congr (congrArg Handle.mk h.name) hm.classes.size)

theorem mirrors_addInstance (handle : Handle) :
    Mirrors note layout cutoff Same (onHeap (·.addInstance handle))
      (onHeap (·.addInstance handle)) := by
  intro wide narrow _ hm
  refine .ok ⟨layout, ⟨.refl _, { hm with instances := ?_ }, rfl, rfl⟩, ?_⟩
  · exact congrArg (Array.push · _) hm.instances
  · exact congrArg (fun table : Array Instance => Value.instance ⟨handle.label, table.size⟩)
      hm.instances

/-- Both sides set a field of the same instance. -/
theorem mirrors_setField (index : Nat) (name : String) (value : Value) :
    Mirrors note layout cutoff Same (onHeap fun heap => ((), heap.setField index name value))
      (onHeap fun heap => ((), heap.setField index name value)) := by
  intro wide narrow _ hm
  refine .ok ⟨layout, ⟨.refl _, { hm with instances := ?_ }, rfl, rfl⟩, rfl⟩
  simp only [Heap.setField, hm.instances]

theorem mirrors_print (line : String) :
    Mirrors note layout cutoff Same (print line) (print line) := by
  intro wide narrow _ hm
  refine .ok ⟨layout, ⟨.refl _, { hm with output := ?_ }, rfl, rfl⟩, rfl⟩
  exact congrArg (Array.push · line) hm.output

theorem mirrors_tick : Mirrors note layout cutoff Same tick tick := by
  intro wide narrow _ hm
  refine .ok ⟨layout, ⟨.refl _, { hm with ticks := ?_ }, rfl, rfl⟩, hm.ticks⟩
  exact congrArg (· + 1) hm.ticks

/-- **Mirroring steps in other environments.** -/
theorem Mirrors.inEnvironment {inside : Cutoff} {env env' : Environment}
    (h : Mirrors note layout inside values step step')
    (hc : layout.Chains inside env.chain env'.chain) :
    Mirrors note layout cutoff values (inEnvironment env step) (inEnvironment env' step') := by
  intro wide narrow _ hm
  have hs := h { wide with environment := env } { narrow with environment := env' } hc { hm with }
  unfold Eval.inEnvironment
  dsimp only
  generalize step { wide with environment := env } = r at hs ⊢
  generalize step' { narrow with environment := env' } = r' at hs ⊢
  cases hs with
  | ok hs =>
    obtain ⟨layout', ha, hv⟩ := hs
    exact .ok ⟨layout', ⟨ha.extended, { ha.matched with }, rfl, rfl⟩, hv⟩
  | error hs =>
    obtain ⟨layout', ha, hv⟩ := hs
    exact .error ⟨layout', ⟨ha.extended, { ha.matched with }, rfl, rfl⟩, hv⟩

/-- A step in a new frame inside the current environment. -/
def inNewFrame (step : Eval α) : Eval α := do
  let env ← onHeap (·.pushFrame (← environment))
  Eval.inEnvironment env step

/-- **Mirroring steps, each in a new frame.** -/
theorem Mirrors.inNewFrame
    (h : ∀ layout', layout.Extends layout' →
      Mirrors note layout' cutoff.inner values step step') :
    Mirrors note layout cutoff values (inNewFrame step) (inNewFrame step') :=
  mirrors_environment fun _ _ hc => (mirrors_pushFrame hc).bind fun layout' _ _ he hc' =>
    (h layout' he).inEnvironment hc'

/-- **A step in a spare frame** mirrors the step without it. -/
theorem Mirrors.inSpareFrame
    (h : ∀ layout', layout.Extends layout' → Mirrors note layout' (some 0) values step step') :
    Mirrors note layout none values (Eval.inNewFrame step) step' := by
  intro wide narrow hc hm
  have he := layout.extends_leaveOut wide.heap.frames.next
  have hm' := hm.grow he hm.frames.pushSpare
  have hs := h _ he
    { wide with
      heap := (wide.heap.pushFrame wide.environment).2
      environment := (wide.heap.pushFrame wide.environment).1 }
    narrow (.spare (List.mem_append_right _ List.mem_cons_self) (hc.mono he)) { hm' with }
  change EndsAlike _ _
    (Eval.inEnvironment (wide.heap.pushFrame wide.environment).1 step
      { wide with heap := (wide.heap.pushFrame wide.environment).2 }) _
  unfold Eval.inEnvironment
  dsimp only at hs ⊢
  generalize step _ = r at hs ⊢
  generalize step' narrow = r' at hs ⊢
  cases hs with
  | ok hs =>
    obtain ⟨layout', ha, hv⟩ := hs
    exact .ok ⟨layout', ⟨he.trans ha.extended, { ha.matched with }, rfl, ha.narrow⟩, hv⟩
  | error hs =>
    obtain ⟨layout', ha, hv⟩ := hs
    exact .error ⟨layout', ⟨he.trans ha.extended, { ha.matched with }, rfl, ha.narrow⟩, hv⟩

/-! ## Variables and properties -/

/-- **A variable is looked up** with its widened number. -/
theorem mirrors_lookup (name : Token) (hops : Option Int) :
    Mirrors note layout cutoff Same (lookup name (hops.map cutoff.hops)) (lookup name hops) := by
  cases hops with
  | none =>
    exact fun wide narrow hc hm => mirrors_onFrames
      (Frames.alike_getValue (.kept_none hm.frames.global .nil) name) wide narrow hc hm
  | some distance =>
    exact mirrors_environment fun env env' hc =>
      mirrors_onFrames (Frames.alike_getAt hc distance name)

/-- **A variable is assigned** with its widened number. -/
theorem mirrors_assign (name : Token) (hops : Option Int) (value : Value) :
    Mirrors note layout cutoff Same (assign name (hops.map cutoff.hops) value)
      (assign name hops value) := by
  cases hops with
  | none =>
    exact fun wide narrow hc hm => mirrors_onFrames
      (Frames.alike_assign (.kept_none hm.frames.global .nil) name value) wide narrow hc hm
  | some distance =>
    exact mirrors_environment fun env env' hc =>
      mirrors_onFrames (Frames.alike_assignAt hc distance name value)

/-- **A name is bound** in the current frame, which is not spare. -/
theorem mirrors_define (h : cutoff ≠ some 0) (name : Token) (value : Value) :
    Mirrors note layout cutoff Same (define name value) (define name value) :=
  mirrors_environment fun _ _ hc => mirrors_onFrames (Frames.alike_define hc h name value)

/-- A method that is bound is a function inside the frame of `this`. -/
theorem mirrors_bindMethod {method method' : Closure}
    (h : Closure.MethodMatch note layout method method') (object : Value) :
    Mirrors note layout cutoff (Closure.Match note) (bindMethod method object)
      (bindMethod method' object) := by
  obtain ⟨inside, h⟩ := h
  refine (mirrors_pushFrame h.environment).bind fun layout' env env' he hc => ?_
  refine (mirrors_onFrames (Frames.alike_define hc (Cutoff.inner_ne _) _ object)).bind
    fun layout'' _ _ he' _ => mirrors_pure ⟨inside.inner, ?_, fun _ => Cutoff.inner_ne _⟩
  exact { h with environment := hc.mono he' }

theorem mirrors_instance? (value : Value) :
    Mirrors note layout cutoff Same (instance? value) (instance? value) := by
  cases value with
  | «instance» handle =>
    refine mirrors_get fun wide narrow hm => mirrors_pure ?_
    rw [Same, hm.instances]
  | _ => exact mirrors_pure rfl

/-- A method is found in matching classes. -/
theorem method?_match {wide narrow : Machine} (hm : Machine.Match note layout wide narrow)
    (target : Instance) (name : String) :
    Option.Rel (Closure.MethodMatch note layout) (wide.heap.method? target name)
      (narrow.heap.method? target name) := by
  have hc := hm.classes.entry target.classIndex
  unfold Heap.method?
  generalize wide.heap.classes[target.classIndex]? = cls at hc ⊢
  generalize narrow.heap.classes[target.classIndex]? = cls' at hc ⊢
  cases hc with
  | none => exact .none
  | some hc => exact hc.methods name

/-- Both sides read a property alike, and a method is bound on both. -/
theorem mirrors_property (object : Value) (name : Token) :
    Mirrors note layout cutoff Same (property object name) (property object name) := by
  refine (mirrors_instance? object).andThen fun layout' target _ => ?_
  cases target with
  | none => exact mirrors_fail _
  | some target =>
    obtain ⟨index, target⟩ := target
    dsimp only
    cases target.fields.get? name.lexeme with
    | some value => exact mirrors_pure rfl
    | none =>
      refine mirrors_get fun wide narrow hm => ?_
      have hf := method?_match hm target name.lexeme
      generalize wide.heap.method? target name.lexeme = method at hf ⊢
      generalize narrow.heap.method? target name.lexeme = method' at hf ⊢
      cases hf with
      | none => exact mirrors_fail _
      | some hf =>
        exact (mirrors_bindMethod hf object).bind fun _ _ _ _ hb => mirrors_addFunction hb

/-! ## Sequences and loops -/

/-- Steps in a row mirror each other if each of them does. -/
theorem mirrors_mapM {run run' : α → Eval β} {f : α → α} (as : List α)
    (h : ∀ layout', layout.Extends layout' →
      ∀ a ∈ as, Mirrors note layout' cutoff Same (run (f a)) (run' a)) :
    Mirrors note layout cutoff Same ((as.map f).mapM run) (as.mapM run') := by
  induction as generalizing layout with
  | nil => exact mirrors_pure rfl
  | cons a as ih =>
    rw [List.map_cons, List.mapM_cons, List.mapM_cons]
    refine (h layout (.refl _) a List.mem_cons_self).andThen fun layout' b he => ?_
    refine (ih fun layout'' he' a ha => h layout'' (he.trans he') a (List.mem_cons_of_mem _ ha))
      |>.andThen fun layout'' bs _ => mirrors_pure rfl

/-- Both sides bind parameters in matching frames. -/
theorem mirrors_bindParameters {inside : Cutoff} {env env' : Environment}
    (hc : layout.Chains inside env.chain env'.chain) (h : inside ≠ some 0) (params : List Token)
    (args : List Value) :
    Mirrors note layout cutoff Same (bindParameters env params args)
      (bindParameters env' params args) := by
  induction params generalizing layout args with
  | nil => exact mirrors_pure rfl
  | cons param params ih =>
    cases args with
    | nil => exact mirrors_pure rfl
    | cons arg args =>
      exact (mirrors_onFrames (Frames.alike_define hc h param arg)).bind
        fun layout' _ _ he _ => ih (hc.mono he) args

/-- Both sides run a native function on the same clock. -/
theorem mirrors_runNative (native : Native) (args : List Value) :
    Mirrors note layout cutoff Same (runNative native args) (runNative native args) := by
  unfold runNative
  cases native.action with
  | clock =>
    refine mirrors_tick.andThen fun layout' tick _ => mirrors_get fun wide narrow hm =>
      mirrors_pure ?_
    rw [Same, hm.clock]
  | collect => exact mirrors_pure rfl

/-- Two callables match. -/
inductive CallableMatch (note : Nat → List Scope → List Scope) (layout : Layout) :
    Callable → Callable → Prop where
  | function {closure closure' : Closure} (h : Closure.Match note layout closure closure') :
      CallableMatch note layout (.function closure) (.function closure')
  | native (code : Native) : CallableMatch note layout (.native code) (.native code)
  | class (handle : Handle) {cls cls' : ClassDef} (h : ClassDef.Match note layout cls cls') :
      CallableMatch note layout (.class handle cls) (.class handle cls')

/-- A value can be called as the same on matching machines. -/
theorem callable?_match {wide narrow : Machine} (hm : Machine.Match note layout wide narrow)
    (callee : Value) :
    Option.Rel (CallableMatch note layout) (wide.heap.callable? callee)
      (narrow.heap.callable? callee) := by
  cases callee with
  | function handle => exact rel_map (hm.functions.entry handle.index) fun _ _ h => .function h
  | native handle =>
    simp only [Heap.callable?, hm.natives]
    cases narrow.heap.natives[handle.index]? with
    | none => exact .none
    | some code => exact .some (.native code)
  | «class» handle => exact rel_map (hm.classes.entry handle.index) fun _ _ h => .class handle h
  | _ => exact .none

/-- Callables that match take as many arguments as each other. -/
theorem CallableMatch.arity {callable callable' : Callable}
    (h : CallableMatch note layout callable callable') : callable.arity = callable'.arity := by
  cases h with
  | function h =>
    obtain ⟨_, h, -⟩ := h
    exact congrArg (fun params : List Token => (params.length : Int)) h.params
  | native code => rfl
  | «class» handle h => exact congrArg Int.ofNat h.arity

section

variable {run : Stmt → Eval Outcome}
  (hrun : ∀ layout cutoff s, (cutoff = some 0 → s.Bindless) →
    Mirrors note layout cutoff Same (run (s.widen note cutoff)) (run s))

include hrun

/-- **Statements in order.** -/
theorem mirrors_runStatements (ss : List Stmt) (h : cutoff = some 0 → ∀ s ∈ ss, s.Bindless) :
    Mirrors note layout cutoff Same (runStatements run (Stmt.widenAll note cutoff ss))
      (runStatements run ss) := by
  induction ss generalizing layout with
  | nil =>
    rw [Stmt.widenAll]
    exact mirrors_pure rfl
  | cons s ss ih =>
    rw [Stmt.widenAll]
    refine (hrun layout cutoff s fun hc => h hc s List.mem_cons_self).andThen
      fun layout' outcome _ => ?_
    cases outcome with
    | returned value => exact mirrors_pure rfl
    | normal value => exact ih fun hc s hs => h hc s (List.mem_cons_of_mem _ hs)

/-- **A function is called.** -/
theorem mirrors_invoke {closure closure' : Closure}
    (h : Closure.Match note layout closure closure') (args : List Value) :
    Mirrors note layout cutoff Same (invoke run closure args) (invoke run closure' args) := by
  obtain ⟨outside, h, hi⟩ := h
  unfold invoke
  rw [h.params, h.body, h.initializer]
  refine (mirrors_pushFrame h.environment).bind fun layout' env env' he hc => ?_
  refine (mirrors_bindParameters hc (Cutoff.inner_ne _) closure'.params args).andThen
    fun layout'' _ he' => ?_
  refine ((mirrors_runStatements hrun closure'.body fun hi => absurd hi (Cutoff.inner_ne _))
    |>.inEnvironment (hc.mono he')).andThen fun layout₃ outcome he'' => ?_
  split
  · rename_i hinit
    have hc' := h.environment.mono ((he.trans he').trans he'')
    have hthis := Frames.alike_getAt hc' 0 (.ident "this" 0)
    rw [Cutoff.hops_zero (hi hinit)] at hthis
    exact mirrors_onFrames hthis
  · cases outcome with
    | returned value => exact mirrors_pure rfl
    | normal value => exact mirrors_pure rfl

/-- **A class is called.** -/
theorem mirrors_construct (handle : Handle) {cls cls' : ClassDef}
    (h : ClassDef.Match note layout cls cls') (args : List Value) :
    Mirrors note layout cutoff Same (construct run handle cls args)
      (construct run handle cls' args) := by
  refine (mirrors_addInstance handle).andThen fun layout' object he => ?_
  have hm := (h.mono he).methods "init"
  unfold ClassDef.initializer?
  generalize cls.methods.get? "init" = method at hm ⊢
  generalize cls'.methods.get? "init" = method' at hm ⊢
  cases hm with
  | none => exact mirrors_pure rfl
  | some hm =>
    exact (mirrors_bindMethod hm object).bind fun _ bound bound' _ hb =>
      (mirrors_invoke hrun hb args).andThen fun _ _ _ => mirrors_pure rfl

/-- **A value is called.** -/
theorem mirrors_apply (callee : Value) (paren : Token) (args : List Value) :
    Mirrors note layout cutoff Same (apply run callee paren args)
      (apply run callee paren args) := by
  refine mirrors_get fun wide narrow hm => ?_
  have hc := callable?_match hm callee
  generalize wide.heap.callable? callee = callable at hc ⊢
  generalize narrow.heap.callable? callee = callable' at hc ⊢
  cases hc with
  | none => exact mirrors_fail _
  | some hc =>
    dsimp only
    rw [hc.arity]
    split
    · exact mirrors_fail _
    · cases hc with
      | function hf => exact mirrors_invoke hrun hf args
      | native code => exact mirrors_runNative code args
      | «class» handle hc => exact mirrors_construct hrun handle hc args

end

/-! ## Functions and classes -/

/-- A function that is made in the current environment. -/
theorem mirrors_closure (name : String) (params : List Token) (body : List Stmt) :
    Mirrors note layout cutoff Same (closure name params (Stmt.widenAll note cutoff.inner body))
      (closure name params body) :=
  mirrors_environment fun _ _ hc =>
    mirrors_addFunction ⟨cutoff, ⟨rfl, rfl, rfl, hc, rfl⟩, fun hi => by cases hi⟩

/-- The methods of a class that is declared in matching environments match. -/
theorem methodTable_match {env env' : Environment}
    (hc : layout.Chains cutoff env.chain env'.chain) (methods : List FunctionDecl) :
    MethodsMatch note layout (methodTable env (FunctionDecl.widenAll note cutoff.inner methods))
      (methodTable env' methods) := by
  -- the two tables are filled side by side, and match after every method
  refine List.rel_foldl (P := MethodsMatch note layout)
    (R := fun f f' => f = FunctionDecl.widen note cutoff.inner f') ?_ (fun _ => .none) ?_
  · rintro table table' h _ ⟨name, params, body⟩ rfl
    refine h.insert ⟨cutoff, ?_⟩ name.lexeme
    exact ⟨rfl, rfl, rfl, hc, rfl⟩
  · rw [FunctionDecl.widenAll_eq_map, List.forall₂_map_left_iff]
    exact List.forall₂_same.2 fun _ _ => rfl

/-- **A class is declared.** -/
theorem mirrors_declareClass (h : cutoff ≠ some 0) (name : Token) (methods : List FunctionDecl) :
    Mirrors note layout cutoff Same
      (declareClass name (FunctionDecl.widenAll note cutoff.inner methods))
      (declareClass name methods) := by
  refine (mirrors_define h name .nil).andThen fun layout' _ _ =>
    mirrors_environment fun env env' hc => ?_
  have hcls : ClassDef.Match note layout'
      ⟨name.lexeme, methodTable env (FunctionDecl.widenAll note cutoff.inner methods)⟩
      ⟨name.lexeme, methodTable env' methods⟩ :=
    ⟨rfl, methodTable_match hc methods⟩
  exact (mirrors_addClass hcls).andThen fun layout'' cls he =>
    mirrors_onFrames (Frames.alike_assign (hc.mono he) name cls)

/-! ## Expressions and statements -/

/-- Two outcomes after which a loop goes the same way: both return the same value, or neither
returns. -/
inductive GoOn : Outcome → Outcome → Prop where
  | returned (value : Value) : GoOn (.returned value) (.returned value)
  | normal (value value' : Value) : GoOn (.normal value) (.normal value')

theorem GoOn.refl (outcome : Outcome) : GoOn outcome outcome := by
  cases outcome with
  | returned value => exact .returned value
  | normal value => exact .normal value value

/-- The outcomes of a loop: both return the same value, or both are done. -/
inductive LoopEnds : Outcome → Outcome → Prop where
  | returned (value : Value) : LoopEnds (.returned value) (.returned value)
  | done : LoopEnds .done .done

theorem LoopEnds.eq {outcome outcome' : Outcome} (h : LoopEnds outcome outcome') :
    outcome = outcome' := by
  cases h <;> rfl

/-- **A loop** whose condition and body mirror. -/
theorem mirrors_iterate {condition condition' : Eval Bool} {body body' : Eval Outcome}
    (hc : ∀ layout', layout.Extends layout' →
      Mirrors note layout' cutoff Same condition condition')
    (hb : ∀ layout', layout.Extends layout' →
      Mirrors note layout' cutoff (fun _ => GoOn) body body')
    (rounds : Nat) :
    Mirrors note layout cutoff (fun _ => LoopEnds) (iterate condition body rounds)
      (iterate condition' body' rounds) := by
  induction rounds generalizing layout with
  | zero => exact mirrors_throw .tooLong
  | succ rounds ih =>
    refine (hc layout (.refl _)).andThen fun layout' holds he => ?_
    split
    · refine (hb layout' he).bind fun layout'' outcome outcome' he' hg => ?_
      have he := he.trans he'
      cases hg with
      | returned value => exact mirrors_pure (.returned value)
      | normal value value' => exact ih (fun _ h => hc _ (he.trans h)) fun _ h => hb _ (he.trans h)
    · exact mirrors_pure .done

end Eval

open Eval

variable (rounds : Nat)

/-- Evaluation to a depth mirrors: expressions, and statements that may be evaluated where they
are. -/
structure MirrorsTo (note : Nat → List Scope → List Scope) (rounds depth : Nat) : Prop where
  expr : ∀ layout cutoff e,
    Mirrors note layout cutoff Same (eval rounds depth (e.widen note cutoff)) (eval rounds depth e)
  stmt : ∀ layout cutoff s, (cutoff = some 0 → s.Bindless) →
    Mirrors note layout cutoff Same (exec rounds depth (s.widen note cutoff)) (exec rounds depth s)

namespace MirrorsTo

variable {rounds} {depth : Nat} {cutoff : Cutoff}

/-- The truth of a condition. -/
theorem truth (ih : MirrorsTo note rounds depth) (layout : Layout) (cutoff : Cutoff) (e : Expr)
    (op : Option Token) :
    Mirrors note layout cutoff Same
      (do ofExcept ((← eval rounds depth (e.widen note cutoff)).truth op))
      (do ofExcept ((← eval rounds depth e).truth op)) :=
  (ih.expr layout cutoff e).andThen fun _ _ _ => mirrors_ofExcept _

/-- **An expression mirrors if its parts do.** -/
theorem expr_succ (ih : MirrorsTo note rounds depth) (layout : Layout) (cutoff : Cutoff)
    (e : Expr) :
    Mirrors note layout cutoff Same (eval rounds (depth + 1) (e.widen note cutoff))
      (eval rounds (depth + 1) e) := by
  cases e with
  | literal value =>
    rw [Expr.widen, eval]
    exact mirrors_pure rfl
  | «variable» name hops scopes =>
    rw [Expr.widen, eval, eval]
    exact mirrors_lookup name hops
  | assign name value hops scopes =>
    rw [Expr.widen, eval, eval]
    exact (ih.expr layout cutoff value).andThen fun _ value _ =>
      (mirrors_assign name hops value).andThen fun _ _ _ => mirrors_pure rfl
  | group inner =>
    rw [Expr.widen, eval, eval]
    exact ih.expr layout cutoff inner
  | unary op operand =>
    rw [Expr.widen, eval, eval]
    exact (ih.expr layout cutoff operand).andThen fun _ _ _ =>
      mirrors_tick.andThen fun _ _ _ => mirrors_ofExcept _
  | binary left op right =>
    rw [Expr.widen, eval, eval]
    exact (ih.expr layout cutoff left).andThen fun _ _ _ =>
      (ih.expr _ cutoff right).andThen fun _ _ _ =>
        mirrors_tick.andThen fun _ _ _ => mirrors_ofExcept _
  | logical left op right =>
    rw [Expr.widen, eval, eval]
    refine (ih.expr layout cutoff left).andThen fun layout' left he =>
      (mirrors_ofExcept _).andThen fun layout'' holds he' => ?_
    split
    · exact mirrors_pure rfl
    · exact (ih.expr _ cutoff right).andThen fun _ _ _ =>
        (mirrors_ofExcept _).andThen fun _ _ _ => mirrors_pure rfl
  | conditional condition whenTrue whenFalse =>
    rw [Expr.widen, eval, eval]
    refine (ih.expr layout cutoff condition).andThen fun _ _ _ =>
      (mirrors_ofExcept _).andThen fun layout' holds he => ?_
    split
    · exact ih.expr _ cutoff whenTrue
    · exact ih.expr _ cutoff whenFalse
  | sequence items =>
    rw [Expr.widen, eval, eval, Expr.widenAll_eq_map]
    exact (mirrors_mapM items fun _ _ e _ => ih.expr _ cutoff e).andThen
      fun _ _ _ => mirrors_pure rfl
  | call callee paren args =>
    rw [Expr.widen, eval, eval, Expr.widenAll_eq_map]
    exact (ih.expr layout cutoff callee).andThen fun _ callee _ =>
      (mirrors_mapM args fun _ _ e _ => ih.expr _ cutoff e).andThen fun _ args _ =>
        mirrors_apply ih.stmt callee paren args
  | lambda keyword params body =>
    rw [Expr.widen, eval, eval]
    exact mirrors_closure "anonymous" params body
  | get object name =>
    rw [Expr.widen, eval, eval]
    exact (ih.expr layout cutoff object).andThen fun _ object _ => mirrors_property object name
  | set object name value =>
    rw [Expr.widen, eval, eval]
    refine (ih.expr layout cutoff object).andThen fun _ object _ =>
      (mirrors_instance? object).andThen fun layout' target _ => ?_
    cases target with
    | none => exact mirrors_fail _
    | some target =>
      exact (ih.expr _ cutoff value).andThen fun _ value _ =>
        (mirrors_setField target.1 name.lexeme value).andThen fun _ _ _ => mirrors_pure rfl
  | this keyword hops scopes =>
    rw [Expr.widen, eval, eval]
    exact mirrors_lookup _ hops

/-- **A statement mirrors if its parts do.** -/
theorem stmt_succ (ih : MirrorsTo note rounds depth) (layout : Layout) (cutoff : Cutoff)
    (s : Stmt) (h : cutoff = some 0 → s.Bindless) :
    Mirrors note layout cutoff Same (exec rounds (depth + 1) (s.widen note cutoff))
      (exec rounds (depth + 1) s) := by
  cases s with
  | expression inner =>
    rw [Stmt.widen, exec, exec]
    exact (ih.expr layout cutoff inner).andThen fun _ _ _ => mirrors_pure rfl
  | print inner =>
    rw [Stmt.widen, exec, exec]
    exact (ih.expr layout cutoff inner).andThen fun _ value _ =>
      (mirrors_print value.text).andThen fun _ _ _ => mirrors_pure rfl
  | var name initializer =>
    cases initializer with
    | none =>
      rw [Stmt.widen, Expr.widen?, exec]
      exact (mirrors_define h name .nil).andThen fun _ _ _ => mirrors_pure rfl
    | some initializer =>
      rw [Stmt.widen, Expr.widen?, exec, exec]
      exact (ih.expr layout cutoff initializer).andThen fun _ value _ =>
        (mirrors_define h name value).andThen fun _ _ _ => mirrors_pure rfl
  | block statements =>
    rw [Stmt.widen, exec, exec]
    -- the frame of the block lies inside the spare one, on both sides
    exact Mirrors.inNewFrame fun _ _ =>
      mirrors_runStatements ih.stmt statements fun hi => absurd hi (Cutoff.inner_ne _)
  | branch condition whenTrue whenFalse =>
    cases whenFalse with
    | none =>
      rw [Stmt.widen, Stmt.widen?, exec, exec]
      refine (ih.expr layout cutoff condition).andThen fun _ _ _ =>
        (mirrors_ofExcept _).andThen fun layout' holds he => ?_
      split
      · exact ih.stmt _ cutoff whenTrue fun hc => (h hc).1
      · exact mirrors_pure rfl
    | some whenFalse =>
      rw [Stmt.widen, Stmt.widen?, exec, exec]
      refine (ih.expr layout cutoff condition).andThen fun _ _ _ =>
        (mirrors_ofExcept _).andThen fun layout' holds he => ?_
      split
      · exact ih.stmt _ cutoff whenTrue fun hc => (h hc).1
      · exact ih.stmt _ cutoff whenFalse fun hc => (h hc).2
  | loop condition body =>
    rw [Stmt.widen, exec, exec]
    refine (mirrors_iterate (fun _ _ => ih.truth _ cutoff condition none) (fun _ _ => ?_)
      rounds).imp fun _ _ _ ho => ho.eq
    exact (ih.stmt _ cutoff body h).imp fun _ _ _ ho => ho ▸ .refl _
  | function decl =>
    obtain ⟨name, params, body⟩ := decl
    rw [Stmt.widen, FunctionDecl.widen, exec, exec]
    exact (mirrors_closure name.lexeme params body).andThen fun _ value _ =>
      (mirrors_define h name value).andThen fun _ _ _ => mirrors_pure rfl
  | «return» keyword value =>
    cases value with
    | none =>
      rw [Stmt.widen, Expr.widen?, exec]
      exact mirrors_pure rfl
    | some value =>
      rw [Stmt.widen, Expr.widen?, exec, exec]
      exact (ih.expr layout cutoff value).andThen fun _ _ _ => mirrors_pure rfl
  | «class» name methods =>
    rw [Stmt.widen, exec, exec]
    exact (mirrors_declareClass h name methods).andThen fun _ _ _ => mirrors_pure rfl

end MirrorsTo

/-- **Evaluating a widened tree mirrors evaluating the tree.** -/
theorem mirrorsTo (note : Nat → List Scope → List Scope) (rounds depth : Nat) :
    MirrorsTo note rounds depth := by
  induction depth with
  | zero =>
    constructor
    · intro layout cutoff e
      rw [eval, eval]
      exact mirrors_throw .tooDeep
    · intro layout cutoff s _
      rw [exec, exec]
      exact mirrors_throw .tooDeep
  | succ depth ih => exact ⟨ih.expr_succ, ih.stmt_succ⟩

end ScopedScript

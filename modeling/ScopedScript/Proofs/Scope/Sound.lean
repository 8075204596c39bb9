import ScopedScript.Proofs.Operators
import ScopedScript.Proofs.Restore
import ScopedScript.Proofs.Scope.Frames

/-!
# Heaps whose functions are where they were declared

A function outlives the block it was declared in, and is called from anywhere.  What it needs
is kept on the heap: an environment whose frames stand for the scopes around the declaration.
A heap is sound if this holds of every function and every method on it.  This module says what
each action of evaluation does to such a heap: it stays sound, frames only grow, and what is
raised is never a defect.  The two actions that look a variable up are left out, since they may
raise one.

## Main definitions

* `Closure.Sound`, `Closure.SoundMethod`, `Heap.Sound`: functions and methods in place.
* `Machine.Grows`: what every action does to the machine.
* `Harmless`: an action that keeps a machine in order and raises no defect.

## Main results

* `harmless_define`, `harmless_declareFunction`, `harmless_declareClass`: declarations.
* `harmless_bindMethod`, `harmless_openCall`, `harmless_receiver`: calls.
-/

namespace ScopedScript

/-! ## Sound heaps -/

section Sound

variable (known : Task → Prop)

/-- A function is located in scopes: its body, in a scope for its parameters inside them. -/
structure Closure.LocatedIn (closure : Closure) (scopes : List Scope) : Prop where
  known : ∀ s ∈ closure.body, known (.stmt s)
  names : Parameters.AreNames closure.params
  body : Stmt.AllLocatedIn closure.body (parameterScope closure.params :: scopes)

/-- **A function that is in place**: its environment covers the scopes it is located in.  An
initializer has its instance at hand. -/
def Closure.Sound (frames : Frames) (closure : Closure) : Prop :=
  ∃ scopes, Covers frames scopes closure.environment.chain ∧ closure.LocatedIn known scopes ∧
    (closure.initializer = true → markAt scopes 0 "this" = some true)

/-- **A method that is in place**, for want of a frame for `this`. -/
def Closure.SoundMethod (frames : Frames) (method : Closure) : Prop :=
  ∃ scopes, Covers frames scopes method.environment.chain ∧
    method.LocatedIn known (thisScope :: scopes)

/-- The methods of a class are in place. -/
def ClassDef.Sound (frames : Frames) (cls : ClassDef) : Prop :=
  ∀ name method, cls.methods.get? name = some method → method.SoundMethod known frames

/-- **Every function and method on the heap is in place.** -/
structure Heap.Sound (heap : Heap) : Prop where
  functions : ∀ closure ∈ heap.functions, closure.Sound known heap.frames
  classes : ∀ cls ∈ heap.classes, cls.Sound known heap.frames

/-- **How evaluation changes a machine**: it stays in the environment, frames grow, and a sound
heap stays sound. -/
structure Machine.Grows (machine machine' : Machine) : Prop where
  environment : machine'.environment = machine.environment
  frames : machine.heap.frames.Extends machine'.heap.frames
  sound : machine.heap.Sound known → machine'.heap.Sound known

/-- **A machine among some scopes**: its environment covers them, and its heap is sound. -/
structure Machine.StandsIn (machine : Machine) (scopes : List Scope) : Prop where
  covers : Covers machine.heap.frames scopes machine.environment.chain
  sound : machine.heap.Sound known

end Sound

variable {known : Task → Prop} {frames frames' : Frames} {machine machine' : Machine}

/-- A function in its place stays in place when frames are added. -/
theorem Closure.Sound.mono {closure : Closure} (h : closure.Sound known frames)
    (hf : frames.Extends frames') : closure.Sound known frames' := by
  obtain ⟨scopes, hc, hl, hi⟩ := h
  exact ⟨scopes, hc.mono hf, hl, hi⟩

theorem Closure.SoundMethod.mono {method : Closure} (h : method.SoundMethod known frames)
    (hf : frames.Extends frames') : method.SoundMethod known frames' := by
  obtain ⟨scopes, hc, hl⟩ := h
  exact ⟨scopes, hc.mono hf, hl⟩

theorem ClassDef.Sound.mono {cls : ClassDef} (h : cls.Sound known frames)
    (hf : frames.Extends frames') : cls.Sound known frames' :=
  fun name method hm => (h name method hm).mono hf

namespace Heap.Sound

variable {heap : Heap}

/-- Code in its place stays in place when frames are added. -/
theorem mono (h : heap.Sound known) (hf : heap.frames.Extends frames) :
    { heap with frames := frames }.Sound known :=
  ⟨fun closure hc => (h.functions closure hc).mono hf, fun cls hc => (h.classes cls hc).mono hf⟩

/-- A function in its place may be added. -/
theorem addFunction (h : heap.Sound known) {closure : Closure}
    (hc : closure.Sound known heap.frames) : (heap.addFunction closure).2.Sound known := by
  refine ⟨fun other ho => ?_, h.classes⟩
  rcases Array.mem_push.1 ho with ho | rfl
  · exact h.functions other ho
  · exact hc

/-- A class with its methods in place may be added. -/
theorem addClass (h : heap.Sound known) {cls : ClassDef} (hc : cls.Sound known heap.frames) :
    (heap.addClass cls).2.Sound known := by
  refine ⟨h.functions, fun other ho => ?_⟩
  rcases Array.mem_push.1 ho with ho | rfl
  · exact h.classes other ho
  · exact hc

/-- Methods that are found are in place. -/
theorem method (h : heap.Sound known) {object : Instance} {name : String} {method : Closure}
    (hm : heap.method? object name = some method) : method.SoundMethod known heap.frames := by
  obtain ⟨cls, hc, hm⟩ := Option.bind_eq_some_iff.1 hm
  exact h.classes cls (Array.mem_of_getElem? hc) name method hm

end Heap.Sound

namespace Machine.Grows

theorem refl (machine : Machine) : machine.Grows known machine := ⟨rfl, .refl _, fun h => h⟩

theorem trans {a b c : Machine} (hab : a.Grows known b) (hbc : b.Grows known c) :
    a.Grows known c :=
  ⟨hbc.environment.trans hab.environment, hab.frames.trans hbc.frames,
    fun h => hbc.sound (hab.sound h)⟩

/-- Only frames grow. -/
theorem withFrames (hf : machine.heap.frames.Extends frames) :
    machine.Grows known (machine.withFrames frames) :=
  ⟨rfl, hf, fun h => h.mono hf⟩

/-- The frames, the functions and the classes are the same. -/
theorem of_same (he : machine'.environment = machine.environment)
    (hf : machine'.heap.frames = machine.heap.frames)
    (hc : machine'.heap.functions = machine.heap.functions)
    (hs : machine'.heap.classes = machine.heap.classes) : machine.Grows known machine' := by
  refine ⟨he, hf ▸ .refl _, fun h => ⟨?_, ?_⟩⟩
  · rw [hf, hc]
    exact h.functions
  · rw [hf, hs]
    exact h.classes

/-- What happens in another environment. -/
theorem enter {env : Environment} (h : { machine with environment := env }.Grows known machine') :
    machine.Grows known { machine' with environment := machine.environment } :=
  ⟨rfl, h.frames, h.sound⟩

end Machine.Grows

/-- A machine that has grown stands in the same scopes. -/
theorem Machine.StandsIn.mono {scopes : List Scope} (h : machine.StandsIn known scopes)
    (hg : machine.Grows known machine') : machine'.StandsIn known scopes :=
  ⟨hg.environment ▸ h.covers.mono hg.frames, hg.sound h.sound⟩

/-! ## Harmless steps -/

/-- The defects among the ways in which evaluation ends early. -/
def Stop.isDefect : Stop → Bool
  | error e => e.fault.isDefect
  | tooDeep | tooLong => false

/-- **A step that keeps the machine in order and raises no defect.** -/
def Harmless (known : Task → Prop) {α : Type} (step : Eval α) (machine : Machine)
    (ensures : α → Machine → Prop) : Prop :=
  (∀ stop machine', step machine = .error stop machine' →
      machine.Grows known machine' ∧ stop.isDefect = false) ∧
    ∀ a machine', step machine = .ok a machine' → machine.Grows known machine' ∧ ensures a machine'

namespace Harmless

variable {α β : Type} {step : Eval α} {next : α → Eval β} {middle ensures : α → Machine → Prop}

theorem of_eq {a : α} (h : step machine = .ok a machine') (hg : machine.Grows known machine')
    (he : ensures a machine') : Harmless known step machine ensures := by
  constructor
  · intro stop machine'' hs
    rw [h] at hs
    cases hs
  · intro b machine'' hs
    rw [h] at hs
    cases hs
    exact ⟨hg, he⟩

theorem pure (a : α) (h : ensures a machine) : Harmless known (pure a) machine ensures :=
  .of_eq rfl (.refl machine) h

/-- A step that fails without a defect, and changes nothing, is harmless. -/
theorem of_error {stop : Stop} (h : step machine = .error stop machine)
    (hd : stop.isDefect = false) : Harmless known step machine ensures := by
  constructor
  · intro stop' machine' hs
    rw [h] at hs
    cases hs
    exact ⟨.refl machine, hd⟩
  · intro a machine' hs
    rw [h] at hs
    cases hs

theorem ofExcept {result : Except RuntimeError α}
    (h : ∀ e, result = .error e → e.fault.isDefect = false) :
    Harmless known (Eval.ofExcept result) machine fun a machine' =>
      result = .ok a ∧ machine' = machine := by
  cases result with
  | ok a => exact .of_eq rfl (.refl machine) ⟨rfl, rfl⟩
  | error e => exact .of_error rfl (h e rfl)

theorem mono (h : Harmless known step machine middle)
    (hm : ∀ a machine', machine.Grows known machine' → middle a machine' → ensures a machine') :
    Harmless known step machine ensures := by
  refine ⟨h.1, fun a machine' hs => ?_⟩
  obtain ⟨hg, hp⟩ := h.2 a machine' hs
  exact ⟨hg, hm a machine' hg hp⟩

/-- Harmless steps one after the other are harmless. -/
theorem bind {ensures : β → Machine → Prop} (h : Harmless known step machine middle)
    (hn : ∀ a machine', machine.Grows known machine' → middle a machine' →
      Harmless known (next a) machine' ensures) :
    Harmless known (step >>= next) machine ensures := by
  constructor
  · intro stop machine' hs
    rcases bind_eq_error_iff.1 hs with hs | ⟨a, mid, ha, hs⟩
    · exact h.1 stop machine' hs
    · obtain ⟨hg, hp⟩ := h.2 a mid ha
      obtain ⟨hg', hd⟩ := (hn a mid hg hp).1 stop machine' hs
      exact ⟨hg.trans hg', hd⟩
  · intro b machine' hs
    obtain ⟨a, mid, ha, hs⟩ := bind_eq_ok_iff.1 hs
    obtain ⟨hg, hp⟩ := h.2 a mid ha
    obtain ⟨hg', he⟩ := (hn a mid hg hp).2 b machine' hs
    exact ⟨hg.trans hg', he⟩

/-- A step whose result is known comes first. -/
theorem bind_of_eq {a : α} {ensures : β → Machine → Prop} (h : step machine = .ok a machine')
    (hg : machine.Grows known machine') (hn : Harmless known (next a) machine' ensures) :
    Harmless known (step >>= next) machine ensures :=
  (of_eq h hg (And.intro rfl rfl)).bind fun b mid _ (hb : b = a ∧ mid = machine') => by
    obtain ⟨rfl, rfl⟩ := hb
    exact hn

end Harmless

/-! ## What operators raise -/

/-- A value that cannot be tested is the program's error. -/
theorem Value.truth_not_defect {value : Value} {token? : Option Token} {e : RuntimeError}
    (h : value.truth token? = .error e) : e.fault.isDefect = false := by
  rw [Value.truth_eq_error h]
  cases token? <;> rfl

/-- Errors of unary operators are the program's. -/
theorem unaryValue_not_defect {origin : Nat} {op : Token} {operand : Value} {e : RuntimeError}
    (h : unaryValue origin op operand = .error e) : e.fault.isDefect = false := by
  rcases unaryValue_eq_error h with rfl | rfl | ⟨-, rfl⟩ <;> rfl

/-- Errors of binary operators are the program's. -/
theorem binaryValue_not_defect {origin : Nat} {op : Token} {left right : Value} {e : RuntimeError}
    (h : binaryValue origin op left right = .error e) : e.fault.isDefect = false := by
  rcases binaryValue_eq_error h with rfl | ⟨operand, rfl⟩ | ⟨-, -, rfl⟩ <;> rfl

/-! ## Declarations -/

section Actions

variable {scopes : List Scope} {name : Token} {params : List Token} {body : List Stmt}

theorem onFrames_of_ok {α : Type} {op : FrameM α} {a : α}
    (h : op machine.heap.frames = .ok a frames) :
    Eval.onFrames op machine = .ok a (machine.withFrames frames) := by
  rw [Eval.onFrames_eq, h]

theorem onFrames_of_error {α : Type} {op : FrameM α} {e : RuntimeError}
    (h : op machine.heap.frames = .error e frames) :
    Eval.onFrames op machine = .error (.error e) (machine.withFrames frames) := by
  rw [Eval.onFrames_eq, h]

/-- Binding an identifier in the current frame always succeeds. -/
theorem define_eq (hk : name.kind = .identifier) (value : Value) :
    Eval.define name value machine =
      .ok () (machine.withFrames
        (machine.heap.frames.bind machine.environment.frame name.lexeme value)) :=
  onFrames_of_ok (Frames.define_eq hk)

/-- A name that is defined is bound. -/
theorem harmless_define (hm : machine.StandsIn known scopes) (hk : name.kind = .identifier)
    (value : Value) :
    Harmless known (Eval.define name value) machine fun _ machine' =>
      machine'.heap.frames.Binds machine'.environment.frame name.lexeme :=
  .of_eq (define_eq hk value) (.withFrames (Frames.extends_bind _ _ _ _))
    (Frames.binds_bind hm.covers.frame_lt _ _)

/-- Assigning by name is harmless: a name that is missing is the program's error. -/
theorem harmless_assign {env : Environment} (hk : name.kind = .identifier) (value : Value) :
    Harmless known (Eval.onFrames (Frames.assign env name value)) machine fun _ _ => True := by
  have ha : Frames.assign env name value machine.heap.frames = _ := Frames.assign_eq hk
  cases hf : machine.heap.frames.find? env.chain name.lexeme with
  | some found =>
    rw [hf] at ha
    exact .of_eq (onFrames_of_ok ha) (.withFrames (Frames.extends_bind _ _ _ _)) trivial
  | none =>
    rw [hf] at ha
    exact .of_error (onFrames_of_error ha) rfl

/-- A function is in place where it is made. -/
theorem harmless_makeFunction (hm : machine.StandsIn known scopes) {label : String}
    (hc : ∀ env, (⟨label, params, body, env, false⟩ : Closure).LocatedIn known scopes) :
    Harmless known (Eval.closure label params body) machine fun _ _ => True := by
  refine .of_eq rfl ⟨rfl, .refl _, fun hs => hs.addFunction ?_⟩ trivial
  exact ⟨scopes, hm.covers, hc _, fun h => by cases h⟩

/-- A function that is declared sees itself, so it is in place only once its name is bound. -/
theorem harmless_declareFunction (hm : machine.StandsIn known scopes)
    (hk : name.kind = .identifier)
    (hc : ∀ env, (⟨name.lexeme, params, body, env, false⟩ : Closure).LocatedIn known
      (markIn scopes name.lexeme true)) :
    Harmless known (Action.declareFunction name params body).run machine fun _ machine' =>
      machine'.heap.frames.Binds machine'.environment.frame name.lexeme := by
  have hd : (Action.declareFunction name params body).run machine = _ :=
    (bind_of_ok rfl).trans (define_eq hk _)
  refine .of_eq hd ⟨rfl, Frames.extends_bind _ _ _ _, fun hs => ?_⟩
    (Frames.binds_bind hm.covers.frame_lt _ _)
  have hs := hs.mono (machine.heap.frames.extends_bind machine.environment.frame name.lexeme
    (machine.heap.addFunction ⟨name.lexeme, params, body, machine.environment, false⟩).1)
  -- then the new one, which sees its own name in the frame that now binds it
  exact hs.addFunction ⟨_, hm.covers.bind _ _, hc _, fun h => by cases h⟩

/-- Every entry of a method table comes from one of the declarations. -/
theorem Eval.of_methodTable {env : Environment} {methods : List FunctionDecl} {label : String}
    {method : Closure} (h : (Eval.methodTable env methods).get? label = some method) :
    ∃ f ∈ methods,
      method = ⟨f.name.lexeme, f.params, f.body, env, f.name.lexeme = "init"⟩ := by
  -- Generalize over the table that the fold starts from: the empty one at the end.
  suffices hf : ∀ table : NameMap Closure,
      (methods.foldl (fun table method => table.insert method.name.lexeme
        ⟨method.name.lexeme, method.params, method.body, env, method.name.lexeme = "init"⟩)
        table).get? label = some method →
      table.get? label = some method ∨
        ∃ f ∈ methods,
          method = ⟨f.name.lexeme, f.params, f.body, env, f.name.lexeme = "init"⟩ by
    rcases hf .empty h with h | h
    · simp at h
    · exact h
  clear h
  induction methods with
  | nil => exact fun table h => .inl h
  | cons f fs ih =>
    intro table h
    rcases ih _ h with h | ⟨g, hg, h⟩
    · rw [NameMap.get?_insert] at h
      split at h
      · exact .inr ⟨f, List.mem_cons_self, (Option.some.inj h).symm⟩
      · exact .inl h
    · exact .inr ⟨g, List.mem_cons_of_mem _ hg, h⟩

/-- A class is declared with its methods in place: they see the name of the class. -/
theorem harmless_declareClass (hm : machine.StandsIn known scopes) (hk : name.kind = .identifier)
    {methods : List FunctionDecl}
    (hl : FunctionDecl.AllLocatedIn methods (thisScope :: markIn scopes name.lexeme true))
    (hb : ∀ method ∈ methods, ∀ s ∈ method.body, known (.stmt s)) :
    Harmless known (Eval.declareClass name methods) machine fun _ machine' =>
      machine'.heap.frames.Binds machine'.environment.frame name.lexeme := by
  refine (harmless_define hm hk .nil).bind fun _ mid hg hbound => ?_
  -- the name is bound to nothing yet, but that is enough for the methods to see it
  have hcovers := (hm.mono hg).covers.ready hbound
  have hclass : (⟨name.lexeme, Eval.methodTable mid.environment methods⟩ : ClassDef).Sound known
      mid.heap.frames := by
    intro label method h
    obtain ⟨f, hf, rfl⟩ := Eval.of_methodTable h
    obtain ⟨hn, hl⟩ := hl.of_mem hf
    exact ⟨_, hcovers, hb f hf, hn, hl⟩
  refine .bind_of_eq rfl (.refl mid) ?_
  refine .bind_of_eq rfl ⟨rfl, .refl _, fun hs => hs.addClass hclass⟩ ?_
  exact (harmless_assign hk _).mono fun _ _ hg' _ => by
    rw [hg'.environment]
    exact hg'.frames.binds _ _ hbound

/-! ## Blocks and calls -/

/-- The frame of a block stands for its scope. -/
theorem harmless_openBlock (hm : machine.StandsIn known scopes) :
    Harmless known Action.openBlock.run machine fun env machine' =>
      Covers machine'.heap.frames (.empty :: scopes) env.chain := by
  have ho : Action.openBlock.run machine = _ := bind_of_ok rfl
  refine .of_eq ho ?_ hm.covers.push
  exact .withFrames machine.heap.frames.extends_push

/-- Once the parameters are bound, the frame covers the scope with their names. -/
theorem harmless_bindParameters {env : Environment} {scope : Scope} {args : List Value}
    (hn : Parameters.AreNames params) (ha : args.length = params.length)
    (hc : Covers machine.heap.frames (scope :: scopes) env.chain) :
    Harmless known (Eval.bindParameters env params args) machine fun _ machine' =>
      Covers machine'.heap.frames
        (params.foldl (fun scope param => scope.insert param.lexeme true) scope :: scopes)
        env.chain := by
  induction params generalizing args scope machine with
  | nil => exact .pure () hc
  | cons param params ih =>
    cases args with
    | nil => simp at ha
    | cons arg args =>
      obtain ⟨hp, hn⟩ := List.forall_mem_cons.1 hn
      refine .bind_of_eq (onFrames_of_ok (Frames.define_eq hp))
        (.withFrames (Frames.extends_bind _ _ _ _)) ?_
      exact ih hn (Nat.succ.inj ha) (hc.bind _ _)

/-- The frame of a call stands for the scope of the parameters. -/
theorem harmless_openCall {closure : Closure} {args : List Value}
    (hc : Covers machine.heap.frames scopes closure.environment.chain)
    (hn : Parameters.AreNames closure.params) (ha : args.length = closure.params.length) :
    Harmless known (Action.openCall closure args).run machine fun env machine' =>
      Covers machine'.heap.frames (parameterScope closure.params :: scopes) env.chain := by
  refine .bind_of_eq rfl (.withFrames machine.heap.frames.extends_push) ?_
  refine (harmless_bindParameters hn ha hc.push).bind fun _ machine' _ hc => ?_
  exact .pure _ hc

/-- A method that is bound to an instance is a function in place. -/
theorem harmless_bindMethod {method : Closure} (hm : method.SoundMethod known machine.heap.frames)
    (object : Value) :
    Harmless known (Eval.bindMethod method object) machine fun bound machine' =>
      bound.Sound known machine'.heap.frames ∧ bound.params = method.params := by
  -- the frame for the instance goes between the scopes of the class and those of the method
  obtain ⟨scopes, hc, hk, hn, hb⟩ := hm
  refine .bind_of_eq rfl (.withFrames machine.heap.frames.extends_push) ?_
  refine .bind_of_eq (onFrames_of_ok (Frames.define_eq rfl))
    (.withFrames (Frames.extends_bind _ _ _ _)) ?_
  refine .pure _ ⟨⟨thisScope :: scopes, hc.push.bind _ _, ⟨hk, hn, hb⟩, fun _ => ?_⟩, rfl⟩
  simp [thisScope]

/-- An initializer has its instance at hand. -/
theorem harmless_receiver {closure : Closure} (hc : closure.Sound known machine.heap.frames)
    (hi : closure.initializer = true) :
    Harmless known (Action.receiver closure).run machine fun _ _ => True := by
  obtain ⟨scopes, hc, -, hthis⟩ := hc
  obtain ⟨frame, hf, hb⟩ := hc.bound (hthis hi)
  obtain ⟨value, hv⟩ := Option.isSome_iff_exists.1 hb
  have hg : Frames.getAt closure.environment 0 (.ident "this" 0) machine.heap.frames =
      .ok value machine.heap.frames := by
    have hv : (machine.heap.frames.bindings frame).get? (Token.ident "this" 0).lexeme =
        some value := hv
    rw [Frames.getAt_eq rfl hf, hv]
  exact .of_eq (onFrames_of_ok hg) (.refl machine) trivial

/-! ## Properties -/

theorem instance?_eq (object : Value) (machine : Machine) :
    ∃ target, Eval.instance? object machine = .ok target machine := by
  cases object <;> exact ⟨_, rfl⟩

/-- A method that is read as a property is a function in place. -/
theorem harmless_property (hs : machine.heap.Sound known) (object : Value) (name : Token) :
    Harmless known (Eval.property object name) machine fun _ _ => True := by
  obtain ⟨target, ht⟩ := instance?_eq object machine
  refine .bind_of_eq ht (.refl machine) ?_
  cases target with
  | none => exact .of_error rfl rfl
  | some target =>
    dsimp only
    cases target.2.fields.get? name.lexeme with
    | some value => exact .pure value trivial
    | none =>
      refine .bind_of_eq rfl (.refl machine) ?_
      cases hm : machine.heap.method? target.2 name.lexeme with
      | none => exact .of_error rfl rfl
      | some method =>
        refine (harmless_bindMethod (hs.method hm) object).bind fun bound machine' _ hb => ?_
        exact .of_eq rfl ⟨rfl, .refl _, fun hs => hs.addFunction hb.1⟩ trivial

/-- What a value on a sound heap can be called as is in place. -/
theorem harmless_callable (hs : machine.heap.Sound known) (callee : Value) :
    Harmless known (Action.callable? callee).run machine fun callable machine' =>
      machine' = machine ∧
        (∀ closure, callable = some (.function closure) →
          closure.Sound known machine.heap.frames) ∧
        ∀ handle cls, callable = some (.class handle cls) →
          cls.Sound known machine.heap.frames := by
  refine .of_eq rfl (.refl machine) ⟨rfl, fun closure h => ?_, fun handle cls h => ?_⟩
  all_goals
    unfold Heap.callable? at h
    split at h
  all_goals simp only [Option.map_eq_some_iff, reduceCtorEq, and_false, exists_false] at h
  · obtain ⟨closure', hf, h⟩ := h
    cases h
    exact hs.functions _ (Array.mem_of_getElem? hf)
  · obtain ⟨cls', hc, h⟩ := h
    cases h
    exact hs.classes _ (Array.mem_of_getElem? hc)

end Actions

end ScopedScript

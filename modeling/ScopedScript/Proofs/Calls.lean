import ScopedScript.Proofs.Policy.Evaluation
import ScopedScript.Proofs.Return
import ScopedScript.Proofs.Scope.Context

/-!
# Returning from calls

A `return` ends the call of the function it stands in, and nothing else.  At the top level of a
program there is none, so no statement there completes by returning.  In a call, after a
`return` of the function's own body no statement or expression of the body is begun, and the
call results in the value that was returned.  An initializer results in its instance instead:
the value of `this` in the frame that was made when it was bound to the instance.  No code can
bind `this` anew, since it is no identifier, so the value is the one that the frame was made
with.

## Main definitions

* `receivers`: the policy that initializers have their instance at hand.
* `Moment.Invokes`: the functions that are called at a moment.

## Main results

* `receivers_lawful`: initializers have their instance at hand.
* `exec_loaded_normal`: a statement at the top level completes normally.
* `return_stays_in_call`: what a `return` does to the call it is in.
-/

namespace ScopedScript

/-! ## The instance of an initializer -/

/-- The frames have kept their values of `this`. -/
def Frames.KeepThis (frames frames' : Frames) : Prop :=
  ∀ frame value, (frames.bindings frame).get? "this" = some value →
    (frames'.bindings frame).get? "this" = some value

/-- A function that may be called: if it is an initializer, its frame has `this`. -/
structure Closure.HasReceiver (frames : Frames) (closure : Closure) : Prop where
  wellFormed : WellFormedBody closure.params closure.body
  this : closure.initializer = true →
    ∃ value, (frames.bindings closure.environment.frame).get? "this" = some value

/-- **Every function on the heap may be called.** -/
structure Heap.HasReceivers (heap : Heap) : Prop where
  functions : ∀ closure ∈ heap.functions, closure.HasReceiver heap.frames
  methods : ∀ cls ∈ heap.classes, ∀ name method, cls.methods.get? name = some method →
    WellFormedBody method.params method.body

/-- **The policy that initializers have their instance at hand.** -/
def receivers : Policy where
  heap := Heap.HasReceivers
  value _ _ := True
  function heap closure := closure.HasReceiver heap.frames
  method _ method := WellFormedBody method.params method.body
  environment _ _ := True
  change heap heap' := heap.frames.KeepThis heap'.frames

theorem Closure.HasReceiver.mono {frames frames' : Frames} {closure : Closure}
    (h : closure.HasReceiver frames) (hk : frames.KeepThis frames') :
    closure.HasReceiver frames' := by
  refine ⟨h.wellFormed, fun hi => ?_⟩
  obtain ⟨value, hv⟩ := h.this hi
  exact ⟨value, hk _ _ hv⟩

namespace Heap.HasReceivers

variable {heap heap' : Heap}

/-- Only frames change. -/
theorem of_frames (h : heap.HasReceivers) (hk : heap.frames.KeepThis heap'.frames)
    (hf : heap'.functions = heap.functions) (hc : heap'.classes = heap.classes) :
    receivers.Becomes heap heap' := by
  refine ⟨hk, ⟨fun closure hm => ?_, ?_⟩⟩
  · rw [hf] at hm
    exact (h.functions closure hm).mono hk
  · rw [hc]
    exact h.methods

theorem of_same (h : heap.HasReceivers) (hs : heap'.frames = heap.frames)
    (hf : heap'.functions = heap.functions) (hc : heap'.classes = heap.classes) :
    receivers.Becomes heap heap' := by
  refine h.of_frames (fun frame value hv => ?_) hf hc
  rw [hs]
  exact hv

end Heap.HasReceivers

/-- Binding another name keeps the values of `this`. -/
theorem Frames.keepThis_bind (frames : Frames) (frame : Nat) {name : String} (hn : name ≠ "this")
    (value : Value) : frames.KeepThis (frames.bind frame name value) := by
  intro other v hv
  by_cases hf : frame < frames.next
  · rw [bindings_bind _ _ _ _ _ hf]
    split
    · rename_i ho
      rw [NameMap.get?_insert, if_neg hn.symm, ← ho]
      exact hv
    · exact hv
  · rw [bind_of_next_le (Nat.not_lt.1 hf)]
    exact hv

theorem Frames.keepThis_push (frames : Frames) : frames.KeepThis frames.push := by
  intro frame value hv
  rw [bindings_push]
  exact hv

/-- The frame that a method is bound in is a new one, and has the instance. -/
theorem Heap.bindings_bindMethod (heap : Heap) (method : Closure) (object : Value) (frame : Nat) :
    ((heap.bindMethod method object).2.frames.bindings frame).get? "this" =
      if frame = heap.frames.next then some object
      else (heap.frames.bindings frame).get? "this" := by
  have hlt : heap.frames.next < heap.frames.push.next := by simp
  change ((heap.frames.push.bind heap.frames.next "this" object).bindings frame).get? _ = _
  rw [Frames.bindings_bind _ _ _ _ _ hlt]
  split
  · simp
  · rw [Frames.bindings_push]

theorem Frames.bindings_next (frames : Frames) : frames.bindings frames.next = .empty := by
  simp [Frames.bindings, Frames.next]

theorem Heap.keepThis_bindMethod (heap : Heap) (method : Closure) (object : Value) :
    heap.frames.KeepThis (heap.bindMethod method object).2.frames := by
  intro frame value hv
  rw [Heap.bindings_bindMethod]
  split
  · rename_i hf
    rw [hf, Frames.bindings_next] at hv
    cases hv
  · exact hv

/-- **Initializers have their instance at hand**, and keep it. -/
theorem receivers_lawful : receivers.Lawful where
  refl _ _ _ hv := hv
  trans hab hbc frame value hv := hbc frame value (hab frame value hv)
  value_mono _ _ := trivial
  function_mono hk h := h.mono hk
  method_mono _ h := h
  environment_mono _ _ := trivial
  plain _ := trivial
  list _ := trivial
  declare _ hb hi := ⟨hb, fun h => absurd (hi.symm.trans h) Bool.false_ne_true⟩
  declareMethod _ hb := hb
  wellFormed h := h.wellFormed
  «global» _ := trivial
  around _ := trivial
  binding _ _ _ _ := trivial
  field _ _ _ _ := trivial
  methodOf hh _ _ hm := by
    obtain ⟨cls, hc, hm⟩ := Option.bind_eq_some_iff.1 hm
    exact hh.methods cls (Array.mem_of_getElem? hc) _ _ hm
  called hh _ hf := hh.functions _ (Array.mem_of_getElem? hf)
  initializer hh _ hc hi := hh.methods _ (Array.mem_of_getElem? hc) _ _ hi
  bind hh _ _ hn _ := hh.of_frames (Frames.keepThis_bind _ _ hn _) rfl rfl
  push hh _ := ⟨hh.of_frames (Frames.keepThis_push _) rfl rfl, trivial⟩
  bindMethod {heap method object} hh hm _ := by
    refine ⟨hh.of_frames (heap.keepThis_bindMethod method object) rfl rfl, hm, fun _ => ?_⟩
    refine ⟨object, ?_⟩
    rw [Heap.bindings_bindMethod]
    exact if_pos rfl
  addFunction {heap closure} hh hf := by
    refine ⟨⟨fun _ _ hv => hv, ⟨fun other ho => ?_, hh.methods⟩⟩, trivial⟩
    rcases Array.mem_push.1 ho with ho | rfl
    · exact hh.functions other ho
    · exact hf
  addClass {heap cls} hh hm := by
    refine ⟨⟨fun _ _ hv => hv, ⟨hh.functions, fun other ho => ?_⟩⟩, trivial⟩
    rcases Array.mem_push.1 ho with ho | rfl
    · exact hh.methods other ho
    · exact hm
  addInstance hh _ := ⟨hh.of_same rfl rfl rfl, trivial⟩
  setField hh _ _ := hh.of_same rfl rfl rfl

theorem initial_hasReceivers (clock : Clock) : receivers.Admits (Machine.initial clock) :=
  ⟨⟨fun _ h => absurd h (Array.not_mem_empty _), fun _ h => absurd h (Array.not_mem_empty _)⟩,
    trivial⟩

/-! ## The functions that are called -/

/-- The function that runs when a value is called, and the machine on which it begins: the
function itself, or the initializer of a class, bound to a new instance. -/
def Callable.invoked? (there : Machine) : Callable → Option (Closure × Machine)
  | .function closure => some (closure, there)
  | .native _ => none
  | .class handle cls => cls.initializer?.map fun method =>
    let made := there.heap.addInstance handle
    let bound := made.2.bindMethod method made.1
    (bound.1, { there with heap := bound.2 })

/-- **The function that a call expression calls**, with the arguments and the machine on which
the call begins, once the callee and the arguments are evaluated. -/
def Expr.invoked? (rounds depth : Nat) (machine : Machine) :
    Expr → Option (Closure × List Value × Machine)
  | .call callee _ args =>
    match eval rounds depth callee machine with
    | .error _ _ => none
    | .ok f mid =>
      match args.mapM (eval rounds depth) mid with
      | .error _ _ => none
      | .ok vs there =>
        match there.heap.callable? f with
        | none => none
        | some callable =>
          if vs.length = callable.arity then
            (callable.invoked? there).map fun (closure, there) => (closure, vs, there)
          else none
  | _ => none

/-- **A function is called at a moment**, with arguments and on a machine.  Its body may nest as
deep as `depth` says. -/
def Moment.Invokes (rounds depth : Nat) (mo : Moment) (closure : Closure) (args : List Value)
    (there : Machine) : Prop :=
  mo.depth = depth + 1 ∧
    ∃ e, mo.task = .expr e ∧ e.invoked? rounds depth mo.machine = some (closure, args, there)

/-- What is evaluated before a function is called. -/
theorem Expr.invoked?_eq_some {rounds depth : Nat} {machine there : Machine} {e : Expr}
    {closure : Closure} {vs : List Value}
    (h : e.invoked? rounds depth machine = some (closure, vs, there)) :
    ∃ callee paren args f mid start callable, e = .call callee paren args ∧
      eval rounds depth callee machine = .ok f mid ∧
      args.mapM (eval rounds depth) mid = .ok vs start ∧
      start.heap.callable? f = some callable ∧ vs.length = callable.arity ∧
      callable.invoked? start = some (closure, there) := by
  cases e with
  | call callee paren args =>
    unfold Expr.invoked? at h
    dsimp only at h
    split at h
    · cases h
    · rename_i f mid hf
      split at h
      · cases h
      · rename_i vs' start ha
        split at h
        · cases h
        · rename_i callable hc
          split at h
          · rename_i hl
            obtain ⟨⟨closure', there'⟩, hi, heq⟩ := Option.map_eq_some_iff.1 h
            cases heq
            exact ⟨callee, paren, args, f, mid, start, callable, rfl, hf, ha, hc, hl, hi⟩
          · cases h
  | _ => cases h

/-- **Evaluating a call expression is calling that function**, except that a class results in
the new instance. -/
theorem eval_of_invoked {rounds depth : Nat} {machine there : Machine} {e : Expr}
    {closure : Closure} {vs : List Value}
    (h : e.invoked? rounds depth machine = some (closure, vs, there)) :
    ∃ result : Value → Value, eval rounds (depth + 1) e machine =
      (result <$> Eval.invoke (exec rounds depth) closure vs) there := by
  obtain ⟨callee, paren, args, f, mid, start, callable, rfl, hf, ha, hc, hl, hi⟩ :=
    Expr.invoked?_eq_some h
  have happly : eval rounds (depth + 1) (.call callee paren args) machine =
      Eval.apply (exec rounds depth) f paren vs start := by
    rw [eval, bind_of_ok hf, bind_of_ok ha]
  have hget : (get : Eval Machine) start = .ok start start := rfl
  rw [happly, Eval.apply, bind_of_ok hget, hc]
  dsimp only
  rw [if_neg (not_not_intro hl)]
  cases callable with
  | function closure' =>
    cases hi
    exact ⟨id, by rw [id_map]⟩
  | native code => cases hi
  | «class» handle cls =>
    obtain ⟨method, hm, heq⟩ := Option.map_eq_some_iff.1 hi
    cases heq
    refine ⟨fun _ => (start.heap.addInstance handle).1, ?_⟩
    have hmake : Eval.onHeap (·.addInstance handle) start =
        .ok (start.heap.addInstance handle).1
          { start with heap := (start.heap.addInstance handle).2 } := rfl
    dsimp only
    rw [Eval.construct, bind_of_ok hmake, hm]
    dsimp only
    rw [bind_of_ok (bindMethod_eq _ _ _), ← bind_pure_comp]

/-- **A function that is called may be**, where a policy is gone by. -/
theorem Policy.Lawful.invokes {p : Policy} (hp : p.Lawful) {rounds depth : Nat} {mo : Moment}
    {closure : Closure} {args : List Value} {there : Machine}
    (h : mo.Invokes rounds depth closure args there) (hw : mo.task.WellFormed Token.Scanned)
    (hm : p.Admits mo.machine) : p.heap there.heap ∧ p.function there.heap closure := by
  obtain ⟨-, e, he, hi⟩ := h
  obtain ⟨callee, paren, es, f, mid, start, callable, rfl, hf, ha, hc, -, hi⟩ :=
    Expr.invoked?_eq_some hi
  rw [he] at hw
  have hcallee : p.Ends (eval rounds depth callee) mo.machine fun v heap => p.value heap v :=
    hp.task (.expr callee) hw.1 hm
  rw [Ends, hf] at hcallee
  have hargs : p.Ends (es.mapM (eval rounds depth)) mid fun vs heap => ∀ v ∈ vs, p.value heap v :=
    hp.evalAll (fun e he => hw.2.2.2.of_mem he) (hm.after hp hcallee.1)
  rw [Ends, ha] at hargs
  have hh : p.heap start.heap := hargs.1.becomes.heap
  have hv : p.value start.heap f := hp.value_mono hargs.1.becomes.change hcallee.2
  have hg := (hp.ends_callable hh hv).2
  cases callable with
  | function closure' =>
    cases hi
    exact ⟨hh, hg.1 closure hc⟩
  | native code => cases hi
  | «class» handle cls =>
    obtain ⟨method, hmethod, heq⟩ := Option.map_eq_some_iff.1 hi
    cases heq
    obtain ⟨rfl, hmethods⟩ := hg.2 handle cls hc
    obtain ⟨hb, hobject⟩ := hp.addInstance hh hv
    obtain ⟨hb', hbound⟩ :=
      hp.bindMethod hb.heap (hp.method_mono hb.change (hmethods method hmethod)) hobject
    exact ⟨hb'.heap, hbound⟩

/-! ## Returning -/

/-- **A statement at the top level of a program completes normally**, if it completes. -/
theorem exec_loaded_normal {source : String} {statements : List Stmt}
    (hl : load source = .ok statements) {s : Stmt} (hs : s ∈ statements) {rounds depth : Nat}
    {machine machine' : Machine} {outcome : Outcome}
    (h : exec rounds depth s machine = .ok outcome machine') : outcome.isReturn = false := by
  cases outcome with
  | normal value => rfl
  | returned value =>
    -- it returns only because of a `return` of its own, and there is none
    obtain ⟨event, he, hr⟩ := (Stmt.log_heeded s machine).cause value ⟨machine', h⟩
    obtain ⟨keyword, value, ho⟩ := hr.own?
    exact absurd ⟨keyword, value, Task.log_owned he ho⟩ (load_no_return hl s hs)

/-- What a call results in when its body returns: the instance, if it is an initializer, and
else the value that is returned. -/
def Closure.ResultsIn (closure : Closure) (frames : Frames) (outcome : Outcome) (value : Value) :
    Prop :=
  if closure.initializer then
    (frames.bindings closure.environment.frame).get? "this" = some value
  else value = outcome.value

/-- What is left of a call when its body has returned. -/
theorem invoke_of_body {rounds depth : Nat} {closure : Closure} {args : List Value}
    {there mid last : Machine} {env : Environment} {value : Value}
    (ho : (Action.openCall closure args).run there = .ok env mid)
    (hb : Eval.runIn (exec rounds depth) env closure.body mid = .ok (.returned value) last) :
    Eval.invoke (exec rounds depth) closure args there =
      (if closure.initializer then
        Eval.onFrames (Frames.getAt closure.environment 0 (.ident "this" 0))
      else pure value) last := by
  have hpush : Eval.onHeap (·.pushFrame closure.environment) there =
      .ok (there.heap.pushFrame closure.environment).1
        { there with heap := (there.heap.pushFrame closure.environment).2 } := rfl
  rw [Action.run, bind_of_ok hpush] at ho
  obtain ⟨u, mid', hparams, ho⟩ := bind_eq_ok_iff.1 ho
  obtain ⟨rfl, rfl⟩ := pure_eq_ok_iff.1 ho
  rw [Eval.invoke, bind_of_ok hpush, bind_of_ok hparams, bind_of_ok hb]

/-- **A call whose body returns has a result.** -/
theorem invoke_of_return {rounds depth : Nat} {closure : Closure} {args : List Value}
    {there : Machine} {outcome : Outcome} (hh : there.heap.HasReceivers)
    (hf : closure.HasReceiver there.heap.frames)
    (hb : BodyEndsWith rounds depth closure args there outcome)
    (hr : outcome.isReturn = true) :
    ∃ value there', Eval.invoke (exec rounds depth) closure args there = .ok value there' ∧
      closure.ResultsIn there.heap.frames outcome value := by
  obtain ⟨env, mid, ho, last, hbody⟩ := hb
  obtain ⟨returned, rfl⟩ : ∃ returned, outcome = .returned returned := by
    cases outcome with
    | normal value => cases hr
    | returned value => exact ⟨value, rfl⟩
  rw [invoke_of_body ho hbody]
  unfold Closure.ResultsIn
  cases hi : closure.initializer with
  | false => exact ⟨returned, last, rfl, rfl⟩
  | true =>
    -- the frame of the initializer has had `this` since the call began
    obtain ⟨value, hv⟩ := hf.this hi
    have hopen : receivers.Ends (Action.openCall closure args).run there fun _ _ => True :=
      (receivers_lawful.ends_openCall hh hf fun _ _ => trivial).mono fun _ _ _ => trivial
    rw [Policy.Ends, ho] at hopen
    have hrun : receivers.Ends (Eval.runIn (exec rounds depth) env closure.body) mid
        fun _ _ => True := by
      rw [runIn_eq]
      refine receivers_lawful.plan ⟨trivial, ?_⟩ ⟨hopen.1.becomes.heap, trivial⟩
      exact Plan.obeys_execAll receivers_lawful hf.wellFormed.body fun _ _ _ _ _ => trivial
    rw [Policy.Ends, hbody] at hrun
    have hkept : (last.heap.frames.bindings closure.environment.frame).get? "this" = some value :=
      hrun.1.becomes.change _ _ (hopen.1.becomes.change _ _ hv)
    have hframe : closure.environment.chain[(0 : Int).toNat]? = some closure.environment.frame :=
      rfl
    have hget : Frames.getAt closure.environment 0 (.ident "this" 0) last.heap.frames =
        .ok value last.heap.frames := by
      have hkept : (last.heap.frames.bindings closure.environment.frame).get?
          (Token.ident "this" 0).lexeme = some value := hkept
      rw [Frames.getAt_eq rfl hframe, hkept]
    exact ⟨value, last.withFrames last.heap.frames, onFrames_of_ok hget, hv⟩

/-- **A `return` ends the call it is in, and nothing else.**  A statement at the top level of a
program never completes by returning.  And whatever a machine is asked for, in every call of a
function that is made: the entries of the call's log without a mark are about the function's own
body; after one that says that a `return` is over there are none but that the statements around
it are over, with the same outcome; and the call results in the value that was returned, or in
the instance if it is one of an initializer. -/
theorem return_stays_in_call (limits : Limits) (clock : Clock) (requests : List Request) :
    (∀ source statements, load source = .ok statements → ∀ s ∈ statements,
      ∀ rounds depth machine outcome machine', exec rounds depth s machine = .ok outcome machine' →
        outcome.isReturn = false) ∧
      ∀ (request : Request) (mo : Moment) (depth : Nat) (closure : Closure) (args : List Value)
        (there : Machine),
        request.Evaluates limits ((Machine.initial clock).serve limits requests) mo →
        mo.Invokes limits.rounds depth closure args there →
          (∀ event ∈ callLog limits.rounds depth closure args there, ∀ node,
            event.own? = some node → ∃ s ∈ closure.body, (Task.stmt s).Owns node) ∧
          ((callLog limits.rounds depth closure args there).Pairwise fun earlier later =>
            ∀ outcome, earlier.EndsReturn outcome → ∃ s, later = .ends (.stmt s) outcome) ∧
          ∀ event ∈ callLog limits.rounds depth closure args there, ∀ outcome,
            event.EndsReturn outcome → ∃ value there',
              Eval.invoke (exec limits.rounds depth) closure args there = .ok value there' ∧
                closure.ResultsIn there.heap.frames outcome value := by
  refine ⟨fun source statements hl s hs rounds depth machine outcome machine' h =>
    exec_loaded_normal hl hs h, fun request mo depth closure args there he hi => ?_⟩
  have hadmits : receivers.Admits ((Machine.initial clock).serve limits requests) :=
    receivers_lawful.serve requests (initial_hasReceivers clock)
  obtain ⟨hw, hm⟩ := receivers_lawful.evaluates hadmits he
  obtain ⟨hh, hf⟩ := receivers_lawful.invokes hi hw hm
  have hlog : Heeded (callLog limits.rounds depth closure args there)
      (BodyEndsWith limits.rounds depth closure args there) := callLog_heeded closure args there
  refine ⟨fun event he node ho => callLog_owned he ho, hlog.after, fun event he outcome hr => ?_⟩
  obtain ⟨hret, hbody⟩ := hlog.result event he outcome hr
  exact invoke_of_return hh hf hbody hret

/-- Whether the event is that a `return` is over, with this text. -/
def Event.returnsText (text : String) : Event → Bool
  | .ends (.stmt (.return _ _)) (.returned (.string other)) => other == text
  | _ => false

theorem Event.returnsText_endsReturn {text : String} {event : Event}
    (h : event.returnsText text = true) : event.EndsReturn (.returned (.string text)) := by
  unfold Event.returnsText at h
  split at h
  · rename_i keyword value other
    obtain rfl := eq_of_beq h
    exact ⟨keyword, value, rfl⟩
  · cases h

/-- A function that returns from inside a loop and two blocks. -/
def returnInLoop : String := "fun f(x) { while (true) { { if (x) { return x; } } print x; } }"

/-- The function is called, and returns its argument. -/
theorem return_stays_in_call_loop :
    ∃ mo closure args there there',
      (Request.expression "f(\"a\")").Evaluates .standard
        ((Machine.initial (.starting 0)).serve .standard [.program returnInLoop]) mo ∧
      mo.Invokes Limits.standard.rounds 19999 closure args there ∧
      Eval.invoke (exec Limits.standard.rounds 19999) closure args there =
        .ok (.string "a") there' := by
  let tree : Expr := .call (.variable (.ident "f" 1) none) ⟨.rightParen, ")", .absent, 1⟩
    [.literal (.string "a")]
  have hload : loadSingle readExpression "f(\"a\")" = .ok tree := by
    have hs : (scan "f(\"a\")").tokens = [.ident "f" 1, ⟨.leftParen, "(", .absent, 1⟩,
        ⟨.string, "\"a\"", .string "a", 1⟩, ⟨.rightParen, ")", .absent, 1⟩] := by
      decide +kernel
    refine loadSingle_eq_ok_iff.2 ⟨by decide +kernel, [], ?_⟩
    rw [hs]
    rfl
  have hrun : ((tree.invoked? Limits.standard.rounds 19999
      ((Machine.initial (.starting 0)).serve .standard [.program returnInLoop])).any
        fun call => !call.1.initializer &&
          (callLog Limits.standard.rounds 19999 call.1 call.2.1 call.2.2).any
            (·.returnsText "a")) = true := by
    decide +kernel
  obtain ⟨⟨closure, args, there⟩, hi, hlog⟩ := (Option.any_eq_true _ _).1 hrun
  rw [Bool.and_eq_true, Bool.not_eq_true'] at hlog
  obtain ⟨event, hmem, hevent⟩ := List.any_eq_true.1 hlog.2
  generalize hserved :
    (Machine.initial (.starting 0)).serve .standard [.program returnInLoop] = served at hi ⊢
  have heval : (Request.expression "f(\"a\")").Evaluates .standard served
      ⟨Limits.standard.depth, .expr tree, served⟩ := ⟨tree, hload, .refl⟩
  have hinvokes : Moment.Invokes Limits.standard.rounds 19999
      ⟨Limits.standard.depth, .expr tree, served⟩ closure args there := ⟨rfl, tree, rfl, hi⟩
  have hreturns := (return_stays_in_call .standard (.starting 0) [.program returnInLoop]).2
    (.expression "f(\"a\")") ⟨Limits.standard.depth, .expr tree, served⟩ 19999 closure args there
  rw [hserved] at hreturns
  obtain ⟨value, there', hresult, hvalue⟩ :=
    (hreturns heval hinvokes).2.2 event hmem _ (Event.returnsText_endsReturn hevent)
  rw [Closure.ResultsIn, hlog.1] at hvalue
  obtain rfl : value = .string "a" := hvalue
  exact ⟨_, closure, args, there, there', heval, hinvokes, hresult⟩

end ScopedScript

import ScopedScript.Proofs.History.Entered
import ScopedScript.Proofs.Scope.Enclosed
import ScopedScript.Proofs.Scope.Runs

/-!
# The instance that `this` stands for

A method is bound to an instance when it is read as a property, or when its class is called and
it is the initializer; the bound copy has a frame of its own with the instance.  Code of the
method runs for this copy in three ways: as its body when the copy is called, as a part of such
code, and in functions that such code declares, whenever and wherever they are called.  In all
of them the frame of the copy is where scope analysis says that `this` is found.

## Main definitions

* `Moment.RunsFor`: the moments at which code runs for a bound copy of a method.

## Main results

* `Moment.RunsFor.enclosed`: such code is the method's, and runs inside the frame of the copy.
* `exists_runsFor`: code with `this` always runs for some bound copy.
* `this_is_receiver`: `this` is the instance that the copy was bound to.
-/

namespace ScopedScript

/-! ## Running for a bound copy -/

/-- **At the moment, code runs for a bound copy of a method**: it is of the body of the copy, which
is called; or a part of code that does; or of a function that was declared by code that does. -/
inductive Moment.RunsFor (limits : Limits) (clock : Clock) (requests : List Request)
    (bound : Closure) : Moment → Prop
  | body {caller mo : Moment} (hcaller : caller.Happens limits clock requests)
      (henters : caller.Enters limits.rounds bound mo) : RunsFor limits clock requests bound mo
  | part {outer mo : Moment} (houter : RunsFor limits clock requests bound outer)
      (hcalls : outer.Calls limits.rounds mo) (hown : mo.task ∈ outer.task.ownParts) :
    RunsFor limits clock requests bound mo
  | inner {maker caller mo : Moment} {closure : Closure}
      (hmaker : RunsFor limits clock requests bound maker) (hdeclares : maker.Declares closure)
      (hcaller : caller.Happens limits clock requests)
      (henters : caller.Enters limits.rounds closure mo) : RunsFor limits clock requests bound mo

/-- The body of a function that is declared belongs to the same method, and is executed inside the
environment of the declaration. -/
theorem Moment.Declares.body {mo : Moment} {closure : Closure} (h : mo.Declares closure) :
    (∀ s ∈ closure.body, Task.stmt s ∈ mo.task.methodParts) ∧
      closure.environment = mo.machine.environment := by
  cases h with
  | lambda | function => exact ⟨fun s hs => List.mem_map_of_mem hs, rfl⟩

namespace Moment.RunsFor

variable {limits : Limits} {clock : Clock} {requests : List Request} {bound : Closure} {mo : Moment}

theorem happens (h : mo.RunsFor limits clock requests bound) :
    mo.Happens limits clock requests := by
  induction h with
  | body hcaller henters => exact hcaller.reaches (.single henters.1)
  | part _ hcalls _ ih => exact ih.reaches (.single hcalls)
  | inner _ _ hcaller henters => exact hcaller.reaches (.single henters.1)

/-- **Code that runs for a bound copy is the method's, and runs inside the frame of the copy.** -/
theorem enclosed (h : mo.RunsFor limits clock requests bound) :
    (∃ s ∈ bound.body, (Task.stmt s).Encloses mo.task) ∧
      ∃ inner, mo.machine.environment.chain = inner ++ bound.environment.chain := by
  induction h with
  | @body caller mo _ henters =>
    obtain ⟨⟨s, hs, htask⟩, frame, henv⟩ := henters.body
    refine ⟨⟨s, hs, ?_⟩, [frame], ?_⟩
    · rw [htask]
      exact .refl
    · rw [henv, Environment.chain_inner, List.singleton_append]
  | @part outer mo _ hcalls hown ih =>
    obtain ⟨⟨s, hs, hencloses⟩, inner, hchain⟩ := ih
    refine ⟨⟨s, hs, hencloses.tail (Task.mem_methodParts_of_mem_ownParts hown)⟩, ?_⟩
    obtain ⟨more, hmore⟩ := hcalls.stacks hown
    exact ⟨more ++ inner, by rw [hmore, hchain, List.append_assoc]⟩
  | @inner maker caller mo closure _ hdeclares _ henters ih =>
    obtain ⟨⟨s, hs, hencloses⟩, inner, hchain⟩ := ih
    obtain ⟨⟨t, ht, htask⟩, frame, henv⟩ := henters.body
    obtain ⟨hparts, hclosure⟩ := hdeclares.body
    refine ⟨⟨s, hs, ?_⟩, frame :: inner, ?_⟩
    · rw [htask]
      exact hencloses.tail (hparts t ht)
    · rw [henv, Environment.chain_inner, hclosure, hchain, List.cons_append]

end Moment.RunsFor

/-! ## Bound copies -/

section Bound

variable {limits : Limits} {clock : Clock} {requests : List Request} {mo : Moment}
  {method bound : Closure} {object : Handle}

/-- **The code of a bound copy is placed where its frame is**: all of it is in scopes that were
opened in the scope of the class, which has `this`, and there is a frame for each scope around. -/
theorem Moment.Obtains.placed {sources : List String}
    (ho : mo.Obtains limits.rounds method object bound)
    (h : mo.Happens limits clock (sources.map .program)) :
    ∃ base, (∀ s ∈ bound.body, (Task.stmt s).PlacedIn (thisScope :: base)) ∧
      bound.environment.enclosing.length = base.length + 1 := by
  obtain ⟨heap, ⟨cls, hcls, name, hmethod⟩, rfl, hlasts⟩ := ho.lasts h
  obtain ⟨i, hi⟩ := Array.mem_iff_getElem?.1 hcls
  have hend := Array.mem_of_getElem? (hlasts.classes hi)
  have hstands : ((Machine.initial clock).serve limits (sources.map .program)).StandsIn
      (Occurs sources) [] := served_standsIn (fun _ hs => hs) (initial_standsIn _ clock)
  obtain ⟨base, hcovers, hlocated⟩ := hstands.sound.classes cls hend name method hmethod
  have hreceivers :
      ((Machine.initial clock).serve limits (sources.map .program)).heap.HasReceivers :=
    (lasting_lawful.serve _ (initial_lasting clock)).heap
  have hw : WellFormedBody method.params method.body :=
    hreceivers.methods cls hend name method hmethod
  refine ⟨base, fun s hs => ?_, ?_⟩
  · exact Task.placedIn_body hlocated.body (.first (get?_parameterScope_of_names hw.names)) hw.body
      (List.mem_map_of_mem hs)
  · obtain ⟨inner, hchain, hlength, -⟩ := hcovers.chain_eq
    change method.environment.chain.length = base.length + 1
    rw [hchain, List.length_append, hlength]
    rfl

end Bound

/-! ## The value of `this` -/

section Value

variable {limits : Limits} {clock : Clock} {sources : List String} {mo maker : Moment}
  {method bound : Closure} {object : Handle}

/-- At every moment of runs of sources scopes and frames go together. -/
theorem Moment.Happens.agreement (h : mo.Happens limits clock (sources.map .program)) :
    (agreement (Occurs sources) limits.rounds).pre mo.task mo.machine := by
  obtain ⟨before, request, after, hrequests, h⟩ := h
  obtain ⟨earlier, later, rfl, rfl, hlater⟩ := List.map_eq_append_iff.1 hrequests
  obtain ⟨source, rest, rfl, rfl, -⟩ := List.map_eq_cons_iff.1 hlater
  have h :
      Evaluated limits ((Machine.initial clock).serve limits (earlier.map .program)) source mo := h
  refine h.agreement (List.mem_append_right _ List.mem_cons_self) ?_
  exact served_standsIn (fun _ hs => List.mem_append_left _ hs) (initial_standsIn _ clock)

/-- `this` is what is bound in the frame at its distance. -/
theorem eval_this_of_bound {rounds depth distance frame : Nat} {keyword : Token}
    {seen : List Scope} {machine : Machine} {value : Value}
    (hframe : machine.environment.chain[distance]? = some frame)
    (hvalue : (machine.heap.frames.bindings frame).get? "this" = some value) :
    eval rounds (depth + 1) (.this keyword (some (Int.ofNat distance)) seen) machine =
      .ok value machine := by
  have hframe : machine.environment.chain[(Int.ofNat distance).toNat]? = some frame := hframe
  have hvalue : (machine.heap.frames.bindings frame).get?
      (Token.ident "this" keyword.line).lexeme = some value := hvalue
  have hget : Frames.getAt machine.environment (Int.ofNat distance) (.ident "this" keyword.line)
      machine.heap.frames = .ok value machine.heap.frames := by
    rw [Frames.getAt_eq rfl hframe, hvalue]
  rw [eval]
  exact onFrames_of_ok hget

/-- **`this` is the instance** that the copy was bound to for which the code runs. -/
theorem Moment.RunsFor.eval_this {depth : Nat} {keyword : Token} {hops : Option Int}
    {seen : List Scope} {machine : Machine}
    (hmaker : maker.Happens limits clock (sources.map .program))
    (ho : maker.Obtains limits.rounds method object bound)
    (h : Moment.RunsFor limits clock (sources.map .program) bound
      ⟨depth + 1, .expr (.this keyword hops seen), machine⟩) :
    eval limits.rounds (depth + 1) (.this keyword hops seen) machine =
      .ok (.instance object) machine := by
  obtain ⟨⟨s, hs, hencloses⟩, inner, hchain⟩ := h.enclosed
  obtain ⟨base, hplaced, hbase⟩ := ho.placed hmaker
  obtain ⟨-, scopes, ⟨hseen, hhops⟩, hopened⟩ := (hplaced s hs).enclosed hencloses
  obtain ⟨distance, hdistance, hfound, hready⟩ := hopened.hopsIn_this
  -- the machine stands in the same scopes, with a frame for each
  obtain ⟨-, scopes', ⟨hseen', -⟩, hstands⟩ := h.happens.agreement
  obtain rfl : scopes' = scopes := hseen'.symm.trans hseen
  obtain ⟨frames, hframes, hlength, -⟩ := hstands.covers.chain_eq
  have hinner : inner.length = distance := by
    have hlengths := congrArg List.length (hframes.symm.trans hchain)
    simp only [List.length_append, List.length_cons, List.length_nil, Environment.chain,
      hbase] at hlengths
    omega
  obtain ⟨frame, hframe, hbinds⟩ := hstands.covers.bound hready
  have hbound : machine.environment.chain[distance]? = some bound.environment.frame := by
    rw [show machine.environment.chain = _ from hchain, ← hinner,
      List.getElem?_append_right (Nat.le_refl _), Nat.sub_self]
    rfl
  obtain rfl : frame = bound.environment.frame := Option.some.inj (hframe.symm.trans hbound)
  -- the value there lasts to the end, where it is the instance
  obtain ⟨value, hvalue⟩ := Option.isSome_iff_exists.1 hbinds
  have hlast := h.happens.lasts_from.this _ _ hvalue
  rw [ho.this_at_end hmaker] at hlast
  obtain rfl : .instance object = value := Option.some.inj hlast
  rw [hfound] at hhops
  subst hhops
  exact eval_this_of_bound hbound hvalue

end Value

/-! ## Code with `this` -/

section Exists

variable {limits : Limits} {clock : Clock} {mo mid : Moment}

/-- Code runs for a copy of some method, bound to some instance. -/
def Moment.RunsForSome (limits : Limits) (clock : Clock) (requests : List Request) (mo : Moment) :
    Prop :=
  ∃ (maker : Moment) (method : Closure) (object : Handle) (bound : Closure),
    maker.Happens limits clock requests ∧ maker.Obtains limits.rounds method object bound ∧
      mo.RunsFor limits clock requests bound

/-- Code with `this` runs for a copy, if this is so of the code that called it and of code that ran
when there were fewer functions. -/
theorem Moment.Calls.runsForSome {requests : List Request}
    (hmid : mid.Happens limits clock requests) (hc : mid.Calls limits.rounds mo)
    (hcaller : mid.task.HasThis → mid.RunsForSome limits clock requests)
    (hmakers : ∀ maker : Moment, maker.Happens limits clock requests →
      maker.machine.heap.functions.size < mo.machine.heap.functions.size →
        maker.task.HasThis → maker.RunsForSome limits clock requests)
    (hthis : mo.task.HasThis) : mo.RunsForSome limits clock requests := by
  rcases hc.own_or_enters with ⟨hown, -⟩ | ⟨closure, henters⟩
  · obtain ⟨maker, method, object, bound, hmaker, ho, hr⟩ :=
      hcaller (hthis.of_part (Task.mem_methodParts_of_mem_ownParts hown))
    exact ⟨maker, method, object, bound, hmaker, ho, .part hr hc hown⟩
  · obtain ⟨-, args, start, hinvokes, hbody⟩ := id henters
    rcases exists_maker_of_invokes hmid hinvokes with ⟨method, object, ho⟩ |
      ⟨maker, hmaker, hlt, hdeclares | ⟨method, object, ho⟩⟩
    · exact ⟨mid, method, object, closure, hmid, ho, .body hmid henters⟩
    · obtain ⟨⟨s, hs, htask⟩, -⟩ := henters.body
      rw [htask] at hthis
      have hle := (hmid.lasts_bodyCalls hinvokes hbody).size_le
      obtain ⟨maker', method, object, bound, hmaker', ho, hr⟩ :=
        hmakers maker hmaker (Nat.lt_of_lt_of_le hlt hle) (hthis.of_part (hdeclares.body.1 s hs))
      exact ⟨maker', method, object, bound, hmaker', ho, .inner hr hdeclares hmid henters⟩
    · exact ⟨maker, method, object, closure, hmaker, ho, .body hmid henters⟩

theorem Moment.Reaches.runsForSome {requests : List Request} {first : Moment}
    (hr : first.Reaches limits.rounds mo) (hfirst : first.Happens limits clock requests)
    (hnone : ¬ first.task.HasThis)
    (hmakers : ∀ maker : Moment, maker.Happens limits clock requests →
      maker.machine.heap.functions.size < mo.machine.heap.functions.size →
        maker.task.HasThis → maker.RunsForSome limits clock requests)
    (hthis : mo.task.HasThis) : mo.RunsForSome limits clock requests := by
  induction hr with
  | refl => exact absurd hthis hnone
  | @tail mid mo hr hc ih =>
    have hmid := hfirst.reaches hr
    have hle := (hmid.lasts_calls hc).size_le
    have hcaller := ih fun maker hmaker hlt => hmakers maker hmaker (Nat.lt_of_lt_of_le hlt hle)
    exact hc.runsForSome hmid hcaller hmakers hthis

/-- **Code with `this` always runs for a bound copy of a method.** -/
theorem exists_runsFor {sources : List String}
    (h : mo.Happens limits clock (sources.map .program)) (hthis : mo.task.HasThis) :
    mo.RunsForSome limits clock (sources.map .program) := by
  -- by how many functions there are when the code begins
  induction hn : mo.machine.heap.functions.size using Nat.strongRecOn generalizing mo with
  | ind n ih =>
    obtain ⟨before, request, after, hrequests, hevaluates⟩ := h
    obtain ⟨earlier, later, -, rfl, hlater⟩ := List.map_eq_append_iff.1 hrequests
    obtain ⟨source, rest, -, rfl, -⟩ := List.map_eq_cons_iff.1 hlater
    obtain ⟨bs, s, as, value, first, hl, hb, hr⟩ := hevaluates
    have hfirst : Moment.Happens limits clock (sources.map .program)
        ⟨limits.depth, .stmt s, first⟩ :=
      ⟨_, _, after, hrequests, bs, s, as, value, first, hl, hb, .refl⟩
    have hnone : ¬ (Task.stmt s).HasThis :=
      load_no_this hl s (List.mem_append_right _ List.mem_cons_self)
    refine hr.runsForSome hfirst hnone (fun maker hmaker hlt ht => ?_) hthis
    exact ih _ (hn ▸ hlt) hmaker ht rfl

end Exists

/-- **`this` is bound once and for all.**  Let a machine run any sources, and let `this` be
evaluated in their course, anywhere below the limit of nesting.  Then code of a method runs for a
copy of the method that was bound to an instance, by reading it as a property or by calling the
class; and whichever copy it runs for, directly, in a part, or in functions that were declared
there, evaluating `this` succeeds with the instance that the copy was bound to. -/
theorem this_is_receiver (limits : Limits) (clock : Clock) (sources : List String) (depth : Nat)
    (keyword : Token) (hops : Option Int) (seen : List Scope) (machine : Machine)
    (h : Moment.Happens limits clock (sources.map .program)
      ⟨depth + 1, .expr (.this keyword hops seen), machine⟩) :
    (∃ (maker : Moment) (method : Closure) (object : Handle) (bound : Closure),
      maker.Happens limits clock (sources.map .program) ∧
        maker.Obtains limits.rounds method object bound ∧
        Moment.RunsFor limits clock (sources.map .program) bound
          ⟨depth + 1, .expr (.this keyword hops seen), machine⟩ ∧
        ∃ s ∈ method.body, (Task.stmt s).Encloses (.expr (.this keyword hops seen))) ∧
      ∀ (maker : Moment) (method : Closure) (object : Handle) (bound : Closure),
        maker.Happens limits clock (sources.map .program) →
          maker.Obtains limits.rounds method object bound →
          Moment.RunsFor limits clock (sources.map .program) bound
            ⟨depth + 1, .expr (.this keyword hops seen), machine⟩ →
            eval limits.rounds (depth + 1) (.this keyword hops seen) machine =
              .ok (.instance object) machine := by
  constructor
  · obtain ⟨maker, method, object, bound, hmaker, ho, hr⟩ :=
      exists_runsFor h ⟨keyword, hops, seen, .refl⟩
    have hbody : bound.body = method.body := by cases ho <;> rfl
    exact ⟨maker, method, object, bound, hmaker, ho, hr, hbody ▸ hr.enclosed.1⟩
  · exact fun maker method object bound hmaker ho hr => hr.eval_this hmaker ho

/-- Nothing that is reached from a moment which succeeds is at the limit of nesting. -/
theorem Moment.Reaches.depth_ne_zero {rounds : Nat} {mo mo' : Moment} {result : mo.task.Result}
    {machine : Machine} (hr : mo.Reaches rounds mo')
    (h : mo.task.run rounds mo.depth mo.machine = .ok result machine) : mo'.depth ≠ 0 := by
  intro h0
  have hraises : mo'.Raises rounds .tooDeep := by
    unfold Moment.Raises
    rw [h0]
  obtain ⟨machine', hfails⟩ := (Moment.fails_iff rounds).2 ⟨mo', hr, hraises⟩
  rw [h] at hfails
  cases hfails

/-- Whether a node is `this`. -/
def Task.isThis : Task → Bool
  | .expr (.this _ _ _) => true
  | _ => false

/-- Whether a source is a single statement that succeeds, with `this` evaluated in its course. -/
def evaluatesThis (limits : Limits) (machine : Machine) (source : String) : Bool :=
  match load source with
  | .ok [s] =>
    ((Task.stmt s).log limits.rounds limits.depth machine).any (·.begun?.any Task.isThis) &&
      (exec limits.rounds limits.depth s).succeeds machine
  | _ => false

theorem exists_this_of_evaluatesThis {limits : Limits} {machine : Machine} {source : String}
    (h : evaluatesThis limits machine source = true) :
    ∃ depth keyword hops seen there,
      Evaluated limits machine source ⟨depth + 1, .expr (.this keyword hops seen), there⟩ := by
  unfold evaluatesThis at h
  split at h
  case h_2 => cases h
  case h_1 s hl =>
    obtain ⟨hlog, hsucceeds⟩ := (Bool.and_eq_true_iff).1 h
    obtain ⟨event, he, hb⟩ := List.any_eq_true.1 hlog
    obtain ⟨task, hbegun, hthis⟩ := (Option.any_eq_true _ _).1 hb
    obtain ⟨depth, there, hr⟩ := Task.begun_iff_reaches.1 ⟨event, he, hbegun⟩
    obtain ⟨outcome, machine', hs⟩ := Eval.exists_of_succeeds hsucceeds
    have hdepth : depth ≠ 0 := hr.depth_ne_zero hs
    obtain ⟨depth, rfl⟩ := Nat.exists_eq_succ_of_ne_zero hdepth
    unfold Task.isThis at hthis
    split at hthis
    case h_2 => cases hthis
    case h_1 keyword hops seen =>
      exact ⟨depth, keyword, hops, seen, there, [], s, [], .nil, machine, hl, rfl, hr⟩

/-- A bound copy of a method is kept in a variable, and the method makes a function with `this`. -/
def keptMethod : String :=
  "class A \x7b m() \x7b return fun () \x7b return this; \x7d; \x7d \x7d var g = A().m;"

/-- The bound copy is called by a later source, and then the function that it makes. -/
theorem this_is_receiver_later :
    ∃ depth keyword hops seen machine object,
      Moment.Happens .standard (.starting 0) ([keptMethod, "g()();"].map .program)
        ⟨depth + 1, .expr (.this keyword hops seen), machine⟩ ∧
      eval Limits.standard.rounds (depth + 1) (.this keyword hops seen) machine =
        .ok (.instance object) machine := by
  have hrun : evaluatesThis .standard
      ((Machine.initial (.starting 0)).serve .standard [.program keptMethod]) "g()();" = true := by
    decide +kernel
  obtain ⟨depth, keyword, hops, seen, machine, hevaluated⟩ := exists_this_of_evaluatesThis hrun
  have hhappens : Moment.Happens .standard (.starting 0) ([keptMethod, "g()();"].map .program)
      ⟨depth + 1, .expr (.this keyword hops seen), machine⟩ :=
    ⟨[.program keptMethod], .program "g()();", [], rfl, hevaluated⟩
  obtain ⟨⟨maker, method, object, bound, hmaker, ho, hr, -⟩, hthis⟩ :=
    this_is_receiver .standard (.starting 0) [keptMethod, "g()();"] depth keyword hops seen machine
      hhappens
  exact ⟨depth, keyword, hops, seen, machine, object, hhappens,
    hthis maker method object bound hmaker ho hr⟩

end ScopedScript

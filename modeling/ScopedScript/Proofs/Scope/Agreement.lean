import ScopedScript.Proofs.Moments
import ScopedScript.Proofs.Scope.Sound

/-!
# Evaluation keeps to the scopes

Scope analysis counts scopes, evaluation counts frames.  The contract `agreement` says how the
two go together: a node is evaluated in an environment that covers the scopes it is located
in, on a sound heap; a statement leaves the names it declares bound; and the only defect that
can be raised is that the frame of a located name lacks it, because the name is not ready.
Following the plan of each node once shows that evaluation keeps to it.

## Main definitions

* `Access`, `Task.access?`, `Access.Misses`: references, and frames that lack a name.
* `agreement`: the contract.

## Main results

* `agreement_kept`: every plan keeps to the contract.
-/

namespace ScopedScript

/-! ## Accesses -/

/-- **A reference to a variable**: the name, the number of frames out that its variable lives
if it is not global, and the scopes around the reference. -/
structure Access where
  name : Token
  hops : Option Int
  scopes : List Scope

/-- The reference that a node is, if it is one. -/
def Task.access? : Task → Option Access
  | expr (.variable name hops scopes) => some ⟨name, hops, scopes⟩
  | expr (.assign name _ hops scopes) => some ⟨name, hops, scopes⟩
  | expr (.this keyword hops scopes) => some ⟨.ident "this" keyword.line, hops, scopes⟩
  | _ => none

/-- The machine on which the variable of a reference is looked up: at once, or after the value
to assign has been evaluated. -/
def Task.LooksUpOn (rounds depth : Nat) : Task → Machine → Machine → Prop
  | expr (.assign _ value _ _), machine, there =>
    ∃ v, eval rounds depth value machine = .ok v there
  | _, machine, there => there = machine

namespace Access

/-- **The frame of the variable lacks its name.** -/
def Misses (r : Access) (machine : Machine) (distance : Nat) : Prop :=
  r.hops = some (Int.ofNat distance) ∧
    ∃ frame, machine.environment.chain[distance]? = some frame ∧
      ¬ machine.heap.frames.Binds frame r.name.lexeme

/-- The error about a frame that lacks a name. -/
def missing (r : Access) (distance : Nat) : RuntimeError :=
  .onToken r.name (.missingAtDistance r.name.lexeme (Int.ofNat distance))

/-- **How looking the variable up ends**: it is there; or it is a global that is not, which is
an error of the program; or its frame lacks the name, which is not ready. -/
inductive Ends (r : Access) (machine : Machine) {α : Type} :
    EStateM.Result Stop Machine α → Prop where
  | found {a : α} {frames : Frames} (grown : machine.heap.frames.Extends frames) :
      Ends r machine (.ok a (machine.withFrames frames))
  | refused {stop : Stop} (harmless : stop.isDefect = false) :
      Ends r machine (.error stop machine)
  | missed {distance : Nat} (misses : r.Misses machine distance)
      (unready : markAt r.scopes distance r.name.lexeme = some false) :
      Ends r machine (.error (.error (r.missing distance)) machine)

/-- The reference is located in scopes. -/
structure LocatedIn (r : Access) (scopes : List Scope) : Prop where
  name : r.name.kind = .identifier
  seen : r.scopes = scopes
  hops : r.hops = (hopsIn scopes r.name.lexeme).map Int.ofNat

end Access

/-- A node is located with the reference that it makes. -/
theorem Task.LocatedIn.access {task : Task} {scopes : List Scope} {r : Access}
    (h : task.LocatedIn scopes) (hr : task.access? = some r) : r.LocatedIn scopes := by
  cases task with
  | stmt s => cases hr
  | expr e =>
    cases e with
    | «variable» name hops seen =>
      cases hr
      exact ⟨h.1, h.2.1, h.2.2⟩
    | assign name value hops seen =>
      cases hr
      exact ⟨h.1, h.2.2.1, h.2.2.2⟩
    | this keyword hops seen =>
      cases hr
      exact ⟨rfl, h.1, h.2⟩
    | _ => cases hr

namespace Access.LocatedIn

variable {r : Access} {scopes : List Scope} {machine : Machine}

/-- The frame of a located variable is there, and lacks the name only if it is not ready. -/
theorem frame (h : r.LocatedIn scopes)
    (hc : Covers machine.heap.frames scopes machine.environment.chain) {distance : Nat}
    (hd : r.hops = some (Int.ofNat distance)) :
    ∃ frame, machine.environment.chain[distance]? = some frame ∧
      (¬ machine.heap.frames.Binds frame r.name.lexeme →
        markAt r.scopes distance r.name.lexeme = some false) := by
  rw [h.hops, Option.map_eq_some_iff] at hd
  obtain ⟨distance', hh, hd⟩ := hd
  obtain rfl : distance' = distance := Int.ofNat.inj hd
  rw [h.seen]
  exact hc.locate hh

/-- What a step does that looks a located variable up, by the number of frames out or by its
name among the globals. -/
theorem step {α : Type} {byName : FrameM α} {byDistance : Int → FrameM α}
    (h : r.LocatedIn scopes)
    (hc : Covers machine.heap.frames scopes machine.environment.chain)
    (hn : match machine.heap.frames.find? Environment.global.chain r.name.lexeme with
      | some _ => ∃ a frames, machine.heap.frames.Extends frames ∧
          byName machine.heap.frames = .ok a frames
      | none => byName machine.heap.frames =
          .error (Frames.undefined r.name) machine.heap.frames)
    (hd : ∀ distance frame, machine.environment.chain[distance]? = some frame →
      match (machine.heap.frames.bindings frame).get? r.name.lexeme with
      | some _ => ∃ a frames, machine.heap.frames.Extends frames ∧
          byDistance (Int.ofNat distance) machine.heap.frames = .ok a frames
      | none => byDistance (Int.ofNat distance) machine.heap.frames =
          .error (r.missing distance) machine.heap.frames) :
    r.Ends machine
      ((match r.hops with
        | some hops => Eval.onFrames (byDistance hops)
        | none => Eval.onFrames byName) machine) := by
  -- Analysis found the name in one of the scopes, or in none of them.
  cases hh : hopsIn scopes r.name.lexeme with
  | none =>
    have hops : r.hops = none := by rw [h.hops, hh, Option.map_none]
    rw [hops]
    dsimp only
    split at hn
    · obtain ⟨a, frames, he, hn⟩ := hn
      rw [onFrames_of_ok hn]
      exact .found he
    · rw [onFrames_of_error hn]
      exact .refused rfl
  | some distance =>
    -- found: the frame that stands for the scope is at that distance
    have hops : r.hops = some (Int.ofNat distance) := by rw [h.hops, hh, Option.map_some]
    obtain ⟨frame, hf, hm⟩ := h.frame hc hops
    have hd := hd distance frame hf
    rw [hops]
    dsimp only
    split at hd
    · obtain ⟨a, frames, he, hd⟩ := hd
      rw [onFrames_of_ok hd]
      exact .found he
    -- a frame without the name: only a scope in which the name is not ready allows it
    · rename_i hb
      have hn : ¬ machine.heap.frames.Binds frame r.name.lexeme := by simp [Frames.Binds, hb]
      rw [onFrames_of_error hd]
      exact .missed ⟨hops, frame, hf, hn⟩ (hm hn)

/-- **Reading a located variable.** -/
theorem lookup (h : r.LocatedIn scopes)
    (hc : Covers machine.heap.frames scopes machine.environment.chain) :
    r.Ends machine (Eval.lookup r.name r.hops machine) := by
  have he : Eval.lookup r.name r.hops machine =
      (match r.hops with
        | some hops => Eval.onFrames (Frames.getAt machine.environment hops r.name)
        | none => Eval.onFrames (Frames.get .global r.name)) machine := by
    cases r.hops <;> rfl
  rw [he]
  refine h.step hc ?_ fun distance frame hf => ?_
  · rw [Frames.get_eq h.name]
    cases machine.heap.frames.find? Environment.global.chain r.name.lexeme with
    | some found => exact ⟨_, _, .refl _, rfl⟩
    | none => rfl
  · rw [Frames.getAt_eq h.name hf]
    cases (machine.heap.frames.bindings frame).get? r.name.lexeme with
    | some value => exact ⟨_, _, .refl _, rfl⟩
    | none => rfl

/-- **Assigning a located variable.** -/
theorem assign (h : r.LocatedIn scopes)
    (hc : Covers machine.heap.frames scopes machine.environment.chain) (value : Value) :
    r.Ends machine (Eval.assign r.name r.hops value machine) := by
  have he : Eval.assign r.name r.hops value machine =
      (match r.hops with
        | some hops => Eval.onFrames (Frames.assignAt machine.environment hops r.name value)
        | none => Eval.onFrames (Frames.assign .global r.name value)) machine := by
    cases r.hops <;> rfl
  rw [he]
  refine h.step hc ?_ fun distance frame hf => ?_
  · rw [Frames.assign_eq h.name]
    cases machine.heap.frames.find? Environment.global.chain r.name.lexeme with
    | some found => exact ⟨_, _, Frames.extends_bind _ _ _ _, rfl⟩
    | none => rfl
  · rw [Frames.assignAt_eq h.name hf]
    cases (machine.heap.frames.bindings frame).get? r.name.lexeme with
    | some _ => exact ⟨_, _, Frames.extends_bind _ _ _ _, rfl⟩
    | none => rfl

end Access.LocatedIn

/-! ## The contract -/

/-- The name that a statement declares, if it declares one. -/
def Stmt.declares? : Stmt → Option String
  | .var name _ => some name.lexeme
  | .function decl => some decl.name.lexeme
  | .class name _ => some name.lexeme
  | _ => none

/-- What a statement leaves behind: the name it declares is bound, unless it returned. -/
def Stmt.Declared (s : Stmt) (outcome : Outcome) (machine : Machine) : Prop :=
  ∀ value, outcome = .normal value → ∀ name, s.declares? = some name →
    machine.heap.frames.Binds machine.environment.frame name

/-- The scopes after a statement are covered by the frames after it. -/
theorem Covers.scopesAfter {frames : Frames} {scopes : List Scope} {env : Environment} {s : Stmt}
    (h : Covers frames scopes env.chain)
    (hd : ∀ name, s.declares? = some name → frames.Binds env.frame name) :
    Covers frames (s.scopesAfter scopes) env.chain := by
  cases s with
  | var name initializer => exact (h.unready name.lexeme).ready (hd _ rfl)
  | function decl => exact h.ready (hd _ rfl)
  | «class» name methods => exact h.ready (hd _ rfl)
  | _ => exact h

/-- **How scopes and frames go together.**  A node is evaluated on a sound machine among the
scopes it is located in, a statement leaves what it declares bound, and the only defect comes
from a name that is not ready. -/
def agreement (known : Task → Prop) (rounds : Nat) : Contract where
  pre task machine := known task ∧
    ∃ scopes, task.LocatedIn scopes ∧ machine.StandsIn known scopes
  post
    | .expr _, _, _, _ => True
    | .stmt s, _, outcome, machine' => s.Declared outcome machine'
  change := Machine.Grows known
  blame depth task machine there stop := stop.isDefect = true →
    ∃ r distance, task.access? = some r ∧ task.LooksUpOn rounds depth machine there ∧
      r.Misses there distance ∧ markAt r.scopes distance r.name.lexeme = some false ∧
        stop = .error (r.missing distance)

namespace Agreement

variable {known : Task → Prop} {rounds : Nat} {perform : (task : Task) → Eval task.Result}
  {blame : Machine → Stop → Prop} {α β : Type} {ensures : α → Machine → Prop}
  {machine : Machine} {scopes : List Scope}

/-- Only defects are anyone's fault. -/
def Lenient (blame : Machine → Stop → Prop) : Prop :=
  ∀ there stop, stop.isDefect = false → blame there stop

/-- A harmless action is safe if the plan is safe after it. -/
theorem safe_act {action : Action β} {next : β → Plan α} {middle : β → Machine → Prop}
    (h : Harmless known action.run machine middle) (hb : Lenient blame)
    (hn : ∀ b machine', machine.Grows known machine' → middle b machine' →
      (next b).Safe (agreement known rounds) perform blame machine' ensures) :
    (Plan.act action next).Safe (agreement known rounds) perform blame machine ensures := by
  constructor
  · intro stop machine' hs
    obtain ⟨hg, hd⟩ := h.1 stop machine' hs
    exact ⟨hg, hb machine stop hd⟩
  · intro b machine' hs
    obtain ⟨hg, hm⟩ := h.2 b machine' hs
    exact ⟨hg, hn b machine' hg hm⟩

/-- A computation is safe if its errors are the program's. -/
theorem safe_compute {result : Except RuntimeError β} {next : β → Plan α}
    (h : ∀ e, result = .error e → e.fault.isDefect = false) (hb : Lenient blame)
    (hn : ∀ b, result = .ok b →
      (next b).Safe (agreement known rounds) perform blame machine ensures) :
    (Plan.act (.compute result) next).Safe (agreement known rounds) perform blame machine
      ensures := by
  refine safe_act (.ofExcept h) hb fun b machine' _ hr => ?_
  obtain ⟨hr, rfl⟩ := hr
  exact hn b hr

/-- A tick changes nothing that scopes know of. -/
theorem safe_tick {next : Nat → Plan α} (hb : Lenient blame)
    (hn : ∀ origin machine', (next origin).Safe (agreement known rounds) perform blame machine'
      ensures) :
    (Plan.act .tick next).Safe (agreement known rounds) perform blame machine ensures := by
  have ht : Harmless known Action.tick.run machine fun _ _ => True :=
    .of_eq rfl (.of_same rfl rfl rfl rfl) trivial
  exact safe_act ht hb fun origin machine' _ _ => hn origin machine'

/-- A task among the scopes that its machine stands in is safe. -/
theorem safe_call {task : Task} {next : task.Result → Plan α} (hk : known task)
    (hl : task.LocatedIn scopes) (hm : machine.StandsIn known scopes)
    (hn : ∀ r machine', perform task machine = .ok r machine' →
      machine'.StandsIn known scopes → (agreement known rounds).post task machine r machine' →
        (next r).Safe (agreement known rounds) perform blame machine' ensures) :
    (Plan.call task next).Safe (agreement known rounds) perform blame machine ensures :=
  ⟨⟨hk, scopes, hl, hm⟩, fun r machine' hr hg hp => hn r machine' hr (hm.mono hg) hp⟩

/-- Expressions in a row are safe among the same scopes. -/
theorem safe_evalAll {es : List Expr} {next : List Value → Plan α}
    (hk : ∀ e ∈ es, known (.expr e)) (hl : Expr.AllLocatedIn es scopes)
    (hm : machine.StandsIn known scopes)
    (hn : ∀ vs machine', machine'.StandsIn known scopes →
      (next vs).Safe (agreement known rounds) perform blame machine' ensures) :
    (Plan.evalAll es next).Safe (agreement known rounds) perform blame machine ensures := by
  induction es generalizing machine next with
  | nil => exact hn [] machine hm
  | cons e es ih =>
    obtain ⟨he, hk⟩ := List.forall_mem_cons.1 hk
    refine safe_call he hl.1 hm fun v machine' _ hm _ => ?_
    exact ih hk hl.2 hm fun vs machine'' hm => hn (v :: vs) machine'' hm

/-- Statements in order: each finds the names declared before it bound. -/
theorem safe_execAll {ss : List Stmt} {ensures : Outcome → Machine → Prop}
    (hk : ∀ s ∈ ss, known (.stmt s)) (hl : Stmt.AllLocatedIn ss scopes)
    (hm : machine.StandsIn known scopes) (he : ∀ outcome machine', ensures outcome machine') :
    (Plan.execAll ss).Safe (agreement known rounds) perform blame machine ensures := by
  induction ss generalizing machine scopes with
  | nil => exact he _ _
  | cons s ss ih =>
    obtain ⟨hs, hk⟩ := List.forall_mem_cons.1 hk
    refine safe_call hs hl.1 hm fun outcome machine' _ hm hp => ?_
    cases outcome with
    | returned value => exact he _ _
    | normal value => exact ih hk hl.2 ⟨hm.covers.scopesAfter (hp value rfl), hm.sound⟩

theorem safe_repeatWhile {condition : Expr} {body : Stmt} {ensures : Outcome → Machine → Prop}
    (hb : Lenient blame) (hkc : known (.expr condition)) (hkb : known (.stmt body))
    (hc : condition.LocatedIn scopes) (hl : body.LocatedIn scopes)
    (hm : machine.StandsIn known scopes) (he : ∀ outcome machine', ensures outcome machine')
    (n : Nat) :
    (Plan.repeatWhile condition body n).Safe (agreement known rounds) perform blame machine
      ensures := by
  -- Induction on the rounds left; each round starts in the same scopes as the loop.
  induction n generalizing machine with
  | zero =>
    have hg : Harmless known Action.giveUp.run machine fun _ _ => True := .of_error rfl rfl
    exact safe_act hg hb fun outcome machine' _ _ => he outcome machine'
  | succ n ih =>
    refine safe_call hkc hc hm fun v machine' _ hm _ => ?_
    refine safe_compute (fun _ => Value.truth_not_defect) hb fun holds _ => ?_
    split
    · refine safe_call hkb hl hm fun outcome machine'' _ hm _ => ?_
      cases outcome with
      | returned value => exact he _ _
      | normal value => exact ih hm
    · exact he _ _

/-! ## Calls -/

/-- Calling a function in place runs its body among the scopes it is located in. -/
theorem safe_invoke {closure : Closure} {args : List Value} {next : Value → Plan α}
    (hb : Lenient blame) (hs : machine.heap.Sound known)
    (hc : closure.Sound known machine.heap.frames) (ha : args.length = closure.params.length)
    (hn : ∀ v machine', (next v).Safe (agreement known rounds) perform blame machine' ensures) :
    (Plan.invoke closure args next).Safe (agreement known rounds) perform blame machine
      ensures := by
  -- keep the closure in place for the initializer, whose receiver is read after the body
  have hplace := hc
  obtain ⟨scopes, hc, hl, -⟩ := hc
  refine safe_act (harmless_openCall hc hl.names ha) hb fun env machine' hg hc => ?_
  refine safe_execAll hl.known hl.body ⟨hc, hg.sound hs⟩ fun outcome machine'' hg' => ?_
  split
  · rename_i hi
    have hplace := (hplace.mono hg.frames).mono hg'.frames
    exact safe_act (harmless_receiver hplace hi) hb fun v last _ _ => hn v last
  · cases outcome with
    | returned value => exact hn _ _
    | normal value => exact hn _ _

/-- Making an instance is safe: it changes no frame, so the methods stay in place. -/
theorem safe_construct {handle : Handle} {cls : ClassDef} {args : List Value}
    {ensures : Value → Machine → Prop} (hb : Lenient blame) (hs : machine.heap.Sound known)
    (hc : cls.Sound known machine.heap.frames) (ha : args.length = cls.arity)
    (he : ∀ v machine', ensures v machine') :
    (Plan.construct handle cls args).Safe (agreement known rounds) perform blame machine
      ensures := by
  have hcreate : Harmless known (Action.create handle).run machine fun _ _ => True :=
    .of_eq rfl (.of_same rfl rfl rfl rfl) trivial
  refine safe_act hcreate hb fun object machine' hg _ => ?_
  have hc := hc.mono hg.frames
  unfold ClassDef.arity at ha
  split
  · rename_i initializer hi
    rw [hi] at ha
    refine safe_act (harmless_bindMethod (hc _ _ hi) object) hb
      fun bound machine'' hg' hbound => ?_
    obtain ⟨hbound, hp⟩ := hbound
    refine safe_invoke hb (hg'.sound (hg.sound hs)) hbound ?_ fun v last => he _ _
    rw [hp]
    exact ha
  · exact he _ _

/-- Calling a value is safe: functions and classes are found on the sound heap. -/
theorem safe_apply {callee : Value} {paren : Token} {args : List Value}
    {ensures : Value → Machine → Prop} (hb : Lenient blame) (hs : machine.heap.Sound known)
    (he : ∀ v machine', ensures v machine') :
    (Plan.apply callee paren args).Safe (agreement known rounds) perform blame machine
      ensures := by
  refine safe_act (harmless_callable hs callee) hb fun callable machine' _ hc => ?_
  obtain ⟨rfl, hf, hcls⟩ := hc
  cases callable with
  | none => exact safe_compute (fun e h => by cases h; rfl) hb fun v _ => he v _
  | some callable =>
    dsimp only
    split
    · exact safe_compute (fun e h => by cases h; rfl) hb fun v _ => he v _
    · rename_i ha
      cases callable with
      | function closure =>
        -- the arity was checked before, so there is an argument for each parameter
        have ha : args.length = closure.params.length := Int.ofNat.inj (Classical.not_not.1 ha)
        exact safe_invoke hb hs (hf closure rfl) ha fun v machine' => he v machine'
      | native code =>
        have hn : Harmless known (Action.native code args).run machine' fun _ _ => True := by
          obtain ⟨label, arity, action⟩ := code
          cases action with
          | clock => exact .of_eq rfl (.of_same rfl rfl rfl rfl) trivial
          | collect => exact .of_eq rfl (.refl _) trivial
        exact safe_act hn hb fun v machine'' _ _ => he v machine''
      | «class» handle cls =>
        have ha : args.length = cls.arity := Int.ofNat.inj (Classical.not_not.1 ha)
        exact safe_construct hb hs (hcls handle cls rfl) ha he

/-! ## Expressions and statements -/

theorem lenient_blame (depth : Nat) (task : Task) (machine : Machine) :
    Lenient ((agreement known rounds).blame depth task machine) := by
  intro there stop hs hd
  rw [hs] at hd
  cases hd

/-- An action that looks the variable of a node up. -/
theorem safe_access {depth : Nat} {task : Task} {r : Access} {start : Machine}
    {action : Action β} {next : β → Plan α} (hr : task.access? = some r)
    (hl : task.LooksUpOn rounds depth start machine)
    (h : r.Ends machine (action.run machine))
    (hn : ∀ b machine',
      (next b).Safe (agreement known rounds) perform
        ((agreement known rounds).blame depth task start) machine' ensures) :
    (Plan.act action next).Safe (agreement known rounds) perform
      ((agreement known rounds).blame depth task start) machine ensures := by
  constructor
  · intro stop machine' hs
    rw [hs] at h
    cases h with
    | refused hd => exact ⟨.refl machine, lenient_blame depth task start machine stop hd⟩
    | missed hm hu => exact ⟨.refl machine, fun _ => ⟨r, _, hr, hl, hm, hu, rfl⟩⟩
  · intro b machine' hs
    rw [hs] at h
    cases h with
    | found hf => exact ⟨.withFrames hf, hn b _⟩

/-- **An expression keeps to the contract.** -/
theorem safe_expr (hclosed : Task.Closed known) {e : Expr} (hk : known (.expr e))
    (hl : e.LocatedIn scopes) (hm : machine.StandsIn known scopes) (depth : Nat) :
    e.plan.Safe (agreement known rounds) (Task.run rounds depth)
      ((agreement known rounds).blame depth (.expr e) machine) machine fun _ _ => True := by
  have hparts := hclosed hk
  have hb : Lenient ((agreement known rounds).blame depth (.expr e) machine) :=
    lenient_blame depth (.expr e) machine
  have hr : ∀ r, (Task.expr e).access? = some r → r.LocatedIn scopes :=
    fun r => (show (Task.expr e).LocatedIn scopes from hl).access
  -- Each part is evaluated among the same scopes; only references can raise a defect.
  cases e with
  | literal value => trivial
  | «variable» name hops seen =>
    exact safe_access rfl rfl ((hr _ rfl).lookup hm.covers) fun _ _ => trivial
  | assign name value hops seen =>
    refine safe_call (hparts _ (by simp [Task.parts, Expr.parts])) hl.2.1 hm
      fun v machine' hv hm _ => ?_
    exact safe_access rfl ⟨v, hv⟩ ((hr _ rfl).assign hm.covers v) fun _ _ => trivial
  | this keyword hops seen =>
    exact safe_access rfl rfl ((hr _ rfl).lookup hm.covers) fun _ _ => trivial
  | group inner =>
    exact safe_call (hparts _ (by simp [Task.parts, Expr.parts])) hl hm fun _ _ _ _ _ => trivial
  | unary op operand =>
    refine safe_call (hparts _ (by simp [Task.parts, Expr.parts])) hl hm fun v machine' _ hm _ => ?_
    exact safe_tick hb fun _ _ => safe_compute (fun _ => unaryValue_not_defect) hb
      fun _ _ => trivial
  | binary left op right =>
    refine safe_call (hparts _ (by simp [Task.parts, Expr.parts])) hl.1 hm fun a _ _ hm _ => ?_
    refine safe_call (hparts _ (by simp [Task.parts, Expr.parts])) hl.2 hm fun b _ _ hm _ => ?_
    exact safe_tick hb fun _ _ => safe_compute (fun _ => binaryValue_not_defect) hb
      fun _ _ => trivial
  | logical left op right =>
    refine safe_call (hparts _ (by simp [Task.parts, Expr.parts])) hl.1 hm fun a _ _ hm _ => ?_
    refine safe_compute (fun _ => Value.truth_not_defect) hb fun holds _ => ?_
    split
    · trivial
    · refine safe_call (hparts _ (by simp [Task.parts, Expr.parts])) hl.2 hm fun b _ _ hm _ => ?_
      exact safe_compute (fun _ => Value.truth_not_defect) hb fun _ _ => trivial
  | conditional condition whenTrue whenFalse =>
    refine safe_call (hparts _ (by simp [Task.parts, Expr.parts])) hl.1 hm fun v _ _ hm _ => ?_
    refine safe_compute (fun _ => Value.truth_not_defect) hb fun holds _ => ?_
    split
    · exact safe_call (hparts _ (by simp [Task.parts, Expr.parts])) hl.2.1 hm
        fun _ _ _ _ _ => trivial
    · exact safe_call (hparts _ (by simp [Task.parts, Expr.parts])) hl.2.2 hm
        fun _ _ _ _ _ => trivial
  | sequence items =>
    exact safe_evalAll (fun e he => hparts _ (List.mem_map_of_mem he)) hl hm fun _ _ _ => trivial
  | call callee paren args =>
    refine safe_call (hparts _ List.mem_cons_self) hl.1 hm fun f _ _ hm _ => ?_
    refine safe_evalAll (fun e he => hparts _ (List.mem_cons_of_mem _ (List.mem_map_of_mem he)))
      hl.2 hm fun vs machine' hm => ?_
    exact safe_apply hb hm.sound fun _ _ => trivial
  | lambda keyword params body =>
    have hc : ∀ env, (⟨"anonymous", params, body, env, false⟩ : Closure).LocatedIn known scopes :=
      fun env => ⟨fun s hs => hparts _ (List.mem_map_of_mem hs), hl.1, hl.2⟩
    exact safe_act (harmless_makeFunction hm hc) hb fun _ _ _ _ => trivial
  | get object name =>
    refine safe_call (hparts _ (by simp [Task.parts, Expr.parts])) hl hm fun o _ _ hm _ => ?_
    exact safe_act (harmless_property hm.sound o name) hb fun _ _ _ _ => trivial
  | set object name value =>
    refine safe_call (hparts _ (by simp [Task.parts, Expr.parts])) hl.1 hm
      fun o machine' _ hm _ => ?_
    obtain ⟨target, ht⟩ := instance?_eq o machine'
    have hi : Harmless known (Action.instance? o).run machine' fun _ _ => True :=
      .of_eq ht (.refl machine') trivial
    refine safe_act hi hb fun target machine'' hg _ => ?_
    cases target with
    | none => exact safe_compute (fun e h => by cases h; rfl) hb fun _ _ => trivial
    | some target =>
      refine safe_call (hparts _ (by simp [Task.parts, Expr.parts])) hl.2 (hm.mono hg)
        fun v last _ hm _ => ?_
      have hs : Harmless known (Action.setField target.1 name.lexeme v).run last fun _ _ => True :=
        .of_eq rfl (.of_same rfl rfl rfl rfl) trivial
      exact safe_act hs hb fun _ _ _ _ => trivial

/-- **A statement keeps to the contract.** -/
theorem safe_stmt (hclosed : Task.Closed known) {s : Stmt} (hk : known (.stmt s))
    (hl : s.LocatedIn scopes) (hm : machine.StandsIn known scopes) (depth : Nat) :
    (s.plan rounds).Safe (agreement known rounds) (Task.run rounds depth)
      ((agreement known rounds).blame depth (.stmt s) machine) machine s.Declared := by
  have hparts := hclosed hk
  have hb : Lenient ((agreement known rounds).blame depth (.stmt s) machine) :=
    lenient_blame depth (.stmt s) machine
  have hnone : s.declares? = none → ∀ outcome machine', s.Declared outcome machine' :=
    fun hd _ _ _ _ _ hn => by rw [hd] at hn; cases hn
  have hbound : ∀ {name machine'}, s.declares? = some name →
      machine'.heap.frames.Binds machine'.environment.frame name →
        s.Declared .done machine' := by
    intro name machine' hd h _ _ name' hn
    rw [hd] at hn
    cases hn
    exact h
  cases s with
  | expression inner =>
    exact safe_call (hparts _ List.mem_cons_self) hl hm fun _ _ _ _ _ => hnone rfl _ _
  | print inner =>
    refine safe_call (hparts _ List.mem_cons_self) hl hm fun v machine' _ _ _ => ?_
    have hp : Harmless known (Action.print v.text).run machine' fun _ _ => True :=
      .of_eq rfl (.of_same rfl rfl rfl rfl) trivial
    exact safe_act hp hb fun _ _ _ _ => hnone rfl _ _
  | var name initializer =>
    cases initializer with
    | none =>
      exact safe_act (harmless_define hm hl.1 .nil) hb fun _ _ _ h => hbound rfl h
    | some initializer =>
      -- during the initializer the name is declared but not ready
      have hi : machine.StandsIn known (markIn scopes name.lexeme false) :=
        ⟨hm.covers.unready _, hm.sound⟩
      refine safe_call (hparts _ List.mem_cons_self) hl.2 hi fun v machine' _ hm _ => ?_
      exact safe_act (harmless_define hm hl.1 v) hb fun _ _ _ h => hbound rfl h
  | block statements =>
    refine safe_act (harmless_openBlock hm) hb fun env machine' hg hc => ?_
    exact safe_execAll (fun s hs => hparts _ (List.mem_map_of_mem hs)) hl ⟨hc, hg.sound hm.sound⟩
      fun _ _ _ => hnone rfl _ _
  | branch condition whenTrue whenFalse =>
    refine safe_call (hparts _ List.mem_cons_self) hl.1 hm fun v machine' _ hm _ => ?_
    refine safe_compute (fun _ => Value.truth_not_defect) hb fun holds _ => ?_
    split
    · exact safe_call (hparts _ (by simp [Task.parts, Stmt.parts])) hl.2.1 hm
        fun _ _ _ _ _ => hnone rfl _ _
    · cases whenFalse with
      | none => exact hnone rfl _ _
      | some whenFalse =>
        exact safe_call (hparts _ (by simp [Task.parts, Stmt.parts])) hl.2.2.2.1 hm
          fun _ _ _ _ _ => hnone rfl _ _
  | loop condition body =>
    exact safe_repeatWhile hb (hparts _ (by simp [Task.parts, Stmt.parts]))
      (hparts _ (by simp [Task.parts, Stmt.parts])) hl.1 hl.2.1 hm (hnone rfl) rounds
  | function decl =>
    obtain ⟨name, params, body⟩ := decl
    have hc : ∀ env, (⟨name.lexeme, params, body, env, false⟩ : Closure).LocatedIn known
        (markIn scopes name.lexeme true) :=
      fun env => ⟨fun s hs => hparts _ (List.mem_map_of_mem hs), hl.2.1, hl.2.2⟩
    exact safe_act (harmless_declareFunction hm hl.1 hc) hb fun _ _ _ h => hbound rfl h
  | «return» keyword value =>
    cases value with
    | none => exact hnone rfl _ _
    | some value =>
      exact safe_call (hparts _ List.mem_cons_self) hl hm fun _ _ _ _ _ => hnone rfl _ _
  | «class» name methods =>
    have hbodies : ∀ method ∈ methods, ∀ s ∈ method.body, known (.stmt s) := fun method hf s hs =>
      hparts _ (List.mem_flatMap.2 ⟨method, hf, List.mem_map_of_mem hs⟩)
    exact safe_act (harmless_declareClass hm hl.1 hl.2 hbodies) hb fun _ _ _ h => hbound rfl h

end Agreement

/-- **Evaluation keeps scopes and frames together.** -/
theorem agreement_kept {known : Task → Prop} (hclosed : Task.Closed known) (rounds : Nat) :
    (agreement known rounds).Kept rounds where
  refl := .refl
  trans _ _ _ := .trans
  enter _ := .enter
  plan := by
    rintro depth task machine ⟨hk, scopes, hl, hm⟩
    cases task with
    | expr e => exact Agreement.safe_expr hclosed hk hl hm depth
    | stmt s => exact Agreement.safe_stmt hclosed hk hl hm depth

end ScopedScript

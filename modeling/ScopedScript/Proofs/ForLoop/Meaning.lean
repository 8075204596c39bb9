import ScopedScript.Proofs.Distances.Numbering
import ScopedScript.Proofs.ForLoop.Grounded
import ScopedScript.Proofs.ForLoop.Resolve
import ScopedScript.Proofs.Grammar.Sound

/-!
# For loops mean what they say

A for loop is read as a while loop.  Executing what was read has the effects that the loop is
meant to have, before scope analysis and after it, whatever the machine has done before.

The two executions do not have the same frames: the frame of the block around body and increment
is missing where the loop has its own meaning.  Frames that were there before are the same in
both, and nothing that is executed later binds a name in the frame that is missing.  Only an error
that tells a number of frames, which is a defect of the interpreter, counts that frame as well.

## Main definitions

* `Machine.SameSince`, `Eval.SameEffects`: machines that differ in spare frames alone, and steps
  that lead to such.
* `ForLoop.Written`: how a for loop is written.

## Main results

* `Eval.Mirrors.sameEffects`: steps that mirror each other have the same effects.
* `for_loop_means_what_it_says`: what a for loop is read as has the effects of the loop.
-/

namespace ScopedScript

open Eval

/-! ## The same effects -/

section Effects

variable {note : Nat → List Scope → List Scope} {machine : Machine}

variable (note) in
/-- **What is executed later does the same on both machines**, in an environment that the starting
machine had.  Frames that are spare go on to be spare, so they never receive a binding. -/
def Machine.GoOnAlike (start : Machine) (layout : Layout) (wide narrow : Machine) : Prop :=
  ∀ env, start.heap.frames.Has env → ∀ limits value ss,
    EndsAlike
      (fun a wide' a' narrow' => a = a' ∧ ∃ layout', layout.Extends layout' ∧
        Machine.Match note layout' wide' narrow')
      (fun stop wide' stop' narrow' => stop.Match stop' ∧ ∃ layout', layout.Extends layout' ∧
        Machine.Match note layout' wide' narrow')
      (inEnvironment env (execAll limits value ss) wide)
      (inEnvironment env (execAll limits value ss) narrow)

variable (note) in
/-- **The machines differ in spare frames alone** since both were the starting machine: the same
was printed, instances are the same, and so are the frames that existed at the start. -/
structure Machine.SameSince (start wide narrow : Machine) : Prop where
  output : wide.output = narrow.output
  instances : wide.heap.instances = narrow.heap.instances
  frames : ∀ frame < start.heap.frames.next,
    wide.heap.frames.bindings frame = narrow.heap.frames.bindings frame
  environment : wide.environment = start.environment ∧ narrow.environment = start.environment
  spare : ∃ layout, (Layout.same start.heap.frames.next).Extends layout ∧
    Machine.Match note layout wide narrow ∧ Machine.GoOnAlike note start layout wide narrow

variable (note) in
/-- **Two steps have the same effects on a machine**: they end with the same result or for the
same reason, on machines that differ in spare frames alone. -/
def Eval.SameEffects {α : Type} (start : Machine) (step step' : Eval α) : Prop :=
  EndsAlike (fun a wide a' narrow => a = a' ∧ Machine.SameSince note start wide narrow)
    (fun stop wide stop' narrow => stop.Match stop' ∧ Machine.SameSince note start wide narrow)
    (step start) (step' start)

/-- Where mirroring steps lead, the machines differ in spare frames alone. -/
theorem Machine.After.sameSince {layout : Layout} {wide narrow : Machine}
    (h : After note (Layout.same machine.heap.frames.next) machine machine layout wide narrow)
    (hm : machine.Grounded) : SameSince note machine wide narrow where
  output := h.matched.output
  instances := h.matched.instances
  frames frame hf := h.matched.frames.bindings ((Layout.pairs_same hf).mono h.extended)
  environment := ⟨h.wide, h.narrow⟩
  spare := by
    refine ⟨layout, h.extended, h.matched, fun env he limits value ss => ?_⟩
    -- environments of the starting machine have no spare frame
    have hsame : ∀ env, machine.heap.frames.Has env → layout.Chains none env.chain env.chain :=
      fun env he => (Layout.Chains.same he).mono h.extended
    have hc : layout.Chains none wide.environment.chain narrow.environment.chain := by
      rw [h.wide, h.narrow]
      exact hsame _ hm.environment
    have hl : Mirrors note layout none Same (inEnvironment env (execAll limits value ss))
        (inEnvironment env (execAll limits value ss)) :=
      (mirrors_execAll limits value ss).inEnvironment (hsame env he)
    refine (hl wide narrow hc h.matched).imp ?_ ?_
    · rintro a wide' a' narrow' ⟨layout', ha, hv⟩
      exact ⟨hv, layout', ha.extended, ha.matched⟩
    · rintro stop wide' stop' narrow' ⟨layout', ha, hs⟩
      exact ⟨hs, layout', ha.extended, ha.matched⟩

/-- **Steps that mirror each other have the same effects.** -/
theorem Eval.Mirrors.sameEffects {α : Type} {step step' : Eval α}
    (h : Mirrors note (Layout.same machine.heap.frames.next) none Same step step')
    (hm : machine.Grounded) : SameEffects note machine step step' := by
  refine (h machine machine (.same hm.environment) hm.match_self).imp ?_ ?_
  · rintro a wide a' narrow ⟨layout, ha, hs⟩
    exact ⟨hs, ha.sameSince hm⟩
  · rintro stop wide stop' narrow ⟨layout, ha, hs⟩
    exact ⟨hs, ha.sameSince hm⟩

end Effects

/-! ## Reading a for loop -/

namespace ForLoop

/-- **How a for loop is written**, after its keyword.  A condition that is left out is the literal
`true`. -/
inductive Written : ForLoop → List Token → Prop where
  | mk {first : Option Stmt} {condition step : Option Expr} {body : Stmt} {dangling : Bool}
      {left semicolon right : Token} {ts us vs ws : List Token}
      (hl : left.kind = .leftParen) (hf : Derives true (.initializer first) ts)
      (hc : Derives true (.optional condition) us) (hs : semicolon.kind = .semicolon)
      (hi : Derives true (.optional step) vs) (hr : right.kind = .rightParen)
      (hb : Derives true (.statement dangling body) ws) :
      Written ⟨first, condition.getD (.literal (.bool true)), step, body⟩
        (left :: (ts ++ (us ++ semicolon :: (vs ++ right :: ws))))

variable {loop : ForLoop} {used : List Token}

namespace Written

theorem initializer (h : loop.Written used) : ∀ first ∈ loop.initializer, first.IsInitializer := by
  cases h with
  | mk _ hf _ _ _ _ _ =>
    rintro first ⟨⟩
    cases hf with
    | variableInitializer _ hv =>
      cases hv with
      | plainVariable _ _ => exact .inl ⟨_, _, rfl⟩
      | initializedVariable _ _ _ _ => exact .inl ⟨_, _, rfl⟩
    | expressionInitializer _ _ => exact .inr ⟨_, rfl⟩

/-- The body is well formed over the tokens, and no declaration. -/
theorem body (h : loop.Written used) :
    loop.body.WellFormed (· ∈ used) ∧ loop.body.isDeclaration = false := by
  obtain ⟨-, -, -, -, -, -, hb⟩ := h
  refine hb.wellFormed fun t ht => ?_
  simp [ht]

theorem isPlain (h : loop.Written used) : loop.IsPlain :=
  ⟨h.initializer, h.body.1.bindless _ h.body.2⟩

/-- Nothing in a loop that was read has a number. -/
theorem desugared_eq (h : loop.Written used) :
    loop.desugared (fun _ scopes => scopes) = loop.statement := by
  obtain ⟨-, -, -, -, hi, -, hb⟩ := h
  exact desugared_eq_statement hb.labels_eq_none hi.labels_eq_none

/-- What a loop is read as is well formed. -/
theorem wellFormed {P : Token → Prop} (h : loop.Written used) (ht : ∀ t ∈ used, P t) :
    loop.statement.WellFormed P := by
  cases h with
  | @mk first condition step body dangling left semicolon right ts us vs ws _ hf hc _ hi _ hb =>
    simp only [List.forall_mem_append, List.forall_mem_cons] at ht
    obtain ⟨-, h₁, h₂, -, h₃, -, h₄⟩ := ht
    obtain ⟨hw, hd⟩ := hb.wellFormed h₄
    have hcond : (condition.getD (.literal (.bool true))).WellFormed P := by
      cases condition with
      | none => exact rfl
      | some condition => exact hc.wellFormed h₂
    have htree := (forTree_wellFormed (hf.wellFormed h₁) hcond (hi.wellFormed h₃) hw hd).1
    rwa [Reader.forTree_eq_forLoop] at htree

end Written

end ForLoop

/-- What is read after the keyword is a loop. -/
theorem Reader.forStatement_written {nesting : Nat} {tokens rest : List Token} {s : Stmt}
    (h : forStatement (expressionOf (assignment nesting)) (statement nesting) tokens = .ok s rest) :
    ∃ (loop : ForLoop) (used : List Token), tokens = used ++ rest ∧ loop.Written used ∧
      s = loop.statement := by
  obtain ⟨first, condition, step, body, dangling, left, semicolon, right, ts, us, vs, ws, ht, rfl,
    hl, hf, hc, hs, hi, hr, hb, -⟩ := forStatement_parts
      (expressionOf_sound (sound nesting).assignment) (sound nesting).statement h
  exact ⟨_, _, ht, .mk hl hf hc hs hi hr hb, rfl⟩

/-! ## The meaning of a for loop -/

open Analysis in
/-- **For loops mean what they say.**  What is read after `for` is a loop with the parts that are
written there.  Executing it has the effects of the loop on every grounded machine: before scope
analysis, and after an analysis anywhere in a program, which refuses the same loops and numbers
the references of the loop by the scopes that are open around each of them. -/
theorem for_loop_means_what_it_says {nesting : Nat} {tokens rest : List Token} {s : Stmt}
    (h : Reader.forStatement (Reader.expressionOf (Reader.assignment nesting))
      (Reader.statement nesting) tokens = .ok s rest) :
    ∃ (loop : ForLoop) (used : List Token), tokens = used ++ rest ∧ loop.Written used ∧
      s = loop.statement ∧
      (∀ machine : Machine, machine.Grounded → ∀ rounds depth,
        SameEffects (fun _ scopes => scopes) machine (exec rounds depth s)
          (loop.exec rounds depth)) ∧
      ∀ (state : Analysis) (path : List Enclosure), state.StandsAt path →
        (∀ name, ¬ InOwnInitializer path name) →
          EndsAlike
            (fun resolved wide located narrow =>
              resolved = located.desugared withEmpty ∧ narrow.Returns wide ∧
                ((∀ t ∈ used, Analyze.Spelled t) → resolved.LocatedIn state.scopes) ∧
                ∀ machine : Machine, machine.Grounded → ∀ rounds depth,
                  SameEffects withEmpty machine (exec rounds depth resolved)
                    (located.exec rounds depth))
            (fun e _ e' _ => e = e') (Analyze.stmt s state) (loop.resolve state) := by
  obtain ⟨loop, used, ht, hl, rfl⟩ := Reader.forStatement_written h
  refine ⟨loop, used, ht, hl, rfl, fun machine hm rounds depth => ?_, fun state path hs hp => ?_⟩
  · rw [← hl.desugared_eq]
    exact (ForLoop.mirrors_desugared hl.isPlain rounds depth).sameEffects hm
  · refine (ForLoop.resolve_alike hl.isPlain.body hs hp).imp_of_eq ?_
    rintro resolved wide located narrow hw hn ⟨rfl, hr⟩
    refine ⟨rfl, hr, fun hu => ?_, fun machine hm rounds depth => ?_⟩
    · exact (Analyze.stmt_located _ (hl.wellFormed hu) hw).1
    · have hplain := ForLoop.makes_plain hl.initializer hl.body.1 hl.body.2 hn
      exact (ForLoop.mirrors_desugared hplain rounds depth).sameEffects hm

/-- A loop with all its parts, on a machine that served requests and at the top level. -/
theorem for_loop_means_what_it_says_once :
    ∃ s rest, ∃ loop : ForLoop,
      Reader.forStatement (Reader.expressionOf (Reader.assignment 20)) (Reader.statement 20)
        (scan "(var b = true; b; b = false) print b;").tokens = .ok s rest ∧
      s = loop.statement ∧
      (∀ clock limits requests rounds depth,
        SameEffects (fun _ scopes => scopes) ((Machine.initial clock).serve limits requests)
          (exec rounds depth s) (loop.exec rounds depth)) ∧
      EndsAlike (fun resolved _ located _ => resolved = located.desugared withEmpty)
        (fun e _ e' _ => e = e') (Analyze.stmt s .initial) (loop.resolve .initial) := by
  have hok : ((Reader.forStatement (Reader.expressionOf (Reader.assignment 20))
      (Reader.statement 20)).run'
        (scan "(var b = true; b; b = false) print b;").tokens).isSome := by
    decide +kernel
  unfold EStateM.run' EStateM.run at hok
  cases hr : Reader.forStatement (Reader.expressionOf (Reader.assignment 20))
      (Reader.statement 20) (scan "(var b = true; b; b = false) print b;").tokens with
  | error e rest =>
    rw [hr] at hok
    cases hok
  | ok s rest =>
    obtain ⟨loop, _, -, -, hs, hm, ha⟩ := for_loop_means_what_it_says hr
    refine ⟨s, rest, loop, rfl, hs, fun clock limits requests => hm _ ?_, ?_⟩
    · exact (initial_standsIn (fun _ => True) clock).grounded.serve limits requests
    · have hr := ha .initial [] (standsAt_top []) fun _ => InOwnInitializer.nil
      exact hr.imp (fun _ _ _ _ h => h.1) fun _ _ _ _ => id

end ScopedScript

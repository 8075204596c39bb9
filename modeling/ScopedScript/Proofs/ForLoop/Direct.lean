import ScopedScript.Proofs.ForLoop.Mirror
import ScopedScript.Tree.Parse

/-!
# What a for loop does

A for loop has no tree of its own: it is read as a while loop, in a block with the initializer and
around a block of body and increment.  This module gives for loops a meaning of their own, in which
the block of body and increment does not exist.  Executing the statement that a loop is read as
mirrors what the loop does: the frame of that block is a spare one.

## Main definitions

* `ForLoop`: a for loop with its parts, and `ForLoop.statement`: what it is read as.
* `ForLoop.exec`: what a for loop does.
* `ForLoop.desugared`: the statement of a loop whose references have their numbers.

## Main results

* `ForLoop.mirrors_desugared`: executing the statement mirrors what the loop does.
* `ForLoop.desugared_eq_statement`: without numbers there is nothing to count.
-/

namespace ScopedScript

open Eval

/-- **A for loop**: what is executed first if anything, what is tested before each round, what is
evaluated after each round if anything, and what is executed in each round. -/
structure ForLoop where
  initializer : Option Stmt
  condition : Expr
  increment : Option Expr
  body : Stmt

/-- What may stand first in a for loop: a variable or an expression. -/
def Stmt.IsInitializer (s : Stmt) : Prop :=
  (∃ name value, s = .var name value) ∨ ∃ e, s = .expression e

namespace ForLoop

/-! ## Execution -/

/-- **Round after round**: the loop stops normally when the condition does not hold, and with the
body when that returns; otherwise it advances and goes on. -/
def repeatRounds (condition : Eval Bool) (body : Eval Outcome) (advance : Eval Unit) :
    Nat → Eval Outcome
  | 0 => throw .tooLong
  | rounds + 1 => do
    if ← condition then
      match ← body with
      | .returned value => return .returned value
      | .normal _ => do
        advance
        repeatRounds condition body advance rounds
    else return .done

/-- Evaluates the increment, if there is one. -/
def advance (rounds depth : Nat) (loop : ForLoop) : Eval Unit := do
  match loop.increment with
  | some step => let _ ← eval rounds depth step
  | none => return ()

/-- How deep the body may nest: with an increment it counts as nested one deeper. -/
def bodyDepth (depth : Nat) (loop : ForLoop) : Nat :=
  match loop.increment with
  | some _ => depth - 1
  | none => depth

/-- **The rounds of a for loop**, all in the current environment. -/
def execRounds (rounds : Nat) : Nat → ForLoop → Eval Outcome
  | 0, _ => throw .tooDeep
  | depth + 1, loop =>
    repeatRounds (do ofExcept ((← eval rounds depth loop.condition).truth none))
      (ScopedScript.exec rounds (loop.bodyDepth depth) loop.body) (loop.advance rounds (depth - 2))
      rounds

/-- **What a for loop does.**  If there is an initializer, it is executed once in a new frame, and
all rounds take place there. -/
def exec (rounds : Nat) : Nat → ForLoop → Eval Outcome
  | 0, _ => throw .tooDeep
  | depth + 1, loop =>
    match loop.initializer with
    | none => loop.execRounds rounds (depth + 1)
    | some first => inNewFrame do
      let _ ← ScopedScript.exec rounds depth first
      loop.execRounds rounds depth

/-! ## The statement of a for loop -/

/-- The statement that a for loop is read as. -/
def statement (loop : ForLoop) : Stmt :=
  Reader.forLoop loop.initializer loop.condition loop.increment loop.body

section

variable (note : Nat → List Scope → List Scope)

/-- **The statement of a for loop whose references have their numbers.**  With an increment there
is a block around body and increment, and its frame is counted in both. -/
def desugared (loop : ForLoop) : Stmt :=
  match loop.increment with
  | none => loop.statement
  | some step =>
    Reader.forLoop loop.initializer loop.condition (some (step.widen note (some 0)))
      (loop.body.widen note (some 0))

/-- The statement of a round: the body, in a block with the increment if there is one. -/
def roundStatement (loop : ForLoop) : Stmt :=
  match loop.increment with
  | none => loop.body
  | some step => .block [loop.body.widen note (some 0), .expression (step.widen note (some 0))]

theorem desugared_eq (loop : ForLoop) :
    loop.desugared note =
      Reader.forLoop loop.initializer loop.condition none (loop.roundStatement note) := by
  obtain ⟨first, condition, step, body⟩ := loop
  cases step <;> cases first <;> rfl

end

/-- **Without numbers there is nothing to count.** -/
theorem desugared_eq_statement {loop : ForLoop} (hb : ∀ label ∈ loop.body.labels, label = none)
    (hi : ∀ label ∈ Expr.labels? loop.increment, label = none) :
    loop.desugared (fun _ scopes => scopes) = loop.statement := by
  obtain ⟨first, condition, step, body⟩ := loop
  cases step with
  | none => rfl
  | some step =>
    unfold desugared
    dsimp only
    rw [step.widen_eq (Cutoff.leavesAll_of_none hi _),
      body.widen_eq (Cutoff.leavesAll_of_none hb _)]
    rfl

/-! ## The statement mirrors the loop -/

/-- The initializer is one, and the body binds nothing in the frame it is executed in. -/
structure IsPlain (loop : ForLoop) : Prop where
  initializer : ∀ first ∈ loop.initializer, first.IsInitializer
  body : loop.body.Bindless

variable {note : Nat → List Scope → List Scope} {layout : Layout} {loop : ForLoop}

/-- A round: the body, and the increment unless the body returns. -/
def round (body : Eval Outcome) (advance : Eval Unit) : Eval Outcome := do
  match ← body with
  | .returned value => return .returned value
  | .normal _ => do
    advance
    return .done

/-- A for loop repeats its rounds as a while loop does. -/
theorem repeatRounds_eq (condition : Eval Bool) (body : Eval Outcome) (advance : Eval Unit)
    (rounds : Nat) :
    repeatRounds condition body advance rounds =
      iterate condition (round body advance) rounds := by
  induction rounds with
  | zero => rfl
  | succ rounds ih =>
    unfold repeatRounds iterate round
    refine congrArg (condition >>= ·) (funext fun holds => ?_)
    split
    · rw [bind_assoc]
      refine congrArg (body >>= ·) (funext fun outcome => ?_)
      cases outcome with
      | returned value => rfl
      | normal value =>
        dsimp only
        rw [ih, bind_assoc]
        rfl
    · rfl

/-- An expression mirrors itself where there is no spare frame. -/
theorem mirrors_eval (rounds depth : Nat) (e : Expr) :
    Mirrors note layout none Same (eval rounds depth e) (eval rounds depth e) := by
  have h := (mirrorsTo note rounds depth).expr layout none e
  rwa [Expr.widen_none] at h

/-- A statement mirrors itself where there is no spare frame. -/
theorem mirrors_exec (rounds depth : Nat) (s : Stmt) :
    Mirrors note layout none Same (ScopedScript.exec rounds depth s)
      (ScopedScript.exec rounds depth s) := by
  have h := (mirrorsTo note rounds depth).stmt layout none s fun h => by cases h
  rwa [Stmt.widen_none] at h

/-- An initializer completes normally. -/
theorem mirrors_initializer {first : Stmt} (h : first.IsInitializer) (rounds depth : Nat) :
    Mirrors note layout none (fun _ o o' => ∃ value, o = .normal value ∧ o' = .normal value)
      (ScopedScript.exec rounds depth first) (ScopedScript.exec rounds depth first) := by
  cases depth with
  | zero =>
    rw [ScopedScript.exec]
    exact mirrors_throw .tooDeep
  | succ depth =>
    obtain ⟨name, value, rfl⟩ | ⟨e, rfl⟩ := h
    · cases value with
      | none =>
        rw [ScopedScript.exec]
        exact (mirrors_define (by simp) name .nil).andThen fun _ _ _ => mirrors_pure ⟨_, rfl, rfl⟩
      | some e =>
        rw [ScopedScript.exec]
        exact (mirrors_eval rounds depth e).andThen fun _ value _ =>
          (mirrors_define (by simp) name value).andThen fun _ _ _ => mirrors_pure ⟨_, rfl, rfl⟩
    · rw [ScopedScript.exec]
      exact (mirrors_eval rounds depth e).andThen fun _ value _ => mirrors_pure ⟨value, rfl, rfl⟩

/-- The increment is evaluated as a statement of its own, in the spare frame. -/
theorem mirrors_advance (rounds depth : Nat) (step : Expr) :
    Mirrors note layout (some 0) (fun _ => GoOn)
      (runStatements (ScopedScript.exec rounds depth) [.expression (step.widen note (some 0))])
      (do
        let _ ← eval rounds (depth - 1) step
        return .done) := by
  unfold runStatements
  cases depth with
  | zero =>
    rw [ScopedScript.exec, eval]
    exact mirrors_throw .tooDeep
  | succ depth =>
    rw [ScopedScript.exec, bind_assoc]
    exact ((mirrorsTo note rounds depth).expr layout (some 0) step).andThen
      fun _ value _ => mirrors_pure (.normal _ _)

/-- **A round mirrors.**  With an increment, the frame of the block around it is spare. -/
theorem mirrors_round (hb : loop.body.Bindless) (rounds depth : Nat) :
    Mirrors note layout none (fun _ => GoOn)
      (ScopedScript.exec rounds depth (loop.roundStatement note))
      (round (ScopedScript.exec rounds (loop.bodyDepth depth) loop.body)
        (loop.advance rounds (depth - 2))) := by
  obtain ⟨first, condition, step, body⟩ := loop
  cases step with
  | none =>
    change Mirrors note layout none _ (ScopedScript.exec rounds depth body)
      (round (ScopedScript.exec rounds depth body) (pure ()))
    refine .of_bind_pure ((mirrors_exec rounds depth body).andThen fun _ outcome _ => ?_)
    cases outcome with
    | returned value => exact mirrors_pure (.returned value)
    | normal value => exact mirrors_pure (.normal _ _)
  | some step =>
    cases depth with
    | zero =>
      unfold roundStatement bodyDepth round
      dsimp only
      rw [ScopedScript.exec, ScopedScript.exec]
      exact mirrors_throw .tooDeep
    | succ depth =>
      change Mirrors note layout none _
        (inNewFrame (runStatements (ScopedScript.exec rounds depth)
          [body.widen note (some 0), .expression (step.widen note (some 0))]))
        (round (ScopedScript.exec rounds depth body) (do let _ ← eval rounds (depth - 1) step))
      refine Mirrors.inSpareFrame fun layout' _ => ?_
      refine ((mirrorsTo note rounds depth).stmt layout' (some 0) body fun _ => hb).andThen
        fun layout'' outcome _ => ?_
      cases outcome with
      | returned value => exact mirrors_pure (.returned value)
      | normal value =>
        dsimp only
        rw [bind_assoc]
        exact mirrors_advance rounds depth step

/-- **The rounds of a loop mirror.** -/
theorem mirrors_rounds (hb : loop.body.Bindless) (rounds depth : Nat) :
    Mirrors note layout none (fun _ => LoopEnds)
      (ScopedScript.exec rounds depth (.loop loop.condition (loop.roundStatement note)))
      (loop.execRounds rounds depth) := by
  cases depth with
  | zero =>
    rw [ScopedScript.exec, execRounds]
    exact mirrors_throw .tooDeep
  | succ depth =>
    rw [ScopedScript.exec, execRounds, repeatRounds_eq]
    refine mirrors_iterate (fun _ _ => ?_) (fun _ _ => mirrors_round hb rounds depth) rounds
    exact (mirrors_eval rounds depth loop.condition).andThen fun _ _ _ => mirrors_ofExcept _

/-- **Executing the statement of a for loop mirrors what the loop does.** -/
theorem mirrors_desugared (h : loop.IsPlain) (rounds depth : Nat) :
    Mirrors note layout none Same (ScopedScript.exec rounds depth (loop.desugared note))
      (loop.exec rounds depth) := by
  rw [desugared_eq]
  obtain ⟨first, condition, step, body⟩ := loop
  cases depth with
  | zero =>
    rw [ScopedScript.exec, exec]
    exact mirrors_throw .tooDeep
  | succ depth =>
    cases first with
    | none => exact (mirrors_rounds h.body rounds (depth + 1)).imp fun _ _ _ ho => ho.eq
    | some first =>
      refine Mirrors.inNewFrame fun layout' _ => ?_
      refine (mirrors_initializer (h.initializer first rfl) rounds depth).bind ?_
      rintro layout'' _ _ _ ⟨value, rfl, rfl⟩
      refine .of_pure_bind ((mirrors_rounds h.body rounds depth).bind fun _ _ _ _ ho => ?_)
      cases ho with
      | returned value => exact mirrors_pure rfl
      | done => exact mirrors_pure rfl

end ForLoop

end ScopedScript

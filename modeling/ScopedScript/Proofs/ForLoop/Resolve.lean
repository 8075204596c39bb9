import ScopedScript.Proofs.ForLoop.Direct
import ScopedScript.Proofs.ForLoop.Scopes
import ScopedScript.Proofs.Scope.Code

/-!
# The scopes of a for loop

The frames of a for loop are those of its meaning: one for the initializer, if there is one, and
none for the block around body and increment.  Scope analysis of the loop opens the same scopes.
The analysis of the statement that the loop is read as opens one more around body and increment.
It refuses the same loops, and the numbers it fills in are those of the loop, except that what
lies beyond the block is counted to be one frame further out.

## Main definitions

* `ForLoop.resolve`: scope analysis of a for loop.

## Main results

* `ForLoop.makes_plain`: the analysis makes plain loops.
* `ForLoop.resolve_alike`: the statement of a loop is analyzed as the loop is.
-/

namespace ScopedScript

open Analyze Analysis

namespace ForLoop

/-! ## Scope analysis -/

/-- Fills in the numbers of the parts that each round has. -/
def resolveRounds (loop : ForLoop) (first : Option Stmt) : Analyze ForLoop := do
  let condition ← expr loop.condition
  let body ← stmt loop.body
  let increment ← optionalExpr loop.increment
  return ⟨first, condition, increment, body⟩

/-- **Fills in the numbers of a for loop.**  If there is an initializer, the loop has a scope of
its own. -/
def resolve (loop : ForLoop) : Analyze ForLoop :=
  match loop.initializer with
  | none => loop.resolveRounds none
  | some first => inScope .empty do
    let first ← stmt first
    loop.resolveRounds (some first)

variable {loop : ForLoop} {P : Token → Prop}

/-! ## Plain loops -/

/-- An initializer stays one. -/
theorem makes_initializer {first : Stmt} (h : first.IsInitializer) :
    Makes Stmt.IsInitializer (stmt first) := by
  obtain ⟨name, value, rfl⟩ | ⟨e, rfl⟩ := h
  · exact makes_after fun _ => makes_after fun _ => makes_after fun _ =>
      makes_pure (.inl ⟨_, _, rfl⟩)
  · exact makes_after fun _ => makes_pure (.inr ⟨_, rfl⟩)

theorem makes_plain_rounds (hw : loop.body.WellFormed P) (hd : loop.body.isDeclaration = false)
    {first : Option Stmt} (hf : ∀ s ∈ first, s.IsInitializer) :
    Makes IsPlain (loop.resolveRounds first) :=
  makes_after fun _ => (stmt_wellFormed loop.body hw).bind fun body hb => makes_after fun _ =>
    makes_pure ⟨hf, hb.1.bindless body (hb.2.trans hd)⟩

/-- **The analysis makes plain loops**: no declaration is the body. -/
theorem makes_plain (hf : ∀ first ∈ loop.initializer, first.IsInitializer)
    (hw : loop.body.WellFormed P) (hd : loop.body.isDeclaration = false) :
    Makes IsPlain loop.resolve := by
  obtain ⟨first, condition, step, body⟩ := loop
  cases first with
  | none => exact makes_plain_rounds hw hd (by simp)
  | some first =>
    refine makes_inScope _ ((makes_initializer (hf first rfl)).bind fun first' hi => ?_)
    exact makes_plain_rounds hw hd (by simpa using hi)

/-! ## The statement of a loop -/

variable {state : Analysis} {path : List Enclosure}

/-- **A scope that only one of two walks opens** and that stays empty. -/
theorem alike_inScope {α β : Type} {walk : Analyze α} {walk' : Analyze β}
    {values : α → β → Prop}
    (h : EndsAlike (fun a wide b narrow => values a b ∧ Wider 0 wide narrow)
      (fun e _ e' _ => e = e') (walk { state with scopes := .empty :: state.scopes })
      (walk' state)) :
    EndsAlike (fun a wide b narrow => values a b ∧ narrow.Returns wide)
      (fun e _ e' _ => e = e') (inScope .empty walk state) (walk' state) := by
  refine h.bind_left ?_
  rintro a wide b narrow ⟨hv, hw⟩
  refine ⟨a, _, rfl, hv, hw.function, hw.inClass, ?_⟩
  change wide.scopes.tail = narrow.scopes
  rw [hw.scopes]
  rfl

/-- A scope that both walks open. -/
theorem alike_inScope_both {α β : Type} {walk : Analyze α} {walk' : Analyze β} {scope : Scope}
    {values : α → β → Prop}
    (h : EndsAlike (fun a wide b narrow => values a b ∧ narrow.Returns wide)
      (fun e _ e' _ => e = e') (walk { state with scopes := scope :: state.scopes })
      (walk' { state with scopes := scope :: state.scopes })) :
    EndsAlike (fun a wide b narrow => values a b ∧ narrow.Returns wide)
      (fun e _ e' _ => e = e') (inScope scope walk state) (inScope scope walk' state) := by
  refine h.bind ?_
  rintro a wide b narrow ⟨hv, hr⟩
  exact .ok ⟨hv, hr.function, hr.inClass, congrArg List.tail hr.scopes⟩

/-- **The block of body and increment** is analyzed as the two are without a scope of their own. -/
theorem block_alike (hb : loop.body.Bindless) {step : Expr} (hi : loop.increment = some step)
    (hp : ∀ name, state.isPending name = false) (first : Option Stmt) (condition : Expr) :
    EndsAlike
      (fun s wide located narrow =>
        (located.initializer = first ∧ located.condition = condition ∧
          s = located.roundStatement withEmpty) ∧ narrow.Returns wide)
      (fun e _ e' _ => e = e') (stmt (.block [loop.body, .expression step]) state)
      ((do
        let body ← stmt loop.body
        let increment ← optionalExpr loop.increment
        return (⟨first, condition, increment, body⟩ : ForLoop)) state) := by
  have hw : Wider 0 { state with scopes := .empty :: state.scopes } state :=
    ⟨rfl, Nat.zero_le _, hp, rfl, rfl⟩
  rw [hi]
  have hparts : EndsAlike
      (fun ss wide (located : ForLoop) narrow =>
        (located.initializer = first ∧ located.condition = condition ∧
          .block ss = located.roundStatement withEmpty) ∧ Wider 0 wide narrow)
      (fun e _ e' _ => e = e')
      (stmts [loop.body, .expression step] { state with scopes := .empty :: state.scopes })
      ((do
        let body ← stmt loop.body
        let increment ← optionalExpr (some step)
        return (⟨first, condition, increment, body⟩ : ForLoop)) state) := by
    simp only [stmts, stmt, optionalExpr, bind_assoc, pure_bind]
    refine (stmt_follows loop.body (fun _ => hb) _ _ hw).bind ?_
    rintro _ wide body narrow ⟨rfl, hw'⟩
    refine (expr_follows step _ _ hw').bind ?_
    rintro _ wide' step narrow' ⟨rfl, hw''⟩
    exact .ok ⟨⟨rfl, rfl, rfl⟩, hw''⟩
  refine (alike_inScope hparts).bind_left ?_
  rintro ss wide located narrow ⟨⟨hf, hc, hs⟩, hr⟩
  exact ⟨_, _, rfl, ⟨hf, hc, hs⟩, hr⟩

/-- **The rounds of a loop** are analyzed alike, with a block around body and increment and
without one. -/
theorem rounds_alike (hb : loop.body.Bindless) (first : Option Stmt) (hs : state.StandsAt path)
    (hp : ∀ name, ¬ InOwnInitializer path name) :
    EndsAlike
      (fun s wide located narrow =>
        (located.initializer = first ∧
          s = .loop located.condition (located.roundStatement withEmpty)) ∧ narrow.Returns wide)
      (fun e _ e' _ => e = e')
      (stmt (Reader.forLoop none loop.condition loop.increment loop.body) state)
      (loop.resolveRounds first state) := by
  cases hi : loop.increment with
  | none =>
    unfold resolveRounds
    rw [hi]
    refine EndsAlike.bind_same (fun condition mid hc => ?_) fun _ _ => rfl
    refine EndsAlike.bind_same (fun body last _ => ?_) fun _ _ => rfl
    exact .ok ⟨⟨rfl, rfl⟩, .refl _⟩
  | some step =>
    refine EndsAlike.bind_same (fun condition mid hc => ?_) fun _ _ => rfl
    have hm : mid.StandsAt path := hs.of_returns ((expr_finds loop.condition hs).of_ok hc)
    have hq : ∀ name, mid.isPending name = false := fun name =>
      Bool.eq_false_iff.2 fun h => hp name ((hm.pending name).1 h)
    refine (block_alike hb hi hq first condition).bind_left ?_
    rintro s wide located narrow ⟨⟨hf, rfl, rfl⟩, hr⟩
    exact ⟨_, _, rfl, ⟨hf, rfl⟩, hr⟩

/-- **The statement of a loop is analyzed as the loop is.** -/
theorem resolve_alike (hb : loop.body.Bindless) (hs : state.StandsAt path)
    (hp : ∀ name, ¬ InOwnInitializer path name) :
    EndsAlike
      (fun s wide located narrow => s = located.desugared withEmpty ∧ narrow.Returns wide)
      (fun e _ e' _ => e = e') (stmt loop.statement state) (loop.resolve state) := by
  obtain ⟨first, condition, step, body⟩ := loop
  cases first with
  | none =>
    refine (rounds_alike hb none hs hp).imp ?_ fun _ _ _ _ => id
    rintro s wide located narrow ⟨⟨hf, rfl⟩, hr⟩
    rw [desugared_eq, hf]
    exact ⟨rfl, hr⟩
  | some first =>
    have hb' : ∀ name, ¬ InOwnInitializer (.block :: path) name :=
      InOwnInitializer.not_cons (by simp) (by simp) hp
    have hparts : EndsAlike
        (fun ss wide (located : ForLoop) narrow =>
          .block ss = located.desugared withEmpty ∧ narrow.Returns wide)
        (fun e _ e' _ => e = e')
        (stmts [first, Reader.forLoop none condition step body]
          { state with scopes := .empty :: state.scopes })
        ((do
          let first ← stmt first
          (⟨some first, condition, step, body⟩ : ForLoop).resolveRounds (some first))
          { state with scopes := .empty :: state.scopes }) := by
      simp only [stmts, bind_assoc, pure_bind]
      refine EndsAlike.bind_same (fun first' mid hf => ?_) fun _ _ => rfl
      have hm := ((stmt_finds first (hs.block hp) hb').of_ok hf).stands
      refine (rounds_alike hb (some first') hm hb').bind_left ?_
      rintro s wide located narrow ⟨⟨hi, rfl⟩, hr⟩
      refine ⟨_, _, rfl, ?_, hr⟩
      rw [desugared_eq, hi]
      rfl
    refine (alike_inScope_both hparts).bind_left ?_
    rintro ss wide located narrow ⟨hss, hr⟩
    exact ⟨_, _, rfl, hss, hr⟩

end ForLoop

end ScopedScript

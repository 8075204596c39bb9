import ScopedScript.Proofs.ForLoop.Widen
import ScopedScript.Proofs.Scope.Legal

/-!
# Scope analysis with one more scope

A block that binds nothing opens a scope that stays empty.  This module compares the analysis of
code with such a scope among the open ones to the analysis without it.  Both refuse the same, and
what the first makes of a tree is what the second makes of it, widened: each reference that goes
beyond the empty scope counts it.

## Main definitions

* `withEmpty`: open scopes with an empty one put among them.
* `Analysis.Wider`: two states of the analysis that are the same but for an empty scope.
* `Analyze.Follows`: one walk does with the empty scope what another does without it.

## Main results

* `findIdx?_withEmpty`: counting the scopes to a name counts the empty one.
* `Analyze.expr_follows`, `Analyze.stmt_follows`: the analysis of a tree follows.
-/

namespace ScopedScript

/-- **The open scopes with an empty one** put so many scopes out. -/
def withEmpty (place : Nat) (scopes : List Scope) : List Scope := scopes.insertIdx place .empty

/-- **Counting the scopes to a name counts the empty one** if the name lies beyond it. -/
theorem findIdx?_withEmpty {place : Nat} {scopes : List Scope} (h : place ≤ scopes.length)
    (name : String) :
    (withEmpty place scopes).findIdx? (·.contains name) =
      (scopes.findIdx? (·.contains name)).map fun n => if n < place then n else n + 1 := by
  unfold withEmpty
  induction place generalizing scopes with
  | zero =>
    simp [List.findIdx?_cons]
  | succ place ih =>
    cases scopes with
    | nil => simp at h
    | cons scope scopes =>
      rw [List.insertIdx_succ_cons, List.findIdx?_cons, List.findIdx?_cons,
        ih (Nat.le_of_succ_le_succ h)]
      split
      · simp
      · rw [Option.map_map, Option.map_map]
        congr 1
        funext n
        simp only [Function.comp_apply, Nat.add_lt_add_iff_right]
        split <;> rfl

namespace Analysis

/-- **The states are the same but for an empty scope** so many scopes out.  No name is being
initialized in the scope around it. -/
structure Wider (place : Nat) (wide narrow : Analysis) : Prop where
  scopes : wide.scopes = withEmpty place narrow.scopes
  within : place ≤ narrow.scopes.length
  settled : ∀ name, { narrow with scopes := narrow.scopes.drop place }.isPending name = false
  function : wide.function = narrow.function
  inClass : wide.inClass = narrow.inClass

namespace Wider

variable {place : Nat} {wide narrow : Analysis}

theorem isPending (h : Wider place wide narrow) (name : String) :
    wide.isPending name = narrow.isPending name := by
  have hs := h.scopes
  cases place with
  | zero =>
    -- nothing is pending in the empty scope, nor in the one around it
    have hn : narrow.isPending name = false := h.settled name
    rw [hn]
    unfold Analysis.isPending
    rw [hs]
    rfl
  | succ place =>
    have hw := h.within
    unfold Analysis.isPending
    rw [hs]
    cases hn : narrow.scopes with
    | nil =>
      rw [hn] at hw
      simp at hw
    | cons scope scopes => rfl

theorem hops? (h : Wider place wide narrow) (name : String) :
    (wide.hops? name).map Int.ofNat =
      ((narrow.hops? name).map Int.ofNat).map (Cutoff.hops (some place)) := by
  unfold Analysis.hops?
  rw [h.scopes, findIdx?_withEmpty h.within, Option.map_map, Option.map_map]
  congr 1
  funext n
  simp only [Function.comp_apply, Cutoff.hops, Int.toNat_natCast, Int.ofNat_eq_natCast]
  split <;> rfl

/-- A name is marked in the innermost scope, which is not the empty one. -/
theorem mark (h : Wider (place + 1) wide narrow) (name : String) (ready : Bool) :
    Wider (place + 1) (wide.mark name ready) (narrow.mark name ready) := by
  obtain ⟨scopes, _, _, _⟩ := narrow
  obtain ⟨hs, hw, hp, hf, hc⟩ := h
  cases scopes with
  | nil => simp at hw
  | cons scope scopes =>
    refine ⟨?_, by simpa [Analysis.mark] using hw, hp, ?_, ?_⟩
    · rw [scopes_mark, hs]
      rfl
    · rw [function_mark, hf]
      rfl
    · rw [inClass_mark, hc]
      rfl

/-- A scope is opened inside. -/
theorem push (h : Wider place wide narrow) (scope : Scope) :
    Wider (place + 1) { wide with scopes := scope :: wide.scopes }
      { narrow with scopes := scope :: narrow.scopes } :=
  { h with
    scopes := congrArg (scope :: ·) h.scopes
    within := Nat.succ_le_succ h.within }

/-- A scope that was opened inside is closed. -/
theorem pop (h : Wider (place + 1) wide narrow) :
    Wider place { wide with scopes := wide.scopes.tail }
      { narrow with scopes := narrow.scopes.tail } := by
  obtain ⟨scopes, _, _, _⟩ := narrow
  obtain ⟨hs, hw, hp, hf, hc⟩ := h
  cases scopes with
  | nil => simp at hw
  | cons scope scopes =>
    exact ⟨by rw [hs]; rfl, Nat.le_of_succ_le_succ hw, hp, hf, hc⟩

end Wider

end Analysis

namespace Analyze

open Analysis (Wider)

variable {place : Nat} {α β : Type} {f : α → α} {k : β → β}

/-- **One walk follows another**: with an empty scope among the open ones it refuses the same, and
makes `f` of what the other makes. -/
def Follows (place : Nat) (f : α → α) (walk walk' : Analyze α) : Prop :=
  ∀ wide narrow, Wider place wide narrow →
    EndsAlike (fun a wide' a' narrow' => a = f a' ∧ Wider place wide' narrow')
      (fun e _ e' _ => e = e') (walk wide) (walk' narrow)

theorem Follows.bind {walk walk' : Analyze α} {next next' : α → Analyze β}
    (h : Follows place f walk walk') (hn : ∀ a, Follows place k (next (f a)) (next' a)) :
    Follows place k (walk >>= next) (walk' >>= next') := by
  intro wide narrow hw
  refine (h wide narrow hw).bind ?_
  rintro _ wide' a narrow' ⟨rfl, hw'⟩
  exact hn a wide' narrow' hw'

theorem follows_pure {a a' : α} (h : a = f a') : Follows place f (pure a) (pure a') :=
  fun _ _ hw => .ok ⟨h, hw⟩

theorem follows_refuse (fault : ScopeFault) (token : Token) :
    Follows place f (refuse fault token) (refuse fault token) :=
  fun _ _ _ => .error rfl

/-- A walk that goes by the state it finds. -/
theorem follows_get {next next' : Analysis → Analyze β}
    (h : ∀ wide narrow, Wider place wide narrow → Follows place k (next wide) (next' narrow)) :
    Follows place k (get >>= next) (get >>= next') :=
  fun wide narrow hw => h wide narrow hw wide narrow hw

theorem follows_modify {change change' : Analysis → Analysis}
    (h : ∀ wide narrow, Wider place wide narrow → Wider place (change wide) (change' narrow)) :
    Follows place id (modify change) (modify change') :=
  fun wide narrow hw => .ok ⟨rfl, h wide narrow hw⟩

/-- A check that refuses the code or goes on. -/
theorem follows_check {c c' : Prop} [Decidable c] [Decidable c'] (hc : c ↔ c')
    (fault : ScopeFault) (token : Token) {walk walk' : Analyze α}
    (h : Follows place f walk walk') :
    Follows place f (if c then refuse fault token >>= fun (_ : Unit) => walk else walk)
      (if c' then refuse fault token >>= fun (_ : Unit) => walk' else walk') := by
  by_cases hn : c
  · rw [if_pos hn, if_pos (hc.1 hn)]
    exact (follows_refuse (f := id) fault token).bind fun _ => h
  · rw [if_neg hn, if_neg (mt hc.2 hn)]
    exact h

theorem follows_define (hp : place ≠ 0) (name : Token) :
    Follows place id (define name) (define name) := by
  obtain ⟨place, rfl⟩ := Nat.exists_eq_succ_of_ne_zero hp
  exact follows_modify fun _ _ hw => hw.mark name.lexeme true

theorem follows_declare (hp : place ≠ 0) (name : Token) :
    Follows place id (declare name) (declare name) := by
  obtain ⟨place, rfl⟩ := Nat.exists_eq_succ_of_ne_zero hp
  exact follows_modify fun _ _ hw => hw.mark name.lexeme false

/-- The number of a reference counts the empty scope. -/
theorem follows_locate (kind : ReferenceKind) (token : Token) :
    Follows place (Option.map (Cutoff.hops (some place))) (locate kind token)
      (locate kind token) := by
  refine follows_get fun wide narrow hw => ?_
  have hh := hw.hops? token.lexeme
  dsimp only
  generalize wide.hops? token.lexeme = hops at hh ⊢
  generalize narrow.hops? token.lexeme = hops' at hh ⊢
  cases hops with
  | none =>
    cases hops' with
    | none => exact follows_pure rfl
    | some _ => cases hh
  | some _ =>
    cases hops' with
    | none => cases hh
    | some _ =>
      exact Follows.bind (follows_modify fun _ _ hw => { hw with }) fun _ => follows_pure hh

theorem Follows.inScope {walk walk' : Analyze α} (h : Follows (place + 1) f walk walk')
    (scope : Scope) : Follows place f (inScope scope walk) (inScope scope walk') := by
  intro wide narrow hw
  have hs := h _ _ (hw.push scope)
  change EndsAlike _ _
    ((walk >>= fun a => (modify fun state => { state with scopes := state.scopes.tail }) >>=
      fun (_ : Unit) => pure a) { wide with scopes := scope :: wide.scopes })
    ((walk' >>= fun a => (modify fun state => { state with scopes := state.scopes.tail }) >>=
      fun (_ : Unit) => pure a) { narrow with scopes := scope :: narrow.scopes })
  refine hs.bind ?_
  rintro a wide' a' narrow' ⟨ha, hw'⟩
  exact .ok ⟨ha, hw'.pop⟩

theorem follows_forM_define (hp : place ≠ 0) (params : List Token) :
    Follows place id (params.forM define) (params.forM define) := by
  induction params with
  | nil => exact follows_pure rfl
  | cons param params ih => exact (follows_define hp param).bind fun _ => ih

theorem Follows.inFunction {walk walk' : Analyze α} (h : Follows (place + 1) f walk walk')
    (context : FunctionContext) (params : List Token) :
    Follows place f (inFunction context params walk) (inFunction context params walk') := by
  refine follows_get fun wide narrow hw => ?_
  dsimp only
  rw [hw.function]
  refine Follows.bind (follows_modify fun _ _ hw => { hw with function := rfl }) fun _ => ?_
  refine (((follows_forM_define (Nat.succ_ne_zero _) params).bind fun _ => h).inScope .empty).bind
    fun a => ?_
  exact Follows.bind (follows_modify fun _ _ hw => { hw with function := rfl }) fun _ =>
    follows_pure rfl

theorem Follows.inClass {walk walk' : Analyze α} (h : Follows (place + 1) f walk walk')
    (hp : place ≠ 0) (name : Token) :
    Follows place f (inClass name walk) (inClass name walk') := by
  refine follows_get fun wide narrow hw => ?_
  dsimp only
  rw [hw.inClass]
  refine Follows.bind (follows_modify fun _ _ hw => { hw with inClass := rfl }) fun _ => ?_
  refine (follows_define hp name).bind fun _ => (h.inScope _).bind fun a => ?_
  exact Follows.bind (follows_modify fun _ _ hw => { hw with inClass := rfl }) fun _ =>
    follows_pure rfl

mutual

/-- **The analysis of an expression with an empty scope among the open ones.** -/
theorem expr_follows : (e : Expr) → ∀ {place : Nat},
    Follows place (Expr.widen withEmpty (some place)) (expr e) (expr e)
  | .literal value, _ => follows_pure rfl
  | .variable name _ _, _ => by
    refine follows_get fun wide narrow hw =>
      follows_check (by rw [hw.isPending]) .ownInitializer name ?_
    refine (follows_locate _ name).bind fun hops => follows_get fun wide narrow hw => ?_
    exact follows_pure (by rw [Expr.widen, hw.scopes]; rfl)
  | .assign name value _ _, _ => by
    refine (expr_follows value).bind fun value' => (follows_locate _ name).bind fun hops => ?_
    exact follows_get fun wide narrow hw =>
      follows_pure (by rw [Expr.widen, hw.scopes]; rfl)
  | .group inner, _ => (expr_follows inner).bind fun _ => follows_pure rfl
  | .unary op operand, _ => (expr_follows operand).bind fun _ => follows_pure rfl
  | .binary left op right, _ | .logical left op right, _ =>
    (expr_follows left).bind fun _ => (expr_follows right).bind fun _ => follows_pure rfl
  | .conditional condition whenTrue whenFalse, _ =>
    (expr_follows condition).bind fun _ => (expr_follows whenTrue).bind fun _ =>
      (expr_follows whenFalse).bind fun _ => follows_pure rfl
  | .sequence items, _ => (exprs_follows items).bind fun _ => follows_pure rfl
  | .call callee paren args, _ =>
    (expr_follows callee).bind fun _ => (exprs_follows args).bind fun _ => follows_pure rfl
  | .lambda keyword params body, _ =>
    ((stmts_follows body fun h => by cases h).inFunction .anonymous params).bind fun _ =>
      follows_pure rfl
  | .get object name, _ => (expr_follows object).bind fun _ => follows_pure rfl
  | .set object name value, _ =>
    (expr_follows value).bind fun _ => (expr_follows object).bind fun _ => follows_pure rfl
  | .this keyword _ _, _ => by
    refine follows_get fun wide narrow hw =>
      follows_check (by rw [hw.inClass]) .thisOutsideClass keyword ?_
    refine (follows_locate _ keyword).bind fun hops => follows_get fun wide narrow hw => ?_
    exact follows_pure (by rw [Expr.widen, hw.scopes]; rfl)

theorem exprs_follows : (es : List Expr) → ∀ {place : Nat},
    Follows place (Expr.widenAll withEmpty (some place)) (exprs es) (exprs es)
  | [], _ => follows_pure rfl
  | e :: es, _ => (expr_follows e).bind fun _ => (exprs_follows es).bind fun _ => follows_pure rfl

theorem optionalExpr_follows : (o : Option Expr) → ∀ {place : Nat},
    Follows place (Expr.widen? withEmpty (some place)) (optionalExpr o) (optionalExpr o)
  | none, _ => follows_pure rfl
  | some e, _ => (expr_follows e).bind fun _ => follows_pure rfl

/-- **The analysis of a statement with an empty scope among the open ones.**  Right in the empty
scope a statement is to bind nothing. -/
theorem stmt_follows : (s : Stmt) → ∀ {place : Nat}, (place = 0 → s.Bindless) →
    Follows place (Stmt.widen withEmpty (some place)) (stmt s) (stmt s)
  | .expression inner, _, _ => (expr_follows inner).bind fun _ => follows_pure rfl
  | .print inner, _, _ => (expr_follows inner).bind fun _ => follows_pure rfl
  | .var name initializer, _, h =>
    (follows_declare h name).bind fun _ => (optionalExpr_follows initializer).bind fun _ =>
      (follows_define h name).bind fun _ => follows_pure rfl
  | .block statements, _, _ =>
    ((stmts_follows statements fun h => by cases h).inScope .empty).bind fun _ => follows_pure rfl
  | .branch condition whenTrue whenFalse, _, h =>
    (expr_follows condition).bind fun _ => (stmt_follows whenTrue fun hp => (h hp).1).bind fun _ =>
      (optionalStmt_follows whenFalse fun hp => (h hp).2).bind fun _ => follows_pure rfl
  | .loop condition body, _, h =>
    (expr_follows condition).bind fun _ => (stmt_follows body h).bind fun _ => follows_pure rfl
  | .function (.mk name params body), _, h =>
    (follows_define h name).bind fun _ =>
      ((stmts_follows body fun h => by cases h).inFunction .function params).bind fun _ =>
        follows_pure rfl
  | .return keyword value, _, _ => by
    refine follows_get fun wide narrow hw =>
      follows_check (by rw [hw.function]) .topLevelReturn keyword ?_
    exact (optionalExpr_follows value).bind fun _ => follows_pure rfl
  | .class name methods, _, h =>
    ((methodList_follows methods).inClass h name).bind fun _ => follows_pure rfl

theorem stmts_follows : (ss : List Stmt) → ∀ {place : Nat}, (place = 0 → ∀ s ∈ ss, s.Bindless) →
    Follows place (Stmt.widenAll withEmpty (some place)) (stmts ss) (stmts ss)
  | [], _, _ => follows_pure rfl
  | s :: ss, _, h =>
    (stmt_follows s fun hp => h hp s List.mem_cons_self).bind fun _ =>
      (stmts_follows ss fun hp s hs => h hp s (List.mem_cons_of_mem _ hs)).bind fun _ =>
        follows_pure rfl

theorem optionalStmt_follows : (o : Option Stmt) → ∀ {place : Nat},
    (place = 0 → Stmt.OptionBindless o) →
      Follows place (Stmt.widen? withEmpty (some place)) (optionalStmt o) (optionalStmt o)
  | none, _, _ => follows_pure rfl
  | some s, _, h => (stmt_follows s h).bind fun _ => follows_pure rfl

theorem method_follows : (f : FunctionDecl) → ∀ {place : Nat},
    Follows place (FunctionDecl.widen withEmpty (some place)) (method f) (method f)
  | .mk name params body, _ =>
    ((stmts_follows body fun h => by cases h).inFunction _ params).bind fun _ => follows_pure rfl

theorem methodList_follows : (fs : List FunctionDecl) → ∀ {place : Nat},
    Follows place (FunctionDecl.widenAll withEmpty (some place)) (methodList fs) (methodList fs)
  | [], _ => follows_pure rfl
  | f :: fs, _ =>
    (method_follows f).bind fun _ => (methodList_follows fs).bind fun _ => follows_pure rfl

end

end Analyze

end ScopedScript

import ScopedScript.Proofs.Scope.Code

/-!
# Where scope analysis refuses

What scope analysis refuses it refuses at a token: the name of the variable that is read too early,
`this`, or `return`.  All of them are tokens of the tree that is analyzed, so a property of all
tokens of a well-formed tree is one of the token at which the tree is refused.

## Main definitions

* `Analyze.Accuses P`: what a walk refuses it refuses at a token that has `P`.

## Main results

* `Analyze.expr_accuses`, `Analyze.stmts_accuses`: the walks do, over the tokens of their trees.
* `analyze_accuses`: so does the analysis of a program.
-/

namespace ScopedScript

namespace Analyze

variable {P : Token → Prop} {α β : Type}

/-- What the walk refuses it refuses at a token with the property. -/
def Accuses (P : Token → Prop) (walk : Analyze α) : Prop :=
  ∀ ⦃state e state'⦄, walk state = .error e state' → P e.token

theorem accuses_pure (a : α) : Accuses P (pure a) := by
  intro state e state' h
  cases h

theorem accuses_get : Accuses P (get : Analyze Analysis) := by
  intro state e state' h
  cases h

theorem accuses_modify (f : Analysis → Analysis) : Accuses P (modify f) := by
  intro state e state' h
  cases h

theorem accuses_refuse (fault : ScopeFault) {token : Token} (h : P token) :
    Accuses P (refuse fault token : Analyze α) := by
  intro state e state' he
  cases he
  exact h

theorem Accuses.bind {walk : Analyze α} {next : α → Analyze β} (h : Accuses P walk)
    (hn : ∀ a, Accuses P (next a)) : Accuses P (walk >>= next) := by
  intro state e state' he
  rcases bind_eq_error_iff.1 he with he | ⟨a, mid, -, he⟩
  · exact h he
  · exact hn a he

theorem accuses_ite {c : Prop} [Decidable c] {walk other : Analyze α} (h : Accuses P walk)
    (h' : Accuses P other) : Accuses P (if c then walk else other) := by
  split
  · exact h
  · exact h'

theorem accuses_locate (kind : ReferenceKind) (token : Token) :
    Accuses P (locate kind token) := by
  refine accuses_get.bind fun state => ?_
  dsimp only
  split
  · exact (accuses_modify _).bind fun _ => accuses_pure _
  · exact accuses_pure _

theorem accuses_inScope (scope : Scope) {walk : Analyze α} (h : Accuses P walk) :
    Accuses P (inScope scope walk) :=
  (accuses_modify _).bind fun _ => h.bind fun _ => (accuses_modify _).bind fun _ => accuses_pure _

theorem accuses_defineAll (params : List Token) : Accuses P (params.forM define) := by
  induction params with
  | nil => exact accuses_pure ()
  | cons param params ih => exact (accuses_modify _).bind fun _ => ih

theorem accuses_inFunction (context : FunctionContext) (params : List Token) {walk : Analyze α}
    (h : Accuses P walk) : Accuses P (inFunction context params walk) :=
  accuses_get.bind fun _ => (accuses_modify _).bind fun _ =>
    (accuses_inScope .empty ((accuses_defineAll params).bind fun _ => h)).bind fun _ =>
      (accuses_modify _).bind fun _ => accuses_pure _

theorem accuses_inClass (name : Token) {walk : Analyze α} (h : Accuses P walk) :
    Accuses P (inClass name walk) :=
  accuses_get.bind fun _ => (accuses_modify _).bind fun _ => (accuses_modify _).bind fun _ =>
    (accuses_inScope _ h).bind fun _ => (accuses_modify _).bind fun _ => accuses_pure _

/-- Locating a reference refuses nothing. -/
theorem accuses_reference {kind : ReferenceKind} {token : Token}
    (make : Option Int → List Scope → Expr) :
    Accuses P (do return make (← locate kind token) (← get).scopes) :=
  (accuses_locate kind token).bind fun _ => accuses_get.bind fun _ => accuses_pure _

mutual

/-- An expression is refused at one of its tokens. -/
theorem expr_accuses : (e : Expr) → e.WellFormed P → Accuses P (expr e)
  | .literal _, _ => accuses_pure _
  | .variable name _ _, h =>
    accuses_get.bind fun _ => accuses_ite
      ((accuses_refuse _ h.1).bind fun _ => accuses_reference (.variable name · ·))
      (accuses_reference (.variable name · ·))
  | .assign name value _ _, h =>
    (expr_accuses value h.2).bind fun value => accuses_reference (.assign name value · ·)
  | .group inner, h => (expr_accuses inner h).bind fun _ => accuses_pure _
  | .unary _ operand, h => (expr_accuses operand h.2.2).bind fun _ => accuses_pure _
  | .binary left _ right, h =>
    (expr_accuses left h.1).bind fun _ => (expr_accuses right h.2.2.2).bind fun _ => accuses_pure _
  | .logical left _ right, h =>
    (expr_accuses left h.1).bind fun _ => (expr_accuses right h.2.2.2).bind fun _ => accuses_pure _
  | .conditional condition whenTrue whenFalse, h =>
    (expr_accuses condition h.1).bind fun _ => (expr_accuses whenTrue h.2.1).bind fun _ =>
      (expr_accuses whenFalse h.2.2).bind fun _ => accuses_pure _
  | .sequence items, h => (exprs_accuses items h.2).bind fun _ => accuses_pure _
  | .call callee _ args, h =>
    (expr_accuses callee h.1).bind fun _ => (exprs_accuses args h.2.2.2).bind fun _ =>
      accuses_pure _
  | .lambda _ params body, h =>
    (accuses_inFunction _ params (stmts_accuses body h.2.2)).bind fun _ => accuses_pure _
  | .get object _, h => (expr_accuses object h.1).bind fun _ => accuses_pure _
  | .set object _ value, h =>
    (expr_accuses value h.2.2).bind fun _ => (expr_accuses object h.1).bind fun _ => accuses_pure _
  | .this keyword _ _, h =>
    accuses_get.bind fun _ => accuses_ite
      ((accuses_refuse _ h.1).bind fun _ => accuses_reference (.this keyword · ·))
      (accuses_reference (.this keyword · ·))

theorem exprs_accuses : (es : List Expr) → Expr.ItemsWellFormed P es → Accuses P (exprs es)
  | [], _ => accuses_pure _
  | e :: es, h =>
    (expr_accuses e h.1).bind fun _ => (exprs_accuses es h.2.2).bind fun _ => accuses_pure _

theorem optionalExpr_accuses : (o : Option Expr) → Expr.OptionWellFormed P o →
    Accuses P (optionalExpr o)
  | none, _ => accuses_pure _
  | some e, h => (expr_accuses e h).bind fun _ => accuses_pure _

/-- A statement is refused at one of its tokens. -/
theorem stmt_accuses : (s : Stmt) → s.WellFormed P → Accuses P (stmt s)
  | .expression inner, h => (expr_accuses inner h).bind fun _ => accuses_pure _
  | .print inner, h => (expr_accuses inner h).bind fun _ => accuses_pure _
  | .var _ initializer, h =>
    (accuses_modify _).bind fun _ => (optionalExpr_accuses initializer h.2).bind fun _ =>
      (accuses_modify _).bind fun _ => accuses_pure _
  | .block statements, h =>
    (accuses_inScope _ (stmts_accuses statements h)).bind fun _ => accuses_pure _
  | .branch condition whenTrue whenFalse, h =>
    (expr_accuses condition h.1).bind fun _ => (stmt_accuses whenTrue h.2.1).bind fun _ =>
      (optionalStmt_accuses whenFalse h.2.2.2).bind fun _ => accuses_pure _
  | .loop condition body, h =>
    (expr_accuses condition h.1).bind fun _ => (stmt_accuses body h.2.1).bind fun _ =>
      accuses_pure _
  | .function (.mk _ params body), h =>
    (accuses_modify _).bind fun _ =>
      (accuses_inFunction _ params (stmts_accuses body h.2.2)).bind fun _ => accuses_pure _
  | .return _ value, h =>
    accuses_get.bind fun _ => accuses_ite
      ((accuses_refuse _ h.1).bind fun _ => (optionalExpr_accuses value h.2).bind fun _ =>
        accuses_pure _)
      ((optionalExpr_accuses value h.2).bind fun _ => accuses_pure _)
  | .class name methods, h =>
    (accuses_inClass name (methodList_accuses methods h.2)).bind fun _ => accuses_pure _

/-- **Statements are refused at one of their tokens.** -/
theorem stmts_accuses : (ss : List Stmt) → Stmt.AllWellFormed P ss → Accuses P (stmts ss)
  | [], _ => accuses_pure _
  | s :: ss, h =>
    (stmt_accuses s h.1).bind fun _ => (stmts_accuses ss h.2).bind fun _ => accuses_pure _

theorem optionalStmt_accuses : (o : Option Stmt) → Stmt.OptionWellFormed P o →
    Accuses P (optionalStmt o)
  | none, _ => accuses_pure _
  | some s, h => (stmt_accuses s h.1).bind fun _ => accuses_pure _

theorem method_accuses : (f : FunctionDecl) → f.WellFormed P → Accuses P (method f)
  | .mk _ params body, h =>
    (accuses_inFunction _ params (stmts_accuses body h.2.2)).bind fun _ => accuses_pure _

theorem methodList_accuses : (fs : List FunctionDecl) → FunctionDecl.AllWellFormed P fs →
    Accuses P (methodList fs)
  | [], _ => accuses_pure _
  | f :: fs, h =>
    (method_accuses f h.1).bind fun _ => (methodList_accuses fs h.2).bind fun _ => accuses_pure _

end

end Analyze

/-- **A program is refused at one of its tokens.** -/
theorem analyze_accuses {P : Token → Prop} {statements : List Stmt}
    (hw : Stmt.AllWellFormed P statements) {e : ScopeError} (h : analyze statements = .error e) :
    P e.token := by
  unfold analyze at h
  split at h
  · cases h
  · rename_i hr
    cases h
    exact Analyze.stmts_accuses statements hw hr

end ScopedScript

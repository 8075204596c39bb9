import ScopedScript.Proofs.Relabel
import ScopedScript.Proofs.Scope.Context
import ScopedScript.Proofs.Scope.Loaded

/-!
# Scope analysis of relabelled trees

Scope analysis looks at names and at the scopes that are open, and never at lines.  So the
analysis of a tree on other lines finds the same numbers, and refuses the same on the other
lines.  Nor does it look at the references that it has noted before.  At the top level no scope
is open, and none stays open after a statement.  So the statements of a program are analyzed as
if each stood alone.

## Main definitions

* `Relabel.Walks`: a walk ends as another one does, relabelled.

## Main results

* `Analyze.stmts_walks`: the analysis of relabelled statements.
* `analyze_append`: the analysis of two programs, one after the other.
-/

namespace ScopedScript

namespace Relabel

variable (F : Relabel)

/-- The reference on its new line. -/
def reference (r : Reference) : Reference := { r with token := F.token r.token }

/-- The scope error on its new line. -/
def scopeError (e : ScopeError) : ScopeError := { e with token := F.token e.token }

/-- The state of the analysis on its new lines, where more references were noted before. -/
def analysis (earlier : List Reference) (state : Analysis) : Analysis :=
  { state with references := earlier ++ state.references.map F.reference }

/-- **A walk ends as another one does, relabelled.** -/
def Walks (earlier : List Reference) {α : Type} (f : α → α) (walk walk' : Analyze α) : Prop :=
  ∀ state, walk' (F.analysis earlier state) =
    match walk state with
    | .ok a state' => .ok (f a) (F.analysis earlier state')
    | .error e state' => .error (F.scopeError e) (F.analysis earlier state')

variable {F} {earlier : List Reference} {α β : Type} {f : α → α} {k : β → β}

theorem Walks.bind {walk walk' : Analyze α} {next next' : α → Analyze β}
    (h : F.Walks earlier f walk walk') (hn : ∀ a, F.Walks earlier k (next a) (next' (f a))) :
    F.Walks earlier k (walk >>= next) (walk' >>= next') := by
  intro state
  have hw := h state
  cases hs : walk state with
  | ok a state' =>
    rw [hs] at hw
    rw [bind_of_ok hs, bind_of_ok hw]
    exact hn a state'
  | error e state' =>
    rw [hs] at hw
    rw [show (walk >>= next) state = .error e state' from bind_eq_error_iff.2 (.inl hs)]
    exact bind_eq_error_iff.2 (.inl hw)

theorem walks_pure (a : α) : F.Walks earlier f (pure a) (pure (f a)) := fun _ => rfl

theorem walks_refuse (fault : ScopeFault) (token : Token) :
    F.Walks earlier f (Analyze.refuse fault token) (Analyze.refuse fault (F.token token)) :=
  fun _ => rfl

/-- A walk that goes by the state it finds. -/
theorem walks_get {next next' : Analysis → Analyze β}
    (h : ∀ state, F.Walks earlier k (next state) (next' (F.analysis earlier state))) :
    F.Walks earlier k (get >>= next) (get >>= next') :=
  fun state => h state state

theorem walks_modify {change change' : Analysis → Analysis}
    (h : ∀ state, change' (F.analysis earlier state) = F.analysis earlier (change state)) :
    F.Walks earlier id (modify change) (modify change') :=
  fun state => congrArg (EStateM.Result.ok ()) (h state)

theorem walks_mark (name : String) (ready : Bool) :
    F.Walks earlier id (modify (·.mark name ready)) (modify (·.mark name ready)) := by
  refine walks_modify fun state => ?_
  obtain ⟨scopes, _, _, _⟩ := state
  cases scopes <;> rfl

theorem walks_define (name : Token) :
    F.Walks earlier id (Analyze.define name) (Analyze.define (F.token name)) :=
  walks_mark name.lexeme true

theorem walks_declare (name : Token) :
    F.Walks earlier id (Analyze.declare name) (Analyze.declare (F.token name)) :=
  walks_mark name.lexeme false

theorem walks_locate (kind : ReferenceKind) (token : Token) :
    F.Walks earlier id (Analyze.locate kind token) (Analyze.locate kind (F.token token)) := by
  refine walks_get fun state => ?_
  rw [token_lexeme, show (F.analysis earlier state).hops? token.lexeme = state.hops? token.lexeme
    from rfl]
  cases state.hops? token.lexeme with
  | none => exact walks_pure none
  | some hops =>
    refine Walks.bind (walks_modify fun state => ?_) fun _ => walks_pure (some (Int.ofNat hops))
    simp only [analysis, List.map_append, List.append_assoc]
    rfl

theorem Walks.inScope {walk walk' : Analyze α} (h : F.Walks earlier f walk walk') (scope : Scope) :
    F.Walks earlier f (Analyze.inScope scope walk) (Analyze.inScope scope walk') :=
  Walks.bind (walks_modify fun _ => rfl) fun _ => h.bind fun a =>
    Walks.bind (walks_modify fun _ => rfl) fun _ => walks_pure a

theorem walks_forM_define (params : List Token) :
    F.Walks earlier id (params.forM Analyze.define) ((params.map F.token).forM Analyze.define) := by
  induction params with
  | nil => exact walks_pure _
  | cons param params ih => exact (walks_define param).bind fun _ => ih

theorem Walks.inFunction {walk walk' : Analyze α} (h : F.Walks earlier f walk walk')
    (context : FunctionContext) (params : List Token) :
    F.Walks earlier f (Analyze.inFunction context params walk)
      (Analyze.inFunction context (params.map F.token) walk') := by
  refine walks_get fun state => Walks.bind (walks_modify fun _ => rfl) fun _ => ?_
  refine (((walks_forM_define params).bind fun _ => h).inScope .empty).bind fun a => ?_
  exact Walks.bind (walks_modify fun _ => rfl) fun _ => walks_pure a

theorem Walks.inClass {walk walk' : Analyze α} (h : F.Walks earlier f walk walk')
    (name : Token) :
    F.Walks earlier f (Analyze.inClass name walk) (Analyze.inClass (F.token name) walk') := by
  refine walks_get fun state => Walks.bind (walks_modify fun _ => rfl) fun _ => ?_
  refine (walks_define name).bind fun _ => (h.inScope _).bind fun a => ?_
  exact Walks.bind (walks_modify fun _ => rfl) fun _ => walks_pure a

end Relabel

namespace Analyze

variable {line : Int → Int} {earlier : List Reference}

/-- A check that refuses the code or goes on. -/
theorem walks_check {α : Type} {F : Relabel} {f : α → α} {c : Prop} [Decidable c]
    (fault : ScopeFault) (token : Token) {walk walk' : Analyze α}
    (h : F.Walks earlier f walk walk') :
    F.Walks earlier f (if c then refuse fault token >>= fun (_ : Unit) => walk else walk)
      (if c then refuse fault (F.token token) >>= fun (_ : Unit) => walk' else walk') := by
  split
  · exact (Relabel.walks_refuse (f := id) fault token).bind fun _ => h
  · exact h

mutual

/-- The analysis of an expression on other lines. -/
theorem expr_walks : (e : Expr) → (Relabel.onLines line).Walks earlier (Relabel.onLines line).expr
    (expr e) (expr ((Relabel.onLines line).expr e))
  | .literal value => Relabel.walks_pure (Expr.literal value)
  | .variable name hops scopes => by
    refine Relabel.walks_get fun state => walks_check .ownInitializer name ?_
    refine (Relabel.walks_locate _ name).bind fun hops' => Relabel.walks_get fun state => ?_
    exact Relabel.walks_pure (Expr.variable name hops' state.scopes)
  | .assign name value hops scopes => by
    refine (expr_walks value).bind fun value' => (Relabel.walks_locate _ name).bind fun hops' => ?_
    exact Relabel.walks_get fun state =>
      Relabel.walks_pure (Expr.assign name value' hops' state.scopes)
  | .group inner => (expr_walks inner).bind fun inner' => Relabel.walks_pure (Expr.group inner')
  | .unary op operand =>
    (expr_walks operand).bind fun operand' => Relabel.walks_pure (Expr.unary op operand')
  | .binary left op right =>
    (expr_walks left).bind fun left' => (expr_walks right).bind fun right' =>
      Relabel.walks_pure (Expr.binary left' op right')
  | .logical left op right =>
    (expr_walks left).bind fun left' => (expr_walks right).bind fun right' =>
      Relabel.walks_pure (Expr.logical left' op right')
  | .conditional condition whenTrue whenFalse =>
    (expr_walks condition).bind fun condition' => (expr_walks whenTrue).bind fun whenTrue' =>
      (expr_walks whenFalse).bind fun whenFalse' =>
        Relabel.walks_pure (Expr.conditional condition' whenTrue' whenFalse')
  | .sequence items => (exprs_walks items).bind fun items' =>
      Relabel.walks_pure (Expr.sequence items')
  | .call callee paren args =>
    (expr_walks callee).bind fun callee' => (exprs_walks args).bind fun args' =>
      Relabel.walks_pure (Expr.call callee' paren args')
  | .lambda keyword params body =>
    ((stmts_walks body).inFunction .anonymous params).bind fun body' =>
      Relabel.walks_pure (Expr.lambda keyword params body')
  | .get object name =>
    (expr_walks object).bind fun object' => Relabel.walks_pure (Expr.get object' name)
  | .set object name value =>
    (expr_walks value).bind fun value' => (expr_walks object).bind fun object' =>
      Relabel.walks_pure (Expr.set object' name value')
  | .this keyword hops scopes => by
    refine Relabel.walks_get fun state => walks_check .thisOutsideClass keyword ?_
    refine (Relabel.walks_locate _ keyword).bind fun hops' => Relabel.walks_get fun state => ?_
    exact Relabel.walks_pure (Expr.this keyword hops' state.scopes)

theorem exprs_walks : (es : List Expr) →
    (Relabel.onLines line).Walks earlier (Relabel.onLines line).exprs (exprs es)
      (exprs ((Relabel.onLines line).exprs es))
  | [] => Relabel.walks_pure ([] : List Expr)
  | e :: es => (expr_walks e).bind fun e' => (exprs_walks es).bind fun es' =>
      Relabel.walks_pure (e' :: es')

theorem optionalExpr_walks : (o : Option Expr) →
    (Relabel.onLines line).Walks earlier (Relabel.onLines line).expr? (optionalExpr o)
      (optionalExpr ((Relabel.onLines line).expr? o))
  | none => Relabel.walks_pure (none : Option Expr)
  | some e => (expr_walks e).bind fun e' => Relabel.walks_pure (some e')

/-- The analysis of a statement on other lines. -/
theorem stmt_walks : (s : Stmt) → (Relabel.onLines line).Walks earlier (Relabel.onLines line).stmt
    (stmt s) (stmt ((Relabel.onLines line).stmt s))
  | .expression inner =>
    (expr_walks inner).bind fun inner' => Relabel.walks_pure (Stmt.expression inner')
  | .print inner => (expr_walks inner).bind fun inner' => Relabel.walks_pure (Stmt.print inner')
  | .var name initializer =>
    (Relabel.walks_declare name).bind fun _ => (optionalExpr_walks initializer).bind fun i' =>
      (Relabel.walks_define name).bind fun _ => Relabel.walks_pure (Stmt.var name i')
  | .block statements => ((stmts_walks statements).inScope .empty).bind fun statements' =>
      Relabel.walks_pure (Stmt.block statements')
  | .branch condition whenTrue whenFalse =>
    (expr_walks condition).bind fun condition' => (stmt_walks whenTrue).bind fun whenTrue' =>
      (optionalStmt_walks whenFalse).bind fun whenFalse' =>
        Relabel.walks_pure (Stmt.branch condition' whenTrue' whenFalse')
  | .loop condition body =>
    (expr_walks condition).bind fun condition' => (stmt_walks body).bind fun body' =>
      Relabel.walks_pure (Stmt.loop condition' body')
  | .function (.mk name params body) =>
    (Relabel.walks_define name).bind fun _ =>
      ((stmts_walks body).inFunction .function params).bind fun body' =>
        Relabel.walks_pure (Stmt.function (.mk name params body'))
  | .return keyword value => by
    refine Relabel.walks_get fun state => walks_check .topLevelReturn keyword ?_
    exact (optionalExpr_walks value).bind fun value' =>
      Relabel.walks_pure (Stmt.return keyword value')
  | .class name methods => ((methodList_walks methods).inClass name).bind fun methods' =>
      Relabel.walks_pure (Stmt.class name methods')

/-- **The analysis of statements on other lines.** -/
theorem stmts_walks : (ss : List Stmt) →
    (Relabel.onLines line).Walks earlier (Relabel.onLines line).stmts (stmts ss)
      (stmts ((Relabel.onLines line).stmts ss))
  | [] => Relabel.walks_pure ([] : List Stmt)
  | s :: ss => (stmt_walks s).bind fun s' => (stmts_walks ss).bind fun ss' =>
      Relabel.walks_pure (s' :: ss')

theorem optionalStmt_walks : (o : Option Stmt) →
    (Relabel.onLines line).Walks earlier (Relabel.onLines line).stmt? (optionalStmt o)
      (optionalStmt ((Relabel.onLines line).stmt? o))
  | none => Relabel.walks_pure (none : Option Stmt)
  | some s => (stmt_walks s).bind fun s' => Relabel.walks_pure (some s')

theorem method_walks : (f : FunctionDecl) →
    (Relabel.onLines line).Walks earlier (Relabel.onLines line).decl (method f)
      (method ((Relabel.onLines line).decl f))
  | .mk name params body => ((stmts_walks body).inFunction _ params).bind fun body' =>
      Relabel.walks_pure (FunctionDecl.mk name params body')

theorem methodList_walks : (fs : List FunctionDecl) →
    (Relabel.onLines line).Walks earlier (Relabel.onLines line).decls (methodList fs)
      (methodList ((Relabel.onLines line).decls fs))
  | [] => Relabel.walks_pure ([] : List FunctionDecl)
  | f :: fs => (method_walks f).bind fun f' => (methodList_walks fs).bind fun fs' =>
      Relabel.walks_pure (f' :: fs')

end

/-! ## One program after the other -/

theorem stmts_append {ss ss' located located' : List Stmt} {state mid state' : Analysis}
    (h : stmts ss state = .ok located mid) (h' : stmts ss' mid = .ok located' state') :
    stmts (ss ++ ss') state = .ok (located ++ located') state' := by
  induction ss generalizing state located with
  | nil =>
    obtain ⟨rfl, rfl⟩ := pure_eq_ok_iff.1 h
    exact h'
  | cons s ss ih =>
    simp only [stmts, bind_eq_ok_iff] at h
    obtain ⟨s', first, hs, rest, _, hss, h⟩ := h
    obtain ⟨rfl, rfl⟩ := pure_eq_ok_iff.1 h
    rw [List.cons_append, stmts, bind_of_ok hs, bind_of_ok (ih hss)]
    rfl

/-- Outside of every scope, statements leave no scope open. -/
theorem scopes_of_stmts {ss located : List Stmt} (hw : Stmt.AllWellFormed Spelled ss)
    {state state' : Analysis} (hs : state.scopes = []) (h : stmts ss state = .ok located state') :
    state'.scopes = [] := by
  induction ss generalizing state located with
  | nil =>
    obtain ⟨-, rfl⟩ := pure_eq_ok_iff.1 h
    exact hs
  | cons s ss ih =>
    simp only [stmts, bind_eq_ok_iff] at h
    obtain ⟨s', mid, hstmt, rest, _, hss, h⟩ := h
    obtain ⟨-, rfl⟩ := pure_eq_ok_iff.1 h
    obtain ⟨-, hmid, -⟩ := stmt_located s hw.1 hstmt
    rw [hs, Stmt.scopesAfter_nil] at hmid
    exact ih hw.2 hmid hss

end Analyze

theorem analyze_eq_ok_iff {ss located : List Stmt} :
    analyze ss = .ok located ↔ ∃ state, Analyze.stmts ss .initial = .ok located state := by
  unfold analyze EStateM.run
  cases Analyze.stmts ss .initial with
  | ok resolved state => simp
  | error e state => simp

/-- **The analysis of two programs, one after the other**, the second on other lines: the
references of each are given the numbers that they are given when it stands alone. -/
theorem analyze_append {ss ss' located located' : List Stmt}
    (hw : Stmt.AllWellFormed Analyze.Spelled ss) (h : analyze ss = .ok located)
    (h' : analyze ss' = .ok located') (line : Int → Int) :
    analyze (ss ++ (Relabel.onLines line).stmts ss') =
      .ok (located ++ (Relabel.onLines line).stmts located') := by
  obtain ⟨mid, h⟩ := analyze_eq_ok_iff.1 h
  obtain ⟨last, h'⟩ := analyze_eq_ok_iff.1 h'
  have hscopes : mid.scopes = [] := Analyze.scopes_of_stmts hw rfl h
  have hcontext := Analyze.stmts_restores ss h
  have hmid : mid = (Relabel.onLines line).analysis mid.references .initial := by
    obtain ⟨scopes, enclosing, inClass, references⟩ := mid
    obtain ⟨rfl, rfl⟩ := hcontext
    obtain rfl := hscopes
    simp [Relabel.analysis, Analysis.initial]
  have hwalks : (Relabel.onLines line).Walks mid.references _ (Analyze.stmts ss') _ :=
    Analyze.stmts_walks ss'
  have hsecond := hwalks .initial
  rw [← hmid, h'] at hsecond
  exact analyze_eq_ok_iff.2 ⟨_, Analyze.stmts_append h hsecond⟩

end ScopedScript

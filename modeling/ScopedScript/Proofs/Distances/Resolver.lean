import ScopedScript.Proofs.Distances.Numbering
import ScopedScript.Proofs.Results
import ScopedScript.Scope

/-!
# Scope analysis with a table

Scope analysis that leaves the tree alone, and enters the number of frames at a reference into a
table, under the number of its node.  The entries are made while the tree is walked.  So if the
analysis refuses the code in the end, the entries that were made until then stay.

The table then says of every reference what scope analysis writes into the tree, and an analysis
that refuses the code refuses it in the same way.  In both cases only numbers of this tree have
new entries.

## Main definitions

* `Distances`: the table.
* `Resolve`: scope analysis with a table, and `Resolve.stmts`, its walk.
* `Resolve.Tracks`: a walk with a table does what a walk without one does.

## Main results

* `Resolve.stmts_tracks`: the walk with a table does what scope analysis does.
* `Analyze.stmts_plain`: scope analysis does not look at the labels that are there before.
-/

namespace ScopedScript

/-! ## The table -/

/-- **A table of distances**: numbers of nodes with numbers of frames, the latest entry first. -/
structure Distances where
  entries : List (Int × Int)

namespace Distances

/-- The table without entries. -/
def empty : Distances := ⟨[]⟩

/-- The number of frames under a label. -/
def read (table : Distances) : Option Int → Option Int
  | none => none
  | some n => table.entries.lookup n

/-- The table with one more entry. -/
def enter (table : Distances) (label : Option Int) (distance : Int) : Distances :=
  match label with
  | none => table
  | some n => ⟨(n, distance) :: table.entries⟩

/-- **The table has grown** under some labels at most. -/
def Grows (labels : List (Option Int)) (before after : Distances) : Prop :=
  ∀ label, label ∉ labels → after.read label = before.read label

/-- The labels are different numbers without entries. -/
structure Unread (table : Distances) (labels : List (Option Int)) : Prop where
  nodup : labels.Nodup
  none_notMem : none ∉ labels
  read : ∀ label ∈ labels, table.read label = none

variable {table before after : Distances} {labels more : List (Option Int)}

theorem Grows.refl (labels : List (Option Int)) (table : Distances) : Grows labels table table :=
  fun _ _ => rfl

/-- A table that grows twice has grown by both lists of labels. -/
theorem Grows.trans (h : Grows labels before table) (h' : Grows more table after) :
    Grows (labels ++ more) before after := by
  intro label hl
  rw [List.mem_append, not_or] at hl
  exact (h' label hl.2).trans (h label hl.1)

/-- A label of another tree is read as before. -/
theorem Grows.agree (h : Grows more before after) (hd : (labels ++ more).Nodup) :
    Agree after.read before.read labels :=
  fun label hl => h label fun hm => (List.nodup_append.1 hd).2.2 label hl label hm rfl

theorem Unread.left (h : table.Unread (labels ++ more)) : table.Unread labels :=
  ⟨(List.nodup_append.1 h.nodup).1, fun hl => h.none_notMem (List.mem_append_left _ hl),
    fun label hl => h.read label (List.mem_append_left _ hl)⟩

/-- The second labels are still unread after the first were entered. -/
theorem Unread.right (h : before.Unread (labels ++ more)) (hg : Grows labels before after) :
    after.Unread more := by
  obtain ⟨-, hmore, hdisjoint⟩ := List.nodup_append.1 h.nodup
  refine ⟨hmore, fun hl => h.none_notMem (List.mem_append_right _ hl), fun label hl => ?_⟩
  rw [hg label fun hm => hdisjoint label hm label hl rfl]
  exact h.read label (List.mem_append_right _ hl)

/-- What was entered is read. -/
theorem read_enter_self (table : Distances) (n distance : Int) :
    (table.enter (some n) distance).read (some n) = some distance := by
  simp [enter, read]

/-- Entering a distance changes what is read under its label only. -/
theorem grows_enter (table : Distances) (label : Option Int) (distance : Int) :
    Grows [label] table (table.enter label distance) := by
  intro other hl
  rw [List.mem_singleton] at hl
  cases label with
  | none => rfl
  | some n =>
    cases other with
    | none => rfl
    | some m =>
      have hne : (m == n) = false := beq_false_of_ne fun he => hl (congrArg some he)
      simp [enter, read, List.lookup_cons, hne]

end Distances

/-! ## The walk -/

/-- The state of scope analysis with a table. -/
structure Resolution where
  analysis : Analysis
  distances : Distances

/-- **Scope analysis with a table.** -/
abbrev Resolve := EStateM ScopeError Resolution

namespace Resolve

/-- A step of scope analysis, which makes no entry. -/
def ofAnalyze {α : Type} (walk : Analyze α) : Resolve α := fun state =>
  match walk state.analysis with
  | .ok a analysis => .ok a { state with analysis := analysis }
  | .error e analysis => .error e { state with analysis := analysis }

/-- Enters the number of frames to the variable named by a token, if the variable is local. -/
def note (kind : ReferenceKind) (token : Token) (label : Option Int) : Resolve Unit := do
  if let some distance ← ofAnalyze (Analyze.locate kind token) then
    modify fun state => { state with distances := state.distances.enter label distance }

/-- Walks code inside one more scope. -/
def inScope (scope : Scope) (walk : Resolve Unit) : Resolve Unit := do
  ofAnalyze (modify fun state => { state with scopes := scope :: state.scopes })
  walk
  ofAnalyze (modify fun state => { state with scopes := state.scopes.tail })

/-- Walks the body of a function. -/
def inFunction (context : FunctionContext) (params : List Token) (walk : Resolve Unit) :
    Resolve Unit := do
  let outer := (← get).analysis.function
  ofAnalyze (modify fun state => { state with function := context })
  inScope .empty do
    ofAnalyze (params.forM Analyze.define)
    walk
  ofAnalyze (modify fun state => { state with function := outer })

/-- Walks the methods of a class. -/
def inClass (name : Token) (walk : Resolve Unit) : Resolve Unit := do
  let outer := (← get).analysis.inClass
  ofAnalyze (modify fun state => { state with inClass := true })
  ofAnalyze (Analyze.define name)
  inScope (NameMap.empty.insert "this" true) walk
  ofAnalyze (modify fun state => { state with inClass := outer })

mutual

/-- Enters the references of an expression. -/
def expr : Expr → Resolve Unit
  | .literal _ => return
  | .variable name label _ => do
    if (← get).analysis.isPending name.lexeme then
      ofAnalyze (Analyze.refuse .ownInitializer name)
    note .variable name label
  | .assign name value label _ => do
    expr value
    note .assign name label
  | .group inner => expr inner
  | .unary _ operand => expr operand
  | .binary left _ right => do
    expr left
    expr right
  | .logical left _ right => do
    expr left
    expr right
  | .conditional condition whenTrue whenFalse => do
    expr condition
    expr whenTrue
    expr whenFalse
  | .sequence items => exprs items
  | .call callee _ args => do
    expr callee
    exprs args
  | .lambda _ params body => inFunction .anonymous params (stmts body)
  | .get object _ => expr object
  | .set object _ value => do
    expr value
    expr object
  | .this keyword label _ => do
    if !(← get).analysis.inClass then ofAnalyze (Analyze.refuse .thisOutsideClass keyword)
    note .this keyword label

/-- Enters the references of expressions in order. -/
def exprs : List Expr → Resolve Unit
  | [] => return
  | e :: es => do
    expr e
    exprs es

/-- Enters the references of an expression that may be missing. -/
def optionalExpr : Option Expr → Resolve Unit
  | none => return
  | some e => expr e

/-- Enters the references of a statement. -/
def stmt : Stmt → Resolve Unit
  | .expression inner => expr inner
  | .print inner => expr inner
  | .var name initializer => do
    ofAnalyze (Analyze.declare name)
    optionalExpr initializer
    ofAnalyze (Analyze.define name)
  | .block statements => inScope .empty (stmts statements)
  | .branch condition whenTrue whenFalse => do
    expr condition
    stmt whenTrue
    optionalStmt whenFalse
  | .loop condition body => do
    expr condition
    stmt body
  | .function (.mk name params body) => do
    ofAnalyze (Analyze.define name)
    inFunction .function params (stmts body)
  | .return keyword value => do
    if (← get).analysis.function = .none then ofAnalyze (Analyze.refuse .topLevelReturn keyword)
    optionalExpr value
  | .class name methods => inClass name (methodList methods)

/-- Enters the references of statements in order. -/
def stmts : List Stmt → Resolve Unit
  | [] => return
  | s :: ss => do
    stmt s
    stmts ss

/-- Enters the references of a statement that may be missing. -/
def optionalStmt : Option Stmt → Resolve Unit
  | none => return
  | some s => stmt s

/-- Enters the references of a method. -/
def method : FunctionDecl → Resolve Unit
  | .mk name params body => inFunction (Analyze.methodContext name) params (stmts body)

/-- Enters the references of methods in order. -/
def methodList : List FunctionDecl → Resolve Unit
  | [] => return
  | f :: fs => do
    method f
    methodList fs

end

/-! ## What the walk does -/

/-- **A walk with a table does what a walk without one does**: it ends in the same way, and only
`labels` have new entries.  If it comes to its end, then `done` holds of its result and of every
way to read that agrees on these labels with the table. -/
def Tracks {α : Type} (labels : List (Option Int)) (done : (Option Int → Option Int) → α → Prop)
    (walk : Analyze α) (walk' : Resolve Unit) : Prop :=
  ∀ analysis table, table.Unread labels →
    match walk analysis with
    | .ok a analysis' => ∃ table', walk' ⟨analysis, table⟩ = .ok () ⟨analysis', table'⟩ ∧
        Distances.Grows labels table table' ∧ ∀ read, Agree read table'.read labels → done read a
    | .error e analysis' => ∃ table', walk' ⟨analysis, table⟩ = .error e ⟨analysis', table'⟩ ∧
        Distances.Grows labels table table'

section Steps

variable {α β : Type} {labels more : List (Option Int)}
  {done : (Option Int → Option Int) → α → Prop} {done' : (Option Int → Option Int) → β → Prop}

/-- Walks in a row keep in step.  Entries of the second leave those of the first as they were. -/
theorem Tracks.bind {walk : Analyze α} {next : α → Analyze β} {walk' next' : Resolve Unit}
    (h : Tracks labels done walk walk')
    (hn : ∀ a, Tracks more (fun read b => done read a → done' read b) (next a) next') :
    Tracks (labels ++ more) done' (walk >>= next) (walk' >>= fun _ => next') := by
  intro analysis table hunread
  have hfirst := h analysis table hunread.left
  cases hw : walk analysis with
  | error e analysis' =>
    rw [hw] at hfirst
    obtain ⟨table', hw', hgrows⟩ := hfirst
    rw [show (walk >>= next) analysis = .error e analysis' from bind_eq_error_iff.2 (.inl hw)]
    exact ⟨table', bind_eq_error_iff.2 (.inl hw'), hgrows.trans (.refl more table')⟩
  | ok a mid =>
    rw [hw] at hfirst
    obtain ⟨table₁, hw', hgrows, hdone⟩ := hfirst
    rw [bind_of_ok hw, bind_of_ok hw']
    have hsecond := hn a mid table₁ (hunread.right hgrows)
    cases hnext : next a mid with
    | error e analysis' =>
      rw [hnext] at hsecond
      obtain ⟨table₂, hnext', hgrows'⟩ := hsecond
      exact ⟨table₂, hnext', hgrows.trans hgrows'⟩
    | ok b analysis' =>
      rw [hnext] at hsecond
      obtain ⟨table₂, hnext', hgrows', hdone'⟩ := hsecond
      refine ⟨table₂, hnext', hgrows.trans hgrows', fun read hread => ?_⟩
      -- the second entries are under other labels, so the first are read as before
      refine hdone' read hread.right (hdone read fun label hl => ?_)
      exact (hread.left label hl).trans (hgrows'.agree hunread.nodup label hl)

/-- The end of a walk, where nothing is entered. -/
theorem Tracks.last {walk : Analyze α} {next : α → Analyze β} {walk' : Resolve Unit}
    (h : Tracks labels done walk walk')
    (hn : ∀ a state, ∃ b, next a state = .ok b state ∧ ∀ read, done read a → done' read b) :
    Tracks labels done' (walk >>= next) walk' := by
  intro analysis table hunread
  have hwalk := h analysis table hunread
  cases hw : walk analysis with
  | error e analysis' =>
    rw [hw] at hwalk
    rw [show (walk >>= next) analysis = .error e analysis' from bind_eq_error_iff.2 (.inl hw)]
    exact hwalk
  | ok a analysis' =>
    rw [hw] at hwalk
    obtain ⟨b, hb, hdone'⟩ := hn a analysis'
    rw [bind_of_ok hw, hb]
    obtain ⟨table', hw', hgrows, hdone⟩ := hwalk
    exact ⟨table', hw', hgrows, fun read hread => hdone' read (hdone read hread)⟩

theorem Tracks.imp {other : (Option Int → Option Int) → α → Prop} {walk : Analyze α}
    {walk' : Resolve Unit} (h : Tracks labels done walk walk')
    (himp : ∀ read a, done read a → other read a) : Tracks labels other walk walk' := by
  intro analysis table hunread
  have hwalk := h analysis table hunread
  cases hw : walk analysis with
  | error e analysis' =>
    rw [hw] at hwalk
    exact hwalk
  | ok a analysis' =>
    rw [hw] at hwalk
    obtain ⟨table', hw', hgrows, hdone⟩ := hwalk
    exact ⟨table', hw', hgrows, fun read hread => himp read a (hdone read hread)⟩

/-- A walk that goes on without entering anything. -/
theorem Tracks.bind_nil {walk : Analyze α} {next : α → Analyze β} {walk' next' : Resolve Unit}
    (h : Tracks labels done walk walk')
    (hn : ∀ a, Tracks [] (fun read b => done read a → done' read b) (next a) next') :
    Tracks labels done' (walk >>= next) (walk' >>= fun _ => next') := by
  have hbind := h.bind hn
  rwa [List.append_nil] at hbind

theorem tracks_pure {a : α} (h : ∀ read, done read a) : Tracks [] done (pure a) (pure ()) :=
  fun _ table _ => ⟨table, rfl, .refl [] table, fun read _ => h read⟩

/-- A step of scope analysis that locates nothing. -/
theorem tracks_ofAnalyze (walk : Analyze Unit) :
    Tracks [] (fun _ _ => True) walk (ofAnalyze walk) := by
  intro analysis table _
  unfold ofAnalyze
  cases hw : walk analysis with
  | ok a analysis' => exact ⟨table, rfl, .refl [] table, fun _ _ => trivial⟩
  | error e analysis' => exact ⟨table, rfl, .refl [] table⟩

/-- Two walks, of which the first is a step of scope analysis. -/
theorem tracks_step (step : Analyze Unit) {next : Analyze β} {next' : Resolve Unit}
    (h : Tracks labels done' next next') :
    Tracks labels done' (step >>= fun _ => next) (ofAnalyze step >>= fun _ => next') := by
  change Tracks ([] ++ labels) done' _ _
  exact (tracks_ofAnalyze step).bind fun _ => h.imp fun _ _ hdone _ => hdone

/-- A walk that goes by the state it finds. -/
theorem tracks_get {next : Analysis → Analyze β} {next' : Resolution → Resolve Unit}
    (h : ∀ analysis table, Tracks labels done' (next analysis) (next' ⟨analysis, table⟩)) :
    Tracks labels done' (get >>= next) (get >>= next') :=
  fun analysis table hunread => h analysis table analysis table hunread

/-- A check that refuses the code or goes on. -/
theorem tracks_check {c : Prop} [Decidable c] (fault : ScopeFault) (token : Token)
    {walk : Analyze β} {walk' : Resolve Unit} (h : Tracks labels done' walk walk') :
    Tracks labels done'
      (if c then Analyze.refuse fault token >>= fun (_ : Unit) => walk else walk)
      (if c then ofAnalyze (Analyze.refuse fault token) >>= fun (_ : Unit) => walk'
        else walk') := by
  split
  · exact tracks_step _ h
  · exact h

/-- Both walks count the same scopes, and the second enters what the first writes into the tree. -/
theorem note_of_locate {kind : ReferenceKind} {token : Token} {hops : Option Int}
    {analysis analysis' : Analysis} (h : Analyze.locate kind token analysis = .ok hops analysis')
    (label : Option Int) (table : Distances) :
    note kind token label ⟨analysis, table⟩ =
      .ok () ⟨analysis', hops.elim table (table.enter label)⟩ := by
  have hof : ofAnalyze (Analyze.locate kind token) ⟨analysis, table⟩ =
      .ok hops ⟨analysis', table⟩ := by
    simp only [ofAnalyze, h]
  rw [note, bind_of_ok hof]
  cases hops <;> rfl

/-- **A reference is entered as it is located.** -/
theorem tracks_note (kind : ReferenceKind) (token : Token) (label : Option Int) :
    Tracks [label] (fun read hops => read label = hops) (Analyze.locate kind token)
      (note kind token label) := by
  intro analysis table hunread
  obtain ⟨hops, analysis', hlocate⟩ :
      ∃ hops analysis', Analyze.locate kind token analysis = .ok hops analysis' := by
    unfold Analyze.locate
    rw [bind_of_ok (show (get : Analyze Analysis) analysis = .ok analysis analysis from rfl)]
    cases analysis.hops? token.lexeme <;> exact ⟨_, _, rfl⟩
  rw [hlocate]
  refine ⟨_, note_of_locate hlocate label table, ?_⟩
  cases hops with
  | none =>
    -- what is not local has no entry, neither before nor after
    refine ⟨.refl _ table, fun read hread => hread.of_singleton.trans ?_⟩
    exact hunread.read label List.mem_cons_self
  | some distance =>
    refine ⟨Distances.grows_enter table label distance, fun read hread => ?_⟩
    obtain ⟨n, rfl⟩ := Option.ne_none_iff_exists'.1 fun he : label = none =>
      hunread.none_notMem (he ▸ List.mem_cons_self)
    exact hread.of_singleton.trans (Distances.read_enter_self table n distance)

/-- Walks keep in step inside a new scope. -/
theorem Tracks.inScope {walk : Analyze α} {walk' : Resolve Unit} (h : Tracks labels done walk walk')
    (scope : Scope) : Tracks labels done (Analyze.inScope scope walk) (inScope scope walk') :=
  tracks_step _ <| h.bind_nil fun _ => (tracks_ofAnalyze _).last fun _ _ =>
    ⟨_, rfl, fun _ _ hdone => hdone⟩

/-- Walks keep in step inside a function. -/
theorem Tracks.inFunction {walk : Analyze α} {walk' : Resolve Unit}
    (h : Tracks labels done walk walk') (context : FunctionContext) (params : List Token) :
    Tracks labels done (Analyze.inFunction context params walk)
      (inFunction context params walk') := by
  refine tracks_get fun _ _ => tracks_step _ ?_
  refine ((tracks_step (params.forM Analyze.define) h).inScope .empty).bind_nil fun _ => ?_
  exact (tracks_ofAnalyze _).last fun _ _ => ⟨_, rfl, fun _ _ hdone => hdone⟩

/-- Walks keep in step inside a class. -/
theorem Tracks.inClass {walk : Analyze α} {walk' : Resolve Unit}
    (h : Tracks labels done walk walk') (name : Token) :
    Tracks labels done (Analyze.inClass name walk) (inClass name walk') := by
  refine tracks_get fun _ _ => tracks_step _ (tracks_step _ ?_)
  exact (h.inScope _).bind_nil fun _ =>
    (tracks_ofAnalyze _).last fun _ _ => ⟨_, rfl, fun _ _ hdone => hdone⟩

end Steps

open Relabel (reading bare)

/-! The tree with its numbers read is the tree that scope analysis makes. -/

mutual

/-- **The walk over an expression.** -/
theorem expr_tracks : (e : Expr) →
    Tracks e.labels (fun read e' => (reading read).expr e = bare.expr e') (Analyze.expr e) (expr e)
  | .literal _ => tracks_pure fun _ => rfl
  | .variable name label _ => by
    refine tracks_get fun _ _ => tracks_check .ownInitializer name ?_
    refine (tracks_note .variable name label).last fun hops state => ⟨_, rfl, fun read hread => ?_⟩
    simp only [Relabel.expr, reading, hread]
    rfl
  | .this keyword label _ => by
    refine tracks_get fun _ _ => tracks_check .thisOutsideClass keyword ?_
    refine (tracks_note .this keyword label).last fun hops state => ⟨_, rfl, fun read hread => ?_⟩
    simp only [Relabel.expr, reading, hread]
    rfl
  | .assign name value label _ => by
    refine (expr_tracks value).bind fun value' => ?_
    refine (tracks_note .assign name label).last fun hops state => ⟨_, rfl, fun read hread hv => ?_⟩
    simp only [Relabel.expr, hv]
    simp only [reading, hread]
    rfl
  | .group inner => (expr_tracks inner).last fun _ _ => ⟨_, rfl, fun _ => congrArg Expr.group⟩
  | .unary op operand =>
    (expr_tracks operand).last fun _ _ => ⟨_, rfl, fun _ => congrArg (Expr.unary op)⟩
  | .binary left op right =>
    (expr_tracks left).bind fun _ => (expr_tracks right).last fun _ _ =>
      ⟨_, rfl, fun _ hr hl => by simp only [Relabel.expr, hl, hr]; rfl⟩
  | .logical left op right =>
    (expr_tracks left).bind fun _ => (expr_tracks right).last fun _ _ =>
      ⟨_, rfl, fun _ hr hl => by simp only [Relabel.expr, hl, hr]; rfl⟩
  | .conditional condition whenTrue whenFalse =>
    (expr_tracks condition).bind fun _ => (expr_tracks whenTrue).bind fun _ =>
      (expr_tracks whenFalse).last fun _ _ =>
        ⟨_, rfl, fun _ hf ht hc => by simp only [Relabel.expr, hc, ht, hf]⟩
  | .sequence items =>
    (exprs_tracks items).last fun _ _ => ⟨_, rfl, fun _ => congrArg Expr.sequence⟩
  | .call callee paren args =>
    (expr_tracks callee).bind fun _ => (exprs_tracks args).last fun _ _ =>
      ⟨_, rfl, fun _ ha hc => by simp only [Relabel.expr, hc, ha]; rfl⟩
  | .lambda keyword params body =>
    ((stmts_tracks body).inFunction .anonymous params).last fun _ _ =>
      ⟨_, rfl, fun _ hb => by simp only [Relabel.expr, hb]; rfl⟩
  | .get object name =>
    (expr_tracks object).last fun _ _ => ⟨_, rfl, fun _ => congrArg (Expr.get · name)⟩
  | .set object name value =>
    (expr_tracks value).bind fun _ => (expr_tracks object).last fun _ _ =>
      ⟨_, rfl, fun _ ho hv => by simp only [Relabel.expr, ho, hv]; rfl⟩

theorem exprs_tracks : (es : List Expr) →
    Tracks (Expr.labelsOf es) (fun read es' => (reading read).exprs es = bare.exprs es')
      (Analyze.exprs es) (exprs es)
  | [] => tracks_pure fun _ => rfl
  | e :: es => (expr_tracks e).bind fun _ => (exprs_tracks es).last fun _ _ =>
      ⟨_, rfl, fun _ hes he => by simp only [Relabel.exprs, he, hes]⟩

theorem optionalExpr_tracks : (o : Option Expr) →
    Tracks (Expr.labels? o) (fun read o' => (reading read).expr? o = bare.expr? o')
      (Analyze.optionalExpr o) (optionalExpr o)
  | none => tracks_pure fun _ => rfl
  | some e => (expr_tracks e).last fun _ _ => ⟨_, rfl, fun _ => congrArg some⟩

/-- **The walk over a statement.** -/
theorem stmt_tracks : (s : Stmt) →
    Tracks s.labels (fun read s' => (reading read).stmt s = bare.stmt s') (Analyze.stmt s) (stmt s)
  | .expression inner =>
    (expr_tracks inner).last fun _ _ => ⟨_, rfl, fun _ => congrArg Stmt.expression⟩
  | .print inner => (expr_tracks inner).last fun _ _ => ⟨_, rfl, fun _ => congrArg Stmt.print⟩
  | .var name initializer =>
    tracks_step _ <| (optionalExpr_tracks initializer).bind_nil fun _ =>
      (tracks_ofAnalyze _).last fun _ _ => ⟨_, rfl, fun _ _ => congrArg (Stmt.var name)⟩
  | .block statements =>
    ((stmts_tracks statements).inScope .empty).last fun _ _ =>
      ⟨_, rfl, fun _ => congrArg Stmt.block⟩
  | .branch condition whenTrue whenFalse =>
    (expr_tracks condition).bind fun _ => (stmt_tracks whenTrue).bind fun _ =>
      (optionalStmt_tracks whenFalse).last fun _ _ =>
        ⟨_, rfl, fun _ hf ht hc => by simp only [Relabel.stmt, hc, ht, hf]⟩
  | .loop condition body =>
    (expr_tracks condition).bind fun _ => (stmt_tracks body).last fun _ _ =>
      ⟨_, rfl, fun _ hb hc => by simp only [Relabel.stmt, hc, hb]⟩
  | .function (.mk name params body) =>
    tracks_step _ <| ((stmts_tracks body).inFunction .function params).last fun _ _ =>
      ⟨_, rfl, fun _ hb => by simp only [Relabel.stmt, Relabel.decl, hb]; rfl⟩
  | .return keyword value =>
    tracks_get fun _ _ => tracks_check .topLevelReturn keyword <|
      (optionalExpr_tracks value).last fun _ _ => ⟨_, rfl, fun _ => congrArg (Stmt.return keyword)⟩
  | .class name methods =>
    ((methodList_tracks methods).inClass name).last fun _ _ =>
      ⟨_, rfl, fun _ => congrArg (Stmt.class name)⟩

/-- **The walk over statements.** -/
theorem stmts_tracks : (ss : List Stmt) →
    Tracks (Stmt.labelsOf ss) (fun read ss' => (reading read).stmts ss = bare.stmts ss')
      (Analyze.stmts ss) (stmts ss)
  | [] => tracks_pure fun _ => rfl
  | s :: ss => (stmt_tracks s).bind fun _ => (stmts_tracks ss).last fun _ _ =>
      ⟨_, rfl, fun _ hss hs => by simp only [Relabel.stmts, hs, hss]⟩

theorem optionalStmt_tracks : (o : Option Stmt) →
    Tracks (Stmt.labels? o) (fun read o' => (reading read).stmt? o = bare.stmt? o')
      (Analyze.optionalStmt o) (optionalStmt o)
  | none => tracks_pure fun _ => rfl
  | some s => (stmt_tracks s).last fun _ _ => ⟨_, rfl, fun _ => congrArg some⟩

theorem method_tracks : (f : FunctionDecl) →
    Tracks f.labels (fun read f' => (reading read).decl f = bare.decl f') (Analyze.method f)
      (method f)
  | .mk name params body =>
    ((stmts_tracks body).inFunction (Analyze.methodContext name) params).last fun _ _ =>
      ⟨_, rfl, fun _ hb => by simp only [Relabel.decl, hb]; rfl⟩

theorem methodList_tracks : (fs : List FunctionDecl) →
    Tracks (FunctionDecl.labelsOf fs) (fun read fs' => (reading read).decls fs = bare.decls fs')
      (Analyze.methodList fs) (methodList fs)
  | [] => tracks_pure fun _ => rfl
  | f :: fs => (method_tracks f).bind fun _ => (methodList_tracks fs).last fun _ _ =>
      ⟨_, rfl, fun _ hfs hf => by simp only [Relabel.decls, hf, hfs]⟩

end

end Resolve

/-! ## Labels that are there before -/

namespace Analyze

open Relabel (plain)

theorem tokens_plain (tokens : List Token) : tokens.map plain.token = tokens :=
  List.map_id tokens

mutual

/-- The walk does not look at what is written into an expression. -/
theorem expr_plain (e : Expr) : expr (plain.expr e) = expr e := by
  cases e with
  | literal | «variable» | this => rfl
  | assign name value hops scopes => simp only [Relabel.expr, expr, expr_plain value]; rfl
  | group inner => simp only [Relabel.expr, expr, expr_plain inner]
  | unary op operand => simp only [Relabel.expr, expr, expr_plain operand]; rfl
  | binary left op right => simp only [Relabel.expr, expr, expr_plain left, expr_plain right]; rfl
  | logical left op right => simp only [Relabel.expr, expr, expr_plain left, expr_plain right]; rfl
  | conditional condition whenTrue whenFalse =>
    simp only [Relabel.expr, expr, expr_plain condition, expr_plain whenTrue, expr_plain whenFalse]
  | sequence items => simp only [Relabel.expr, expr, exprs_plain items]
  | call callee paren args =>
    simp only [Relabel.expr, expr, expr_plain callee, exprs_plain args]
    rfl
  | lambda keyword params body =>
    simp only [Relabel.expr, expr, tokens_plain, stmts_plain body]
    rfl
  | get object name => simp only [Relabel.expr, expr, expr_plain object]; rfl
  | set object name value =>
    simp only [Relabel.expr, expr, expr_plain object, expr_plain value]
    rfl

theorem exprs_plain (es : List Expr) : exprs (plain.exprs es) = exprs es := by
  cases es with
  | nil => rfl
  | cons e es => simp only [Relabel.exprs, exprs, expr_plain e, exprs_plain es]

theorem optionalExpr_plain (o : Option Expr) : optionalExpr (plain.expr? o) = optionalExpr o := by
  cases o with
  | none => rfl
  | some e => simp only [Relabel.expr?, optionalExpr, expr_plain e]

/-- The walk does not look at what is written into a statement. -/
theorem stmt_plain (s : Stmt) : stmt (plain.stmt s) = stmt s := by
  cases s with
  | expression inner => simp only [Relabel.stmt, stmt, expr_plain inner]
  | print inner => simp only [Relabel.stmt, stmt, expr_plain inner]
  | var name initializer => simp only [Relabel.stmt, stmt, optionalExpr_plain initializer]; rfl
  | block statements => simp only [Relabel.stmt, stmt, stmts_plain statements]
  | branch condition whenTrue whenFalse =>
    simp only [Relabel.stmt, stmt, expr_plain condition, stmt_plain whenTrue,
      optionalStmt_plain whenFalse]
  | loop condition body => simp only [Relabel.stmt, stmt, expr_plain condition, stmt_plain body]
  | function f =>
    cases f with
    | mk name params body =>
      simp only [Relabel.stmt, Relabel.decl, stmt, tokens_plain, stmts_plain body]
      rfl
  | «return» keyword value => simp only [Relabel.stmt, stmt, optionalExpr_plain value]; rfl
  | «class» name methods => simp only [Relabel.stmt, stmt, methodList_plain methods]; rfl

/-- **Scope analysis does not look at the labels that are there before.** -/
theorem stmts_plain (ss : List Stmt) : stmts (plain.stmts ss) = stmts ss := by
  cases ss with
  | nil => rfl
  | cons s ss => simp only [Relabel.stmts, stmts, stmt_plain s, stmts_plain ss]

theorem optionalStmt_plain (o : Option Stmt) : optionalStmt (plain.stmt? o) = optionalStmt o := by
  cases o with
  | none => rfl
  | some s => simp only [Relabel.stmt?, optionalStmt, stmt_plain s]

theorem method_plain (f : FunctionDecl) : method (plain.decl f) = method f := by
  cases f with
  | mk name params body =>
    simp only [Relabel.decl, method, tokens_plain, stmts_plain body]
    rfl

theorem methodList_plain (fs : List FunctionDecl) :
    methodList (plain.decls fs) = methodList fs := by
  cases fs with
  | nil => rfl
  | cons f fs => simp only [Relabel.decls, methodList, method_plain f, methodList_plain fs]

end

end Analyze

end ScopedScript

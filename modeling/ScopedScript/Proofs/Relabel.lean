import ScopedScript.Machine

/-!
# Relabelling

Trees carry labels that decide nothing about what is computed: the lines of tokens, which only
errors name, and the scopes that were noted at references.  The number at a reference does decide
where a variable is looked for, but only once, when the reference is evaluated.  A relabelling
changes these labels, in trees and in everything that holds trees: functions, classes, the heap
and the machine.

## Main definitions

* `Relabel`: what becomes of the labels.
* `Relabel.expr`, `Relabel.stmt`, `Relabel.decl`: relabelled trees.
* `Relabel.closure`, `Relabel.heap`, `Relabel.machine`: what holds them.
* `Relabel.result`: how a step ends.

## Main results

* `Relabel.expr_comp`, `Relabel.stmt_comp`: one relabelling after the other.
-/

namespace ScopedScript

/-! ## Maps of names -/

/-- The map with its values changed. -/
def NameMap.map {α β : Type} (f : α → β) (table : NameMap α) : NameMap β :=
  ⟨table.entries.map fun entry => (entry.1, f entry.2)⟩

/-- What a mapped table has under a name is what the table had, mapped. -/
@[simp]
theorem NameMap.get?_map {α β : Type} (f : α → β) (table : NameMap α) (name : String) :
    (table.map f).get? name = (table.get? name).map f := by
  obtain ⟨entries⟩ := table
  change lookupEntry name (entries.map _) = (lookupEntry name entries).map f
  induction entries with
  | nil => rfl
  | cons entry rest ih =>
    simp only [List.map_cons, lookupEntry]
    split
    · rfl
    · exact ih

/-- Mapping a table after an entry was added, or adding the mapped entry afterwards, comes to the
same. -/
theorem NameMap.map_insert {α β : Type} (f : α → β) (table : NameMap α) (name : String)
    (value : α) : (table.insert name value).map f = (table.map f).insert name (f value) := by
  obtain ⟨entries⟩ := table
  refine congrArg NameMap.mk ?_
  change (insertEntry name value entries).map _ = insertEntry name (f value) (entries.map _)
  induction entries with
  | nil => rfl
  | cons entry rest ih =>
    simp only [List.map_cons, insertEntry]
    split
    · rfl
    · rw [List.map_cons, ih]

/-! ## Trees -/

/-- **What becomes of the labels in a tree.** -/
structure Relabel where
  line : Int → Int
  hops : Option Int → Option Int
  scopes : List Scope → List Scope

namespace Relabel

/-- Only the lines change. -/
def onLines (line : Int → Int) : Relabel := ⟨line, id, id⟩

/-- One relabelling after the other. -/
def comp (G F : Relabel) : Relabel :=
  ⟨G.line ∘ F.line, G.hops ∘ F.hops, G.scopes ∘ F.scopes⟩

variable (F G : Relabel)

/-- The token on its new line. -/
def token (token : Token) : Token := { token with line := F.line token.line }

@[simp]
theorem token_kind (token : Token) : (F.token token).kind = token.kind := rfl

@[simp]
theorem token_lexeme (token : Token) : (F.token token).lexeme = token.lexeme := rfl

theorem token_ident (name : String) (line : Int) :
    F.token (.ident name line) = .ident name (F.line line) := rfl

mutual

/-- **The relabelled expression.** -/
def expr : Expr → Expr
  | .literal value => .literal value
  | .variable name hops scopes => .variable (F.token name) (F.hops hops) (F.scopes scopes)
  | .assign name value hops scopes =>
    .assign (F.token name) (expr value) (F.hops hops) (F.scopes scopes)
  | .group inner => .group (expr inner)
  | .unary op operand => .unary (F.token op) (expr operand)
  | .binary left op right => .binary (expr left) (F.token op) (expr right)
  | .logical left op right => .logical (expr left) (F.token op) (expr right)
  | .conditional condition whenTrue whenFalse =>
    .conditional (expr condition) (expr whenTrue) (expr whenFalse)
  | .sequence items => .sequence (exprs items)
  | .call callee paren args => .call (expr callee) (F.token paren) (exprs args)
  | .lambda keyword params body => .lambda (F.token keyword) (params.map F.token) (stmts body)
  | .get object name => .get (expr object) (F.token name)
  | .set object name value => .set (expr object) (F.token name) (expr value)
  | .this keyword hops scopes => .this (F.token keyword) (F.hops hops) (F.scopes scopes)

/-- The relabelled expressions, in order. -/
def exprs : List Expr → List Expr
  | [] => []
  | e :: es => expr e :: exprs es

/-- The relabelled expression, if there is one. -/
def expr? : Option Expr → Option Expr
  | none => none
  | some e => some (expr e)

/-- **The relabelled statement.** -/
def stmt : Stmt → Stmt
  | .expression inner => .expression (expr inner)
  | .print inner => .print (expr inner)
  | .var name initializer => .var (F.token name) (expr? initializer)
  | .block statements => .block (stmts statements)
  | .branch condition whenTrue whenFalse =>
    .branch (expr condition) (stmt whenTrue) (stmt? whenFalse)
  | .loop condition body => .loop (expr condition) (stmt body)
  | .function f => .function (decl f)
  | .return keyword value => .return (F.token keyword) (expr? value)
  | .class name methods => .class (F.token name) (decls methods)

/-- The relabelled statements, in order. -/
def stmts : List Stmt → List Stmt
  | [] => []
  | s :: ss => stmt s :: stmts ss

/-- The relabelled statement, if there is one. -/
def stmt? : Option Stmt → Option Stmt
  | none => none
  | some s => some (stmt s)

/-- **The relabelled function.** -/
def decl : FunctionDecl → FunctionDecl
  | .mk name params body => .mk (F.token name) (params.map F.token) (stmts body)

/-- The relabelled functions, in order. -/
def decls : List FunctionDecl → List FunctionDecl
  | [] => []
  | f :: fs => decl f :: decls fs

end

/-- Relabelling statements in a row relabels each. -/
theorem stmts_append (ss ss' : List Stmt) : F.stmts (ss ++ ss') = F.stmts ss ++ F.stmts ss' := by
  induction ss with
  | nil => rfl
  | cons s ss ih => rw [List.cons_append, stmts, stmts, ih, List.cons_append]

@[simp]
theorem decl_name (f : FunctionDecl) : (F.decl f).name = F.token f.name := by cases f; rfl

@[simp]
theorem decl_params (f : FunctionDecl) : (F.decl f).params = f.params.map F.token := by
  cases f; rfl

@[simp]
theorem decl_body (f : FunctionDecl) : (F.decl f).body = F.stmts f.body := by cases f; rfl

/-! ### One after the other -/

theorem tokens_comp (tokens : List Token) :
    tokens.map (G.comp F).token = (tokens.map F.token).map G.token := by
  rw [List.map_map]
  rfl

mutual

/-- Relabelling an expression twice is relabelling it once, by both one after the other. -/
theorem expr_comp (e : Expr) : (G.comp F).expr e = G.expr (F.expr e) := by
  cases e with
  | literal => rfl
  | «variable» => rfl
  | this => rfl
  | assign name value hops scopes => simp only [expr, expr_comp value]; rfl
  | group inner => simp only [expr, expr_comp inner]
  | unary op operand => simp only [expr, expr_comp operand]; rfl
  | binary left op right => simp only [expr, expr_comp left, expr_comp right]; rfl
  | logical left op right => simp only [expr, expr_comp left, expr_comp right]; rfl
  | conditional condition whenTrue whenFalse =>
    simp only [expr, expr_comp condition, expr_comp whenTrue, expr_comp whenFalse]
  | sequence items => simp only [expr, exprs_comp items]
  | call callee paren args => simp only [expr, expr_comp callee, exprs_comp args]; rfl
  | lambda keyword params body => simp only [expr, tokens_comp, stmts_comp body]; rfl
  | get object name => simp only [expr, expr_comp object]; rfl
  | set object name value => simp only [expr, expr_comp object, expr_comp value]; rfl

theorem exprs_comp (es : List Expr) : (G.comp F).exprs es = G.exprs (F.exprs es) := by
  cases es with
  | nil => rfl
  | cons e es => simp only [exprs, expr_comp e, exprs_comp es]

theorem expr?_comp (o : Option Expr) : (G.comp F).expr? o = G.expr? (F.expr? o) := by
  cases o with
  | none => rfl
  | some e => simp only [expr?, expr_comp e]

/-- Relabelling a statement twice is relabelling it once, by both one after the other. -/
theorem stmt_comp (s : Stmt) : (G.comp F).stmt s = G.stmt (F.stmt s) := by
  cases s with
  | expression inner => simp only [stmt, expr_comp inner]
  | print inner => simp only [stmt, expr_comp inner]
  | var name initializer => simp only [stmt, expr?_comp initializer]; rfl
  | block ss => simp only [stmt, stmts_comp ss]
  | branch condition whenTrue whenFalse =>
    simp only [stmt, expr_comp condition, stmt_comp whenTrue, stmt?_comp whenFalse]
  | loop condition body => simp only [stmt, expr_comp condition, stmt_comp body]
  | function f => simp only [stmt, decl_comp f]
  | «return» keyword value => simp only [stmt, expr?_comp value]; rfl
  | «class» name methods => simp only [stmt, decls_comp methods]; rfl

theorem stmts_comp (ss : List Stmt) : (G.comp F).stmts ss = G.stmts (F.stmts ss) := by
  cases ss with
  | nil => rfl
  | cons s ss => simp only [stmts, stmt_comp s, stmts_comp ss]

theorem stmt?_comp (o : Option Stmt) : (G.comp F).stmt? o = G.stmt? (F.stmt? o) := by
  cases o with
  | none => rfl
  | some s => simp only [stmt?, stmt_comp s]

theorem decl_comp (f : FunctionDecl) : (G.comp F).decl f = G.decl (F.decl f) := by
  cases f with
  | mk name params body => simp only [decl, tokens_comp, stmts_comp body]; rfl

theorem decls_comp (fs : List FunctionDecl) : (G.comp F).decls fs = G.decls (F.decls fs) := by
  cases fs with
  | nil => rfl
  | cons f fs => simp only [decls, decl_comp f, decls_comp fs]

end

/-! ## What holds trees -/

/-- The relabelled function value. -/
def closure (closure : Closure) : Closure :=
  { closure with params := closure.params.map F.token, body := F.stmts closure.body }

/-- The relabelled class. -/
def classDef (cls : ClassDef) : ClassDef := { cls with methods := cls.methods.map F.closure }

/-- What a value can be called as, relabelled. -/
def callable : Callable → Callable
  | .function c => .function (F.closure c)
  | .native code => .native code
  | .class handle cls => .class handle (F.classDef cls)

/-- **The relabelled heap.** -/
def heap (heap : Heap) : Heap :=
  { heap with
    functions := heap.functions.map F.closure
    classes := heap.classes.map F.classDef }

/-- **The relabelled machine.** -/
def machine (machine : Machine) : Machine := { machine with heap := F.heap machine.heap }

/-- The error on its new line. -/
def error (e : RuntimeError) : RuntimeError := { e with line := e.line.map F.line }

/-- The stop on its new line, if it is an error. -/
def stop : Stop → Stop
  | .error e => .error (F.error e)
  | .tooDeep => .tooDeep
  | .tooLong => .tooLong

/-- **How a relabelled step ends**, where `f` relabels its result. -/
def result {α : Type} (f : α → α) : EStateM.Result Stop Machine α → EStateM.Result Stop Machine α
  | .ok a m => .ok (f a) (F.machine m)
  | .error s m => .error (F.stop s) (F.machine m)

end Relabel

end ScopedScript

import ScopedScript.Proofs.Relabel

/-!
# The numbers in a tree

The numbers at the references of a tree, in the order in which scope analysis comes by them.  They
can be read through a function, as when they stand for something that is looked up in a table.
What a tree becomes then depends on how the numbers in it are read, and not on how others are.

## Main definitions

* `Expr.labels`, `Stmt.labels`: the numbers at the references.
* `Relabel.reading`: the numbers are read, and the scopes are left out.
* `Agree`: two ways to read do the same to some numbers.

## Main results

* `Agree.expr`, `Agree.stmt`: a tree becomes the same if its numbers are read in the same way.
* `Relabel.machine_comp`: one relabelling of a machine after the other.
-/

namespace ScopedScript

mutual

/-- **The numbers at the references of an expression.** -/
def Expr.labels : Expr → List (Option Int)
  | .literal _ => []
  | .variable _ hops _ => [hops]
  | .assign _ value hops _ => value.labels ++ [hops]
  | .group inner => inner.labels
  | .unary _ operand => operand.labels
  | .binary left _ right => left.labels ++ right.labels
  | .logical left _ right => left.labels ++ right.labels
  | .conditional condition whenTrue whenFalse =>
    condition.labels ++ (whenTrue.labels ++ whenFalse.labels)
  | .sequence items => Expr.labelsOf items
  | .call callee _ args => callee.labels ++ Expr.labelsOf args
  | .lambda _ _ body => Stmt.labelsOf body
  | .get object _ => object.labels
  | .set object _ value => value.labels ++ object.labels
  | .this _ hops _ => [hops]

/-- The numbers at the references of expressions, in order. -/
def Expr.labelsOf : List Expr → List (Option Int)
  | [] => []
  | e :: es => e.labels ++ Expr.labelsOf es

/-- The numbers at the references of an expression, if there is one. -/
def Expr.labels? : Option Expr → List (Option Int)
  | none => []
  | some e => e.labels

/-- **The numbers at the references of a statement.** -/
def Stmt.labels : Stmt → List (Option Int)
  | .expression inner => inner.labels
  | .print inner => inner.labels
  | .var _ initializer => Expr.labels? initializer
  | .block statements => Stmt.labelsOf statements
  | .branch condition whenTrue whenFalse =>
    condition.labels ++ (whenTrue.labels ++ Stmt.labels? whenFalse)
  | .loop condition body => condition.labels ++ body.labels
  | .function decl => decl.labels
  | .return _ value => Expr.labels? value
  | .class _ methods => FunctionDecl.labelsOf methods

/-- The numbers at the references of statements, in order. -/
def Stmt.labelsOf : List Stmt → List (Option Int)
  | [] => []
  | s :: ss => s.labels ++ Stmt.labelsOf ss

/-- The numbers at the references of a statement, if there is one. -/
def Stmt.labels? : Option Stmt → List (Option Int)
  | none => []
  | some s => s.labels

/-- The numbers at the references of a function. -/
def FunctionDecl.labels : FunctionDecl → List (Option Int)
  | .mk _ _ body => Stmt.labelsOf body

/-- The numbers at the references of functions, in order. -/
def FunctionDecl.labelsOf : List FunctionDecl → List (Option Int)
  | [] => []
  | f :: fs => f.labels ++ FunctionDecl.labelsOf fs

end

/-- **The numbers are read through `read`**, and the scopes are left out. -/
def Relabel.reading (read : Option Int → Option Int) : Relabel := ⟨id, read, fun _ => []⟩

/-- The numbers are left as they are. -/
abbrev Relabel.bare : Relabel := .reading id

/-- The numbers are left out. -/
abbrev Relabel.plain : Relabel := .reading fun _ => none

/-- **Two ways to read agree** on some numbers. -/
def Agree (read read' : Option Int → Option Int) (labels : List (Option Int)) : Prop :=
  ∀ label ∈ labels, read label = read' label

namespace Agree

variable {read read' : Option Int → Option Int} {labels more : List (Option Int)}

theorem left (h : Agree read read' (labels ++ more)) : Agree read read' labels :=
  fun label hl => h label (List.mem_append_left _ hl)

theorem right (h : Agree read read' (labels ++ more)) : Agree read read' more :=
  fun label hl => h label (List.mem_append_right _ hl)

theorem of_singleton {label : Option Int} (h : Agree read read' [label]) :
    read label = read' label :=
  h label List.mem_cons_self

open Relabel (reading)

mutual

/-- **An expression becomes the same if its numbers are read in the same way.** -/
theorem expr : {e : Expr} → Agree read read' e.labels →
    (reading read).expr e = (reading read').expr e
  | .literal _, _ => rfl
  | .variable name _ scopes, h | .this name _ scopes, h => by
    simp only [Relabel.expr, reading, of_singleton h]
    rfl
  | .assign name value _ scopes, h => by
    simp only [Relabel.expr, expr h.left]
    simp only [reading, of_singleton h.right]
    rfl
  | .group inner, h => congrArg Expr.group (expr (e := inner) h)
  | .unary op operand, h => congrArg (Expr.unary op) (expr (e := operand) h)
  | .binary left op right, h | .logical left op right, h => by
    simp only [Relabel.expr, expr h.left, expr h.right]
    rfl
  | .conditional condition whenTrue whenFalse, h => by
    simp only [Relabel.expr, expr h.left, expr h.right.left, expr h.right.right]
  | .sequence items, h => congrArg Expr.sequence (exprs h)
  | .call callee paren args, h => by
    simp only [Relabel.expr, expr h.left, exprs h.right]
    rfl
  | .lambda keyword params body, h => by
    simp only [Relabel.expr, stmts h]
    rfl
  | .get object name, h => congrArg (Expr.get · name) (expr (e := object) h)
  | .set object name value, h => by
    simp only [Relabel.expr, expr h.left, expr h.right]
    rfl

theorem exprs : {es : List Expr} → Agree read read' (Expr.labelsOf es) →
    (reading read).exprs es = (reading read').exprs es
  | [], _ => rfl
  | e :: es, h => by rw [Relabel.exprs, Relabel.exprs, expr h.left, exprs h.right]

theorem expr? : {o : Option Expr} → Agree read read' (Expr.labels? o) →
    (reading read).expr? o = (reading read').expr? o
  | none, _ => rfl
  | some e, h => congrArg some (expr (e := e) h)

/-- **A statement becomes the same if its numbers are read in the same way.** -/
theorem stmt : {s : Stmt} → Agree read read' s.labels →
    (reading read).stmt s = (reading read').stmt s
  | .expression inner, h => congrArg Stmt.expression (expr (e := inner) h)
  | .print inner, h => congrArg Stmt.print (expr (e := inner) h)
  | .var name initializer, h => congrArg (Stmt.var name) (expr? h)
  | .block statements, h => congrArg Stmt.block (stmts h)
  | .branch condition whenTrue whenFalse, h => by
    simp only [Relabel.stmt, expr h.left, stmt h.right.left, stmt? h.right.right]
  | .loop condition body, h => by simp only [Relabel.stmt, expr h.left, stmt h.right]
  | .function f, h => congrArg Stmt.function (decl h)
  | .return keyword value, h => congrArg (Stmt.return keyword) (expr? h)
  | .class name methods, h => congrArg (Stmt.class name) (decls h)

theorem stmts : {ss : List Stmt} → Agree read read' (Stmt.labelsOf ss) →
    (reading read).stmts ss = (reading read').stmts ss
  | [], _ => rfl
  | s :: ss, h => by rw [Relabel.stmts, Relabel.stmts, stmt h.left, stmts h.right]

theorem stmt? : {o : Option Stmt} → Agree read read' (Stmt.labels? o) →
    (reading read).stmt? o = (reading read').stmt? o
  | none, _ => rfl
  | some s, h => congrArg some (stmt (s := s) h)

theorem decl : {f : FunctionDecl} → Agree read read' f.labels →
    (reading read).decl f = (reading read').decl f
  | .mk name params body, h => by
    simp only [Relabel.decl, stmts h]
    rfl

theorem decls : {fs : List FunctionDecl} → Agree read read' (FunctionDecl.labelsOf fs) →
    (reading read).decls fs = (reading read').decls fs
  | [], _ => rfl
  | f :: fs, h => by rw [Relabel.decls, Relabel.decls, decl h.left, decls h.right]

end

end Agree

/-! ## Machines -/

namespace Relabel

variable (F G : Relabel)

theorem closure_comp (c : Closure) : (G.comp F).closure c = G.closure (F.closure c) := by
  rw [closure, tokens_comp, stmts_comp]
  rfl

theorem classDef_comp (cls : ClassDef) : (G.comp F).classDef cls = G.classDef (F.classDef cls) := by
  have hmethods : (G.comp F).closure = G.closure ∘ F.closure := funext (closure_comp F G)
  simp only [classDef, NameMap.map, hmethods, List.map_map]
  rfl

/-- **One relabelling of a machine after the other.** -/
theorem machine_comp (m : Machine) : (G.comp F).machine m = G.machine (F.machine m) := by
  have hfunctions : (G.comp F).closure = G.closure ∘ F.closure := funext (closure_comp F G)
  have hclasses : (G.comp F).classDef = G.classDef ∘ F.classDef := funext (classDef_comp F G)
  simp only [machine, heap, hfunctions, hclasses, Array.map_map]

/-- Numbers that are read twice. -/
theorem machine_reading (read read' : Option Int → Option Int) (m : Machine) :
    (reading read').machine ((reading read).machine m) = (reading (read' ∘ read)).machine m :=
  (machine_comp (reading read) (reading read') m).symm

end Relabel

end ScopedScript

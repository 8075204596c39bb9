import ScopedScript.Proofs.Relabel.Grammar
import ScopedScript.Proofs.Relabel.Labels

/-!
# Numbered trees

Instead of writing the number of frames into a reference, one can give each node a number of its
own when it is read, and look the number of frames up in a table.  In such a tree a reference
carries the number of its node where other trees carry the number of frames.

How the numbers are handed out does not matter, as long as no number is handed out twice.  A
numbering may skip numbers, as when a node is read and then thrown away, and a source that is
refused may take some too.

## Main definitions

* `Fresh`: labels that are different numbers from a range.
* `Numbering`: a way to hand out numbers.
* `Numbering.inOrder`: every expression takes the next number when its parts have theirs.

## Main results

* `Derives.labels_eq_none`: a tree that was read has no numbers yet.
-/

namespace ScopedScript

/-! ## Different numbers from a range -/

/-- **Labels that are different numbers**, from `start` on and below `stop`. -/
structure Fresh (start stop : Int) (labels : List (Option Int)) : Prop where
  le : start ≤ stop
  mem : ∀ label ∈ labels, ∃ n, label = some n ∧ start ≤ n ∧ n < stop
  nodup : labels.Nodup

namespace Fresh

variable {start mid stop : Int} {labels more : List (Option Int)}

theorem nil (h : start ≤ stop) : Fresh start stop [] := ⟨h, by simp, List.nodup_nil⟩

theorem singleton (n : Int) : Fresh n (n + 1) [some n] := by
  refine ⟨by omega, fun label hl => ?_, by simp⟩
  exact ⟨n, List.mem_singleton.1 hl, by omega, by omega⟩

/-- One range after the other. -/
theorem append (h : Fresh start mid labels) (h' : Fresh mid stop more) :
    Fresh start stop (labels ++ more) := by
  have hle := h.le
  have hle' := h'.le
  refine ⟨by omega, ?_, List.nodup_append.2 ⟨h.nodup, h'.nodup, ?_⟩⟩
  · intro label hl
    rcases List.mem_append.1 hl with hl | hl
    · obtain ⟨n, rfl, hn, hn'⟩ := h.mem label hl
      exact ⟨n, rfl, hn, by omega⟩
    · obtain ⟨n, rfl, hn, hn'⟩ := h'.mem label hl
      exact ⟨n, rfl, by omega, hn'⟩
  · rintro label hl _ hl' rfl
    obtain ⟨n, rfl, -, hn⟩ := h.mem label hl
    obtain ⟨n', he, hn', -⟩ := h'.mem _ hl'
    cases he
    omega

/-- The same labels in a longer range. -/
theorem extend (h : Fresh start mid labels) (hle : mid ≤ stop) : Fresh start stop labels := by
  have happend := h.append (nil hle)
  rwa [List.append_nil] at happend

theorem none_notMem (h : Fresh start stop labels) : none ∉ labels := by
  intro hl
  obtain ⟨n, he, -⟩ := h.mem none hl
  cases he

end Fresh

/-! ## Numberings -/

/-- **A way to hand out numbers.**  A tree is given numbers from a number on, and the number
after all of them is returned; the tree stays the same apart from its labels.  A source takes
`spent` numbers besides, whether or not a tree is read from it. -/
structure Numbering where
  spent : String → Nat
  expr : Int → Expr → Expr × Int
  stmt : Int → Stmt → Stmt × Int
  stmts : Int → List Stmt → List Stmt × Int
  expr_plain : ∀ start e, Relabel.plain.expr (expr start e).1 = Relabel.plain.expr e
  stmt_plain : ∀ start s, Relabel.plain.stmt (stmt start s).1 = Relabel.plain.stmt s
  stmts_plain : ∀ start ss, Relabel.plain.stmts (stmts start ss).1 = Relabel.plain.stmts ss
  expr_fresh : ∀ start e, Fresh start (expr start e).2 (expr start e).1.labels
  stmt_fresh : ∀ start s, Fresh start (stmt start s).2 (stmt start s).1.labels
  stmts_fresh : ∀ start ss, Fresh start (stmts start ss).2 (Stmt.labelsOf (stmts start ss).1)

namespace Numbering

/-! ### In order -/

/-- The next number. -/
def next : StateM Int Int := fun n => (n, n + 1)

/-- An expression that is no reference takes a number, too. -/
def node (e : Expr) : StateM Int Expr := do
  let _ ← next
  return e

mutual

/-- Numbers an expression. -/
def ofExpr : Expr → StateM Int Expr
  | .literal value => node (.literal value)
  | .variable name _ _ => do return .variable name (some (← next)) []
  | .assign name value _ _ => do
    let value ← ofExpr value
    return .assign name value (some (← next)) []
  | .group inner => do node (.group (← ofExpr inner))
  | .unary op operand => do node (.unary op (← ofExpr operand))
  | .binary left op right => do
    let left ← ofExpr left
    node (.binary left op (← ofExpr right))
  | .logical left op right => do
    let left ← ofExpr left
    node (.logical left op (← ofExpr right))
  | .conditional condition whenTrue whenFalse => do
    let condition ← ofExpr condition
    let whenTrue ← ofExpr whenTrue
    node (.conditional condition whenTrue (← ofExpr whenFalse))
  | .sequence items => do node (.sequence (← ofExprs items))
  | .call callee paren args => do
    let callee ← ofExpr callee
    node (.call callee paren (← ofExprs args))
  | .lambda keyword params body => do node (.lambda keyword params (← ofStmts body))
  | .get object name => do node (.get (← ofExpr object) name)
  | .set object name value => do
    let value ← ofExpr value
    node (.set (← ofExpr object) name value)
  | .this keyword _ _ => do return .this keyword (some (← next)) []

/-- Numbers expressions in order. -/
def ofExprs : List Expr → StateM Int (List Expr)
  | [] => return []
  | e :: es => do
    let e ← ofExpr e
    return e :: (← ofExprs es)

/-- Numbers an expression that may be missing. -/
def ofExpr? : Option Expr → StateM Int (Option Expr)
  | none => return none
  | some e => do return some (← ofExpr e)

/-- Numbers a statement. -/
def ofStmt : Stmt → StateM Int Stmt
  | .expression inner => do return .expression (← ofExpr inner)
  | .print inner => do return .print (← ofExpr inner)
  | .var name initializer => do return .var name (← ofExpr? initializer)
  | .block statements => do return .block (← ofStmts statements)
  | .branch condition whenTrue whenFalse => do
    let condition ← ofExpr condition
    let whenTrue ← ofStmt whenTrue
    return .branch condition whenTrue (← ofStmt? whenFalse)
  | .loop condition body => do
    let condition ← ofExpr condition
    return .loop condition (← ofStmt body)
  | .function decl => do return .function (← ofDecl decl)
  | .return keyword value => do return .return keyword (← ofExpr? value)
  | .class name methods => do return .class name (← ofDecls methods)

/-- Numbers statements in order. -/
def ofStmts : List Stmt → StateM Int (List Stmt)
  | [] => return []
  | s :: ss => do
    let s ← ofStmt s
    return s :: (← ofStmts ss)

/-- Numbers a statement that may be missing. -/
def ofStmt? : Option Stmt → StateM Int (Option Stmt)
  | none => return none
  | some s => do return some (← ofStmt s)

/-- Numbers a function. -/
def ofDecl : FunctionDecl → StateM Int FunctionDecl
  | .mk name params body => do return .mk name params (← ofStmts body)

/-- Numbers functions in order. -/
def ofDecls : List FunctionDecl → StateM Int (List FunctionDecl)
  | [] => return []
  | f :: fs => do
    let f ← ofDecl f
    return f :: (← ofDecls fs)

end

/-- **A step of a numbering that goes on after `earlier` labels**: its result has the labels up to
then and fresh ones, and is as `good` says. -/
def Continues {α : Type} (earlier : List (Option Int)) (labels : α → List (Option Int))
    (good : α → Prop) (step : StateM Int α) : Prop :=
  ∀ first start, Fresh first start earlier →
    Fresh first (step start).2 (labels (step start).1) ∧ good (step start).1

section Steps

variable {α β : Type} {earlier : List (Option Int)} {labels : α → List (Option Int)}
  {labels' : β → List (Option Int)} {good : α → Prop} {good' : β → Prop}

theorem Continues.bind {step : StateM Int α} {rest : α → StateM Int β}
    (h : Continues [] labels good step)
    (hr : ∀ a, good a → Continues (earlier ++ labels a) labels' good' (rest a)) :
    Continues earlier labels' good' (step >>= rest) := by
  intro first start hearlier
  obtain ⟨hfresh, hgood⟩ := h start start (.nil (Int.le_refl start))
  exact hr _ hgood first _ (hearlier.append hfresh)

theorem continues_pure {a : α} (hl : labels a = earlier) (hg : good a) :
    Continues earlier labels good (pure a) := by
  rintro first start hearlier
  rw [← hl] at hearlier
  exact ⟨hearlier, hg⟩

theorem continues_next : Continues [] (fun n => [some n]) (fun _ => True) next :=
  fun _ start hearlier => ⟨hearlier.append (.singleton start), trivial⟩

theorem continues_node {e : Expr} {good : Expr → Prop} (hl : e.labels = earlier) (hg : good e) :
    Continues earlier Expr.labels good (node e) := by
  intro first start hearlier
  rw [← hl] at hearlier
  exact ⟨hearlier.extend (show start ≤ start + 1 by omega), hg⟩

end Steps

open Relabel (plain)

mutual

theorem ofExpr_continues : (e : Expr) →
    Continues [] Expr.labels (fun e' => plain.expr e' = plain.expr e) (ofExpr e)
  | .literal _ => continues_node rfl rfl
  | .variable _ _ _ | .this _ _ _ => continues_next.bind fun _ _ => continues_pure rfl rfl
  | .assign _ value _ _ =>
    (ofExpr_continues value).bind fun _ hv => continues_next.bind fun _ _ =>
      continues_pure rfl (by simp only [Relabel.expr, hv]; rfl)
  | .group inner => (ofExpr_continues inner).bind fun _ hi =>
      continues_node rfl (by simp only [Relabel.expr, hi])
  | .unary _ operand => (ofExpr_continues operand).bind fun _ ho =>
      continues_node rfl (by simp only [Relabel.expr, ho])
  | .binary left _ right | .logical left _ right =>
    (ofExpr_continues left).bind fun _ hl => (ofExpr_continues right).bind fun _ hr =>
      continues_node rfl (by simp only [Relabel.expr, hl, hr])
  | .conditional condition whenTrue whenFalse =>
    (ofExpr_continues condition).bind fun _ hc => (ofExpr_continues whenTrue).bind fun _ ht =>
      (ofExpr_continues whenFalse).bind fun _ hf =>
        continues_node (by simp [Expr.labels]) (by simp only [Relabel.expr, hc, ht, hf])
  | .sequence items => (ofExprs_continues items).bind fun _ hi =>
      continues_node rfl (by simp only [Relabel.expr, hi])
  | .call callee _ args =>
    (ofExpr_continues callee).bind fun _ hc => (ofExprs_continues args).bind fun _ ha =>
      continues_node rfl (by simp only [Relabel.expr, hc, ha])
  | .lambda _ _ body => (ofStmts_continues body).bind fun _ hb =>
      continues_node rfl (by simp only [Relabel.expr, hb])
  | .get object _ => (ofExpr_continues object).bind fun _ ho =>
      continues_node rfl (by simp only [Relabel.expr, ho])
  | .set object _ value =>
    (ofExpr_continues value).bind fun _ hv => (ofExpr_continues object).bind fun _ ho =>
      continues_node rfl (by simp only [Relabel.expr, hv, ho])

theorem ofExprs_continues : (es : List Expr) →
    Continues [] Expr.labelsOf (fun es' => plain.exprs es' = plain.exprs es) (ofExprs es)
  | [] => continues_pure rfl rfl
  | e :: es => (ofExpr_continues e).bind fun _ he => (ofExprs_continues es).bind fun _ hes =>
      continues_pure rfl (by simp only [Relabel.exprs, he, hes])

theorem ofExpr?_continues : (o : Option Expr) →
    Continues [] Expr.labels? (fun o' => plain.expr? o' = plain.expr? o) (ofExpr? o)
  | none => continues_pure rfl rfl
  | some e => (ofExpr_continues e).bind fun _ he =>
      continues_pure rfl (by simp only [Relabel.expr?, he])

theorem ofStmt_continues : (s : Stmt) →
    Continues [] Stmt.labels (fun s' => plain.stmt s' = plain.stmt s) (ofStmt s)
  | .expression inner | .print inner => (ofExpr_continues inner).bind fun _ hi =>
      continues_pure rfl (by simp only [Relabel.stmt, hi])
  | .var _ initializer => (ofExpr?_continues initializer).bind fun _ hi =>
      continues_pure rfl (by simp only [Relabel.stmt, hi])
  | .block statements => (ofStmts_continues statements).bind fun _ hs =>
      continues_pure rfl (by simp only [Relabel.stmt, hs])
  | .branch condition whenTrue whenFalse =>
    (ofExpr_continues condition).bind fun _ hc => (ofStmt_continues whenTrue).bind fun _ ht =>
      (ofStmt?_continues whenFalse).bind fun _ hf =>
        continues_pure (by simp [Stmt.labels]) (by simp only [Relabel.stmt, hc, ht, hf])
  | .loop condition body =>
    (ofExpr_continues condition).bind fun _ hc => (ofStmt_continues body).bind fun _ hb =>
      continues_pure rfl (by simp only [Relabel.stmt, hc, hb])
  | .function decl => (ofDecl_continues decl).bind fun _ hd =>
      continues_pure rfl (by simp only [Relabel.stmt, hd])
  | .return _ value => (ofExpr?_continues value).bind fun _ hv =>
      continues_pure rfl (by simp only [Relabel.stmt, hv])
  | .class _ methods => (ofDecls_continues methods).bind fun _ hm =>
      continues_pure rfl (by simp only [Relabel.stmt, hm])

theorem ofStmts_continues : (ss : List Stmt) →
    Continues [] Stmt.labelsOf (fun ss' => plain.stmts ss' = plain.stmts ss) (ofStmts ss)
  | [] => continues_pure rfl rfl
  | s :: ss => (ofStmt_continues s).bind fun _ hs => (ofStmts_continues ss).bind fun _ hss =>
      continues_pure rfl (by simp only [Relabel.stmts, hs, hss])

theorem ofStmt?_continues : (o : Option Stmt) →
    Continues [] Stmt.labels? (fun o' => plain.stmt? o' = plain.stmt? o) (ofStmt? o)
  | none => continues_pure rfl rfl
  | some s => (ofStmt_continues s).bind fun _ hs =>
      continues_pure rfl (by simp only [Relabel.stmt?, hs])

theorem ofDecl_continues : (f : FunctionDecl) →
    Continues [] FunctionDecl.labels (fun f' => plain.decl f' = plain.decl f) (ofDecl f)
  | .mk _ _ body => (ofStmts_continues body).bind fun _ hb =>
      continues_pure rfl (by simp only [Relabel.decl, hb])

theorem ofDecls_continues : (fs : List FunctionDecl) →
    Continues [] FunctionDecl.labelsOf (fun fs' => plain.decls fs' = plain.decls fs) (ofDecls fs)
  | [] => continues_pure rfl rfl
  | f :: fs => (ofDecl_continues f).bind fun _ hf => (ofDecls_continues fs).bind fun _ hfs =>
      continues_pure rfl (by simp only [Relabel.decls, hf, hfs])

end

/-- **Numbers in order**: an expression takes the next number when its parts have theirs. -/
def inOrder : Numbering where
  spent _ := 0
  expr start e := ofExpr e start
  stmt start s := ofStmt s start
  stmts start ss := ofStmts ss start
  expr_plain start e := (ofExpr_continues e start start (.nil (Int.le_refl start))).2
  stmt_plain start s := (ofStmt_continues s start start (.nil (Int.le_refl start))).2
  stmts_plain start ss := (ofStmts_continues ss start start (.nil (Int.le_refl start))).2
  expr_fresh start e := (ofExpr_continues e start start (.nil (Int.le_refl start))).1
  stmt_fresh start s := (ofStmt_continues s start start (.nil (Int.le_refl start))).1
  stmts_fresh start ss := (ofStmts_continues ss start start (.nil (Int.le_refl start))).1

end Numbering

/-! ## Trees as they are read -/

/-- The numbers at the references of the tree of a phrase. -/
def Phrase.labels : Phrase → List (Option Int)
  | .expression e | .assignment e | .ternary e | .tier _ e | .unary e | .call e | .primary e =>
    e.labels
  | .items es | .arguments es => Expr.labelsOf es
  | .optional o => Expr.labels? o
  | .variable s | .statement _ s | .declaration _ s => s.labels
  | .initializer o => Stmt.labels? o
  | .function f => f.labels
  | .functions fs => FunctionDecl.labelsOf fs
  | .declarations ss => Stmt.labelsOf ss

theorem Tier.labels_operand (level : Tier) (e : Expr) : (level.operand e).labels = e.labels := by
  cases level <;> rfl

theorem Tier.labels_join (level : Tier) (left : Expr) (op : Token) (right : Expr) :
    (level.join left op right).labels = left.labels ++ right.labels := by
  cases level <;> rfl

/-- A condition that is left out has no references. -/
theorem Expr.labels_getD_literal (o : Option Expr) (value : Value) :
    (o.getD (.literal value)).labels = Expr.labels? o := by
  cases o <;> rfl

theorem labels_forTree (first : Option Stmt) (condition : Expr) (step : Option Expr) (body : Stmt) :
    (forTree first condition step body).labels =
      Stmt.labels? first ++ (condition.labels ++ (body.labels ++ Expr.labels? step)) := by
  cases first <;> cases step <;>
    simp [forTree, Stmt.labels, Stmt.labelsOf, Stmt.labels?, Expr.labels?]

/-- **A tree that was read has no numbers yet.** -/
theorem Derives.labels_eq_none {nearest : Bool} {p : Phrase} {ts : List Token}
    (h : Derives nearest p ts) : ∀ label ∈ p.labels, label = none := by
  induction h with
  | operand _ ih =>
    rw [Tier.labels_operand] at ih
    exact ih
  | operator _ _ _ ihl ihr =>
    rw [Tier.labels_operand] at ihr
    rw [Phrase.labels, Tier.labels_join]
    exact List.forall_mem_append.2 ⟨ihl, ihr⟩
  | «for» _ _ _ _ _ _ _ _ ihf ihc ihi ihb =>
    rw [Phrase.labels, labels_forTree, Expr.labels_getD_literal]
    simp only [List.forall_mem_append]
    exact ⟨ihf, ihc, ihb, ihi⟩
  | _ =>
    grind [Phrase.labels, Expr.labels, Expr.labelsOf, Expr.labels?, Stmt.labels, Stmt.labelsOf,
      Stmt.labels?, FunctionDecl.labels, FunctionDecl.labelsOf]

end ScopedScript

import ScopedScript.Proofs.Distances.Numbering
import ScopedScript.Proofs.Grammar.WellFormed

/-!
# Trees for one more frame

A tree counts frames from the inside out.  If one more frame is put between two of them, the
references that go beyond it have to count it, and all others stay as they are.  The place of
the frame moves outwards as a walk over the tree goes inwards: by one for a block or a function,
and by two for a method, which sees the frame of `this` as well.

## Main definitions

* `Cutoff`: how many frames out the frame lies.
* `Expr.widen`, `Stmt.widen`: the tree for one more frame.
* `Stmt.Bindless`: the statements that bind nothing in the frame they are executed in.

## Main results

* `Expr.widen_none`, `Stmt.widen_none`: without a frame there is nothing to count.
* `Expr.widen_eq`, `Stmt.widen_eq`: a tree whose labels are left as they are stays as it is.
* `Stmt.WellFormed.bindless`: a well-formed statement that is no declaration binds nothing.
-/

namespace ScopedScript

/-- **How many frames out one more frame lies**, if there is one. -/
abbrev Cutoff := Option Nat

namespace Cutoff

/-- The place of the frame as it is seen from one frame further in. -/
def inner (cutoff : Cutoff) : Cutoff := cutoff.map (· + 1)

/-- **How many frames out a variable is** if the frame is counted as well. -/
def hops : Cutoff → Int → Int
  | none, distance => distance
  | some place, distance => if distance.toNat < place then distance else distance.toNat + 1

/-- What a reference holds about the scopes it stands in, changed by `note` where there is a
frame. -/
def scopes (note : Nat → List Scope → List Scope) : Cutoff → List Scope → List Scope
  | none, scopes => scopes
  | some place, scopes => note place scopes

@[simp]
theorem inner_none : inner none = none := rfl

@[simp]
theorem inner_some (place : Nat) : inner (some place) = some (place + 1) := rfl

theorem inner_ne (cutoff : Cutoff) : cutoff.inner ≠ some 0 := by
  cases cutoff <;> simp

/-- The innermost frame is the innermost frame, unless it is the one more frame. -/
theorem hops_zero {cutoff : Cutoff} (h : cutoff ≠ some 0) : cutoff.hops 0 = 0 := by
  cases cutoff with
  | none => rfl
  | some place =>
    cases place with
    | zero => exact absurd rfl h
    | succ place => rfl

end Cutoff

/-! ## Widened trees

What happens to the scopes that a reference holds is a parameter: scope analysis puts a scope
where the frame is, and evaluation does not look. -/

variable (note : Nat → List Scope → List Scope)

mutual

/-- **The expression for one more frame.** -/
def Expr.widen : Cutoff → Expr → Expr
  | _, .literal value => .literal value
  | cutoff, .variable name hops scopes =>
    .variable name (hops.map cutoff.hops) (cutoff.scopes note scopes)
  | cutoff, .assign name value hops scopes =>
    .assign name (value.widen cutoff) (hops.map cutoff.hops) (cutoff.scopes note scopes)
  | cutoff, .group inner => .group (inner.widen cutoff)
  | cutoff, .unary op operand => .unary op (operand.widen cutoff)
  | cutoff, .binary left op right => .binary (left.widen cutoff) op (right.widen cutoff)
  | cutoff, .logical left op right => .logical (left.widen cutoff) op (right.widen cutoff)
  | cutoff, .conditional condition whenTrue whenFalse =>
    .conditional (condition.widen cutoff) (whenTrue.widen cutoff) (whenFalse.widen cutoff)
  | cutoff, .sequence items => .sequence (Expr.widenAll cutoff items)
  | cutoff, .call callee paren args => .call (callee.widen cutoff) paren (Expr.widenAll cutoff args)
  | cutoff, .lambda keyword params body => .lambda keyword params (Stmt.widenAll cutoff.inner body)
  | cutoff, .get object name => .get (object.widen cutoff) name
  | cutoff, .set object name value => .set (object.widen cutoff) name (value.widen cutoff)
  | cutoff, .this keyword hops scopes =>
    .this keyword (hops.map cutoff.hops) (cutoff.scopes note scopes)

/-- The expressions for one more frame. -/
def Expr.widenAll : Cutoff → List Expr → List Expr
  | _, [] => []
  | cutoff, e :: es => e.widen cutoff :: Expr.widenAll cutoff es

/-- The expression for one more frame, if there is an expression. -/
def Expr.widen? : Cutoff → Option Expr → Option Expr
  | _, none => none
  | cutoff, some e => some (e.widen cutoff)

/-- **The statement for one more frame.** -/
def Stmt.widen : Cutoff → Stmt → Stmt
  | cutoff, .expression inner => .expression (inner.widen cutoff)
  | cutoff, .print inner => .print (inner.widen cutoff)
  | cutoff, .var name initializer => .var name (Expr.widen? cutoff initializer)
  | cutoff, .block statements => .block (Stmt.widenAll cutoff.inner statements)
  | cutoff, .branch condition whenTrue whenFalse =>
    .branch (condition.widen cutoff) (whenTrue.widen cutoff) (Stmt.widen? cutoff whenFalse)
  | cutoff, .loop condition body => .loop (condition.widen cutoff) (body.widen cutoff)
  | cutoff, .function decl => .function (decl.widen cutoff)
  | cutoff, .return keyword value => .return keyword (Expr.widen? cutoff value)
  | cutoff, .class name methods => .class name (FunctionDecl.widenAll cutoff.inner methods)

/-- The statements for one more frame. -/
def Stmt.widenAll : Cutoff → List Stmt → List Stmt
  | _, [] => []
  | cutoff, s :: ss => s.widen cutoff :: Stmt.widenAll cutoff ss

/-- The statement for one more frame, if there is a statement. -/
def Stmt.widen? : Cutoff → Option Stmt → Option Stmt
  | _, none => none
  | cutoff, some s => some (s.widen cutoff)

/-- The function for one more frame around it. -/
def FunctionDecl.widen : Cutoff → FunctionDecl → FunctionDecl
  | cutoff, .mk name params body => .mk name params (Stmt.widenAll cutoff.inner body)

/-- The functions for one more frame around them. -/
def FunctionDecl.widenAll : Cutoff → List FunctionDecl → List FunctionDecl
  | _, [] => []
  | cutoff, f :: fs => f.widen cutoff :: FunctionDecl.widenAll cutoff fs

end

theorem Expr.widenAll_eq_map (cutoff : Cutoff) (es : List Expr) :
    Expr.widenAll note cutoff es = es.map (Expr.widen note cutoff) := by
  induction es with
  | nil => rfl
  | cons e es ih => rw [Expr.widenAll, ih, List.map_cons]

theorem FunctionDecl.widenAll_eq_map (cutoff : Cutoff) (fs : List FunctionDecl) :
    FunctionDecl.widenAll note cutoff fs = fs.map (FunctionDecl.widen note cutoff) := by
  induction fs with
  | nil => rfl
  | cons f fs ih => rw [FunctionDecl.widenAll, ih, List.map_cons]

/-! ## Trees that stay as they are -/

/-- Whether widening leaves a number as it is: there is no frame, or no number. -/
def Cutoff.Leaves (cutoff : Cutoff) (label : Option Int) : Prop :=
  cutoff = none ∨ label = none ∧ ∀ place scopes, note place scopes = scopes

namespace Cutoff

variable {note} {cutoff : Cutoff} {label : Option Int}

theorem Leaves.inner (h : cutoff.Leaves note label) : cutoff.inner.Leaves note label :=
  h.imp_left fun h => by rw [h, inner_none]

theorem Leaves.hops (h : cutoff.Leaves note label) : label.map cutoff.hops = label := by
  obtain rfl | ⟨rfl, -⟩ := h
  · cases label <;> rfl
  · rfl

theorem Leaves.scopes (h : cutoff.Leaves note label) (scopes : List Scope) :
    cutoff.scopes note scopes = scopes := by
  cases cutoff with
  | none => rfl
  | some place =>
    obtain h | ⟨-, h⟩ := h
    · cases h
    · exact h place scopes

/-- Widening leaves numbers as they are. -/
def LeavesAll (note : Nat → List Scope → List Scope) (cutoff : Cutoff)
    (labels : List (Option Int)) : Prop :=
  ∀ label ∈ labels, cutoff.Leaves note label

variable {labels more : List (Option Int)}

theorem LeavesAll.left (h : cutoff.LeavesAll note (labels ++ more)) :
    cutoff.LeavesAll note labels :=
  fun label hl => h label (List.mem_append_left _ hl)

theorem LeavesAll.right (h : cutoff.LeavesAll note (labels ++ more)) :
    cutoff.LeavesAll note more :=
  fun label hl => h label (List.mem_append_right _ hl)

theorem LeavesAll.inner (h : cutoff.LeavesAll note labels) : cutoff.inner.LeavesAll note labels :=
  fun label hl => (h label hl).inner

end Cutoff

open Cutoff (LeavesAll)

variable {note}

mutual

/-- **An expression stays as it is if all its numbers do.** -/
theorem Expr.widen_eq : (e : Expr) → {cutoff : Cutoff} → cutoff.LeavesAll note e.labels →
    e.widen note cutoff = e
  | .literal _, _, _ => by rw [Expr.widen]
  | .variable name hops scopes, _, h | .this name hops scopes, _, h => by
    have hl := h hops List.mem_cons_self
    rw [Expr.widen, hl.hops, hl.scopes]
  | .assign name value hops scopes, _, h => by
    have hl := h.right hops List.mem_cons_self
    rw [Expr.widen, value.widen_eq h.left, hl.hops, hl.scopes]
  | .group inner, _, h => by rw [Expr.widen, inner.widen_eq h]
  | .unary op operand, _, h => by rw [Expr.widen, operand.widen_eq h]
  | .binary left op right, _, h | .logical left op right, _, h => by
    rw [Expr.widen, left.widen_eq h.left, right.widen_eq h.right]
  | .conditional condition whenTrue whenFalse, _, h => by
    rw [Expr.widen, condition.widen_eq h.left, whenTrue.widen_eq h.right.left,
      whenFalse.widen_eq h.right.right]
  | .sequence items, _, h => by rw [Expr.widen, Expr.widenAll_eq items h]
  | .call callee paren args, _, h => by
    rw [Expr.widen, callee.widen_eq h.left, Expr.widenAll_eq args h.right]
  | .lambda keyword params body, _, h => by rw [Expr.widen, Stmt.widenAll_eq body h.inner]
  | .get object name, _, h => by rw [Expr.widen, object.widen_eq h]
  | .set object name value, _, h => by
    rw [Expr.widen, object.widen_eq h.right, value.widen_eq h.left]

theorem Expr.widenAll_eq : (es : List Expr) → {cutoff : Cutoff} →
    cutoff.LeavesAll note (Expr.labelsOf es) → Expr.widenAll note cutoff es = es
  | [], _, _ => by rw [Expr.widenAll]
  | e :: es, _, h => by rw [Expr.widenAll, e.widen_eq h.left, Expr.widenAll_eq es h.right]

theorem Expr.widen?_eq : (o : Option Expr) → {cutoff : Cutoff} →
    cutoff.LeavesAll note (Expr.labels? o) → Expr.widen? note cutoff o = o
  | none, _, _ => by rw [Expr.widen?]
  | some e, _, h => by rw [Expr.widen?, e.widen_eq h]

/-- **A statement stays as it is if all its numbers do.** -/
theorem Stmt.widen_eq : (s : Stmt) → {cutoff : Cutoff} → cutoff.LeavesAll note s.labels →
    s.widen note cutoff = s
  | .expression inner, _, h | .print inner, _, h => by rw [Stmt.widen, inner.widen_eq h]
  | .var name initializer, _, h => by rw [Stmt.widen, Expr.widen?_eq initializer h]
  | .block statements, _, h => by rw [Stmt.widen, Stmt.widenAll_eq statements h.inner]
  | .branch condition whenTrue whenFalse, _, h => by
    rw [Stmt.widen, condition.widen_eq h.left, whenTrue.widen_eq h.right.left,
      Stmt.widen?_eq whenFalse h.right.right]
  | .loop condition body, _, h => by
    rw [Stmt.widen, condition.widen_eq h.left, body.widen_eq h.right]
  | .function decl, _, h => by rw [Stmt.widen, decl.widen_eq h]
  | .return keyword value, _, h => by rw [Stmt.widen, Expr.widen?_eq value h]
  | .class name methods, _, h => by rw [Stmt.widen, FunctionDecl.widenAll_eq methods h.inner]

theorem Stmt.widenAll_eq : (ss : List Stmt) → {cutoff : Cutoff} →
    cutoff.LeavesAll note (Stmt.labelsOf ss) → Stmt.widenAll note cutoff ss = ss
  | [], _, _ => by rw [Stmt.widenAll]
  | s :: ss, _, h => by rw [Stmt.widenAll, s.widen_eq h.left, Stmt.widenAll_eq ss h.right]

theorem Stmt.widen?_eq : (o : Option Stmt) → {cutoff : Cutoff} →
    cutoff.LeavesAll note (Stmt.labels? o) → Stmt.widen? note cutoff o = o
  | none, _, _ => by rw [Stmt.widen?]
  | some s, _, h => by rw [Stmt.widen?, s.widen_eq h]

theorem FunctionDecl.widen_eq : (f : FunctionDecl) → {cutoff : Cutoff} →
    cutoff.LeavesAll note f.labels → f.widen note cutoff = f
  | .mk name params body, _, h => by rw [FunctionDecl.widen, Stmt.widenAll_eq body h.inner]

theorem FunctionDecl.widenAll_eq : (fs : List FunctionDecl) → {cutoff : Cutoff} →
    cutoff.LeavesAll note (FunctionDecl.labelsOf fs) → FunctionDecl.widenAll note cutoff fs = fs
  | [], _, _ => by rw [FunctionDecl.widenAll]
  | f :: fs, _, h => by
    rw [FunctionDecl.widenAll, f.widen_eq h.left, FunctionDecl.widenAll_eq fs h.right]

end

/-- Without a frame every number is left as it is. -/
theorem Cutoff.leavesAll_none (labels : List (Option Int)) :
    LeavesAll note none labels :=
  fun _ _ => .inl rfl

/-- A missing number is left as it is. -/
theorem Cutoff.leavesAll_of_none {labels : List (Option Int)} (h : ∀ label ∈ labels, label = none)
    (cutoff : Cutoff) : cutoff.LeavesAll (fun _ scopes => scopes) labels :=
  fun label hl => .inr ⟨h label hl, fun _ _ => rfl⟩

@[simp]
theorem Expr.widen_none (e : Expr) : e.widen note none = e := e.widen_eq (Cutoff.leavesAll_none _)

@[simp]
theorem Stmt.widen_none (s : Stmt) : s.widen note none = s := s.widen_eq (Cutoff.leavesAll_none _)

@[simp]
theorem Stmt.widenAll_none (ss : List Stmt) : Stmt.widenAll note none ss = ss :=
  Stmt.widenAll_eq ss (Cutoff.leavesAll_none _)

/-! ## Statements that bind nothing -/

mutual

/-- **The statement binds nothing in the frame it is executed in.** -/
def Stmt.Bindless : Stmt → Prop
  | .var .. | .function .. | .class .. => False
  | .branch _ whenTrue whenFalse => whenTrue.Bindless ∧ Stmt.OptionBindless whenFalse
  | .loop _ body => body.Bindless
  | .expression _ | .print _ | .block _ | .return .. => True

/-- The statement binds nothing in the frame it is executed in, if there is one. -/
def Stmt.OptionBindless : Option Stmt → Prop
  | none => True
  | some s => s.Bindless

end

mutual

/-- **A well-formed statement that is no declaration binds nothing.** -/
theorem Stmt.WellFormed.bindless {P : Token → Prop} : (s : Stmt) → s.WellFormed P →
    s.isDeclaration = false → s.Bindless
  | .var .., _, hd | .function .., _, hd | .class .., _, hd => by simp [Stmt.isDeclaration] at hd
  | .branch _ whenTrue whenFalse, hw, _ =>
    ⟨Stmt.WellFormed.bindless whenTrue hw.2.1 hw.2.2.1,
      Stmt.OptionWellFormed.bindless whenFalse hw.2.2.2⟩
  | .loop _ body, hw, _ => Stmt.WellFormed.bindless body hw.2.1 hw.2.2
  | .expression _, _, _ | .print _, _, _ | .block _, _, _ | .return .., _, _ => trivial

theorem Stmt.OptionWellFormed.bindless {P : Token → Prop} : (o : Option Stmt) →
    Stmt.OptionWellFormed P o → Stmt.OptionBindless o
  | none, _ => trivial
  | some s, hw => Stmt.WellFormed.bindless s hw.1 hw.2

end

end ScopedScript

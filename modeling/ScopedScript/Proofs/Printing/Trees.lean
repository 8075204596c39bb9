import ScopedScript.Proofs.Printing.Sexp
import ScopedScript.Tree.Print

/-!
# Trees as s-expressions

The text of a tree is that of an s-expression.  It shows the skeleton of the tree: everything but
the lines of its tokens, the tokens that are kept only to report errors at, and what scope analysis
notes at references.

## Main definitions

* `Expr.skeleton`, `Stmt.skeleton`: what is shown of a tree.
* `Expr.sexp`, `Stmt.sexp`: the s-expression of a tree.

## Main results

* `Expr.chars_sexp`, `Stmt.chars_sexp`: the text of a tree is that of its s-expression.
* `Expr.sexp_skeleton`, `Stmt.sexp_skeleton`: nothing but the skeleton is shown.
* `toList_programText`: the text of statements.
-/

namespace ScopedScript

/-! ## Skeletons -/

/-- A token without its line. -/
def Token.unplaced (token : Token) : Token := { token with line := 0 }

/-- What stands for the tokens that are kept only to report errors at. -/
def Token.position : Token := ⟨.eof, "", .absent, 0⟩

mutual

/-- **What is shown of an expression.** -/
def Expr.skeleton : Expr → Expr
  | .literal value => .literal value
  | .variable name _ _ => .variable name.unplaced none []
  | .assign name value _ _ => .assign name.unplaced value.skeleton none []
  | .group inner => .group inner.skeleton
  | .unary op operand => .unary op.unplaced operand.skeleton
  | .binary left op right => .binary left.skeleton op.unplaced right.skeleton
  | .logical left op right => .logical left.skeleton op.unplaced right.skeleton
  | .conditional condition whenTrue whenFalse =>
    .conditional condition.skeleton whenTrue.skeleton whenFalse.skeleton
  | .sequence items => .sequence (Expr.skeletons items)
  | .call callee _ args => .call callee.skeleton .position (Expr.skeletons args)
  | .lambda _ params body =>
    .lambda .position (params.map Token.unplaced) (Stmt.skeletons body)
  | .get object name => .get object.skeleton name.unplaced
  | .set object name value => .set object.skeleton name.unplaced value.skeleton
  | .this _ _ _ => .this .position none []

/-- What is shown of expressions, in order. -/
def Expr.skeletons : List Expr → List Expr
  | [] => []
  | e :: es => e.skeleton :: Expr.skeletons es

/-- What is shown of an expression, if there is one. -/
def Expr.skeleton? : Option Expr → Option Expr
  | none => none
  | some e => some e.skeleton

/-- **What is shown of a statement.** -/
def Stmt.skeleton : Stmt → Stmt
  | .expression inner => .expression inner.skeleton
  | .print inner => .print inner.skeleton
  | .var name initializer => .var name.unplaced (Expr.skeleton? initializer)
  | .block statements => .block (Stmt.skeletons statements)
  | .branch condition whenTrue whenFalse =>
    .branch condition.skeleton whenTrue.skeleton (Stmt.skeleton? whenFalse)
  | .loop condition body => .loop condition.skeleton body.skeleton
  | .function f => .function f.skeleton
  | .return _ value => .return .position (Expr.skeleton? value)
  | .class name methods => .class name.unplaced (FunctionDecl.skeletons methods)

/-- What is shown of statements, in order. -/
def Stmt.skeletons : List Stmt → List Stmt
  | [] => []
  | s :: ss => s.skeleton :: Stmt.skeletons ss

/-- What is shown of a statement, if there is one. -/
def Stmt.skeleton? : Option Stmt → Option Stmt
  | none => none
  | some s => some s.skeleton

/-- What is shown of a function. -/
def FunctionDecl.skeleton : FunctionDecl → FunctionDecl
  | .mk name params body => .mk name.unplaced (params.map Token.unplaced) (Stmt.skeletons body)

/-- What is shown of functions, in order. -/
def FunctionDecl.skeletons : List FunctionDecl → List FunctionDecl
  | [] => []
  | f :: fs => f.skeleton :: FunctionDecl.skeletons fs

end

/-! ## S-expressions -/

/-- The s-expression of a literal. -/
def Value.sexp : Value → Sexp
  | .number value => .number value
  | .string value => .quoted value
  | value => .word value.text

/-- The s-expression of a parameter list. -/
def parameterSexp (params : List Token) : Sexp := .node (params.map fun param => .word param.lexeme)

mutual

/-- **The s-expression of an expression.** -/
def Expr.sexp : Expr → Sexp
  | .literal value => value.sexp
  | .variable name _ _ => .word name.lexeme
  | .assign name value _ _ => .node [.word "=", .word name.lexeme, value.sexp]
  | .group inner => .node [.word "group", inner.sexp]
  | .unary op operand => .node [.word op.lexeme, operand.sexp]
  | .binary left op right => .node [.word op.lexeme, left.sexp, right.sexp]
  | .logical left op right => .node [.word op.lexeme, left.sexp, right.sexp]
  | .conditional condition whenTrue whenFalse =>
    .node [.word "ternary", condition.sexp, whenTrue.sexp, whenFalse.sexp]
  | .sequence items => .node (.word "list" :: Expr.sexps items)
  | .call callee _ args => .node (.word "call" :: callee.sexp :: Expr.sexps args)
  | .lambda _ params body => .node (.word "fun" :: parameterSexp params :: Stmt.sexps body)
  | .get object name => .node [.word ".", object.sexp, .word name.lexeme]
  | .set object name value =>
    .node [.word "=", .node [.word ".", object.sexp, .word name.lexeme], value.sexp]
  | .this _ _ _ => .word "this"

/-- The s-expressions of expressions, in order. -/
def Expr.sexps : List Expr → List Sexp
  | [] => []
  | e :: es => e.sexp :: Expr.sexps es

/-- The s-expression of an expression, if there is one. -/
def Expr.sexp? : Option Expr → List Sexp
  | none => []
  | some e => [e.sexp]

/-- **The s-expression of a statement.** -/
def Stmt.sexp : Stmt → Sexp
  | .expression inner => inner.sexp
  | .print inner => .node [.word "print", inner.sexp]
  | .var name initializer => .node (.word "var" :: .word name.lexeme :: Expr.sexp? initializer)
  | .block statements => .node (.word "block" :: Stmt.sexps statements)
  | .branch condition whenTrue whenFalse =>
    .node (.word "if" :: condition.sexp :: whenTrue.sexp :: Stmt.sexp? whenFalse)
  | .loop condition body => .node [.word "while", condition.sexp, body.sexp]
  | .function f => f.sexp
  | .return _ value => .node (.word "return" :: Expr.sexp? value)
  | .class name methods => .node (.word "class" :: .word name.lexeme :: FunctionDecl.sexps methods)

/-- The s-expressions of statements, in order. -/
def Stmt.sexps : List Stmt → List Sexp
  | [] => []
  | s :: ss => s.sexp :: Stmt.sexps ss

/-- The s-expression of a statement, if there is one. -/
def Stmt.sexp? : Option Stmt → List Sexp
  | none => []
  | some s => [s.sexp]

/-- The s-expression of a function. -/
def FunctionDecl.sexp : FunctionDecl → Sexp
  | .mk name params body =>
    .node (.word "fun" :: .word name.lexeme :: parameterSexp params :: Stmt.sexps body)

/-- The s-expressions of functions, in order. -/
def FunctionDecl.sexps : List FunctionDecl → List Sexp
  | [] => []
  | f :: fs => f.sexp :: FunctionDecl.sexps fs

end

/-! ## Texts -/

@[simp]
theorem Sexp.chars_word (text : String) : (word text).chars = text.toList := rfl

theorem Sexp.tail_separated (separator : Char) (ss : List Sexp) :
    (separated separator ss).tail = [separator].intercalate (ss.map chars) := by
  induction ss with
  | nil => rfl
  | cons s ss ih =>
    cases ss with
    | nil => simp [separated]
    | cons t ts =>
      rw [List.map_cons, List.map_cons, List.intercalate_cons_cons, ← List.map_cons, ← ih]
      simp [separated]

/-- A parenthesized text is that of a list with its name at the head. -/
theorem toList_parenthesize {name : String} {parts : List String} {ss : List Sexp}
    (h : parts.map String.toList = ss.map Sexp.chars) :
    (parenthesize name parts).toList = (Sexp.node (.word name :: ss)).chars := by
  rw [Sexp.chars, Sexp.tail_separated, List.map_cons, ← h, Sexp.chars_word, ← List.map_cons,
    parenthesize, String.toList_append, String.toList_append, String.toList_intercalate]
  rfl

theorem toList_parameterText (params : List Token) :
    (parameterText params).toList = (parameterSexp params).chars := by
  rw [parameterSexp, Sexp.chars, Sexp.tail_separated, parameterText, String.toList_append,
    String.toList_append, String.toList_intercalate, List.map_map, List.map_map]
  rfl

theorem Value.chars_sexp (value : Value) : value.sexp.chars = value.literalText.toList := by
  cases value with
  | string value => simp [sexp, Sexp.chars, literalText, String.toList_append]
  | _ => rfl

mutual

/-- **The text of an expression is that of its s-expression.** -/
theorem Expr.chars_sexp : (e : Expr) → e.text.toList = e.sexp.chars
  | .literal value => value.chars_sexp.symm
  | .variable .. | .this .. => rfl
  | .assign name value _ _ => toList_parenthesize (by simp [value.chars_sexp])
  | .group inner => toList_parenthesize (by simp [inner.chars_sexp])
  | .unary op operand => toList_parenthesize (by simp [operand.chars_sexp])
  | .binary left op right | .logical left op right =>
    toList_parenthesize (by simp [left.chars_sexp, right.chars_sexp])
  | .conditional condition whenTrue whenFalse =>
    toList_parenthesize (by simp [condition.chars_sexp, whenTrue.chars_sexp, whenFalse.chars_sexp])
  | .sequence items => toList_parenthesize (Expr.chars_sexps items)
  | .call callee _ args =>
    toList_parenthesize (by simp [callee.chars_sexp, Expr.chars_sexps args])
  | .lambda _ params body =>
    toList_parenthesize (by simp [toList_parameterText, Stmt.chars_sexps body])
  | .get object name => toList_parenthesize (by simp [object.chars_sexp])
  | .set object name value => by
    have hget : (parenthesize "." [object.text, name.lexeme]).toList =
        (Sexp.node [.word ".", object.sexp, .word name.lexeme]).chars :=
      toList_parenthesize (by simp [object.chars_sexp])
    exact toList_parenthesize (by simp [hget, value.chars_sexp])

theorem Expr.chars_sexps : (es : List Expr) →
    (exprTexts es).map String.toList = (Expr.sexps es).map Sexp.chars
  | [] => rfl
  | e :: es => by simp [exprTexts, Expr.sexps, e.chars_sexp, Expr.chars_sexps es]

theorem Expr.chars_sexp? : (o : Option Expr) →
    (optionalExprTexts o).map String.toList = (Expr.sexp? o).map Sexp.chars
  | none => rfl
  | some e => by simp [optionalExprTexts, Expr.sexp?, e.chars_sexp]

/-- **The text of a statement is that of its s-expression.** -/
theorem Stmt.chars_sexp : (s : Stmt) → s.text.toList = s.sexp.chars
  | .expression inner => inner.chars_sexp
  | .print inner => toList_parenthesize (by simp [inner.chars_sexp])
  | .var name initializer => toList_parenthesize (by simp [Expr.chars_sexp? initializer])
  | .block statements => toList_parenthesize (Stmt.chars_sexps statements)
  | .branch condition whenTrue whenFalse => toList_parenthesize
    (by simp [condition.chars_sexp, whenTrue.chars_sexp, Stmt.chars_sexp? whenFalse])
  | .loop condition body => toList_parenthesize (by simp [condition.chars_sexp, body.chars_sexp])
  | .function f => f.chars_sexp
  | .return _ value => toList_parenthesize (Expr.chars_sexp? value)
  | .class name methods => toList_parenthesize (by simp [FunctionDecl.chars_sexps methods])

theorem Stmt.chars_sexps : (ss : List Stmt) →
    (stmtTexts ss).map String.toList = (Stmt.sexps ss).map Sexp.chars
  | [] => rfl
  | s :: ss => by simp [stmtTexts, Stmt.sexps, s.chars_sexp, Stmt.chars_sexps ss]

theorem Stmt.chars_sexp? : (o : Option Stmt) →
    (optionalStmtTexts o).map String.toList = (Stmt.sexp? o).map Sexp.chars
  | none => rfl
  | some s => by simp [optionalStmtTexts, Stmt.sexp?, s.chars_sexp]

theorem FunctionDecl.chars_sexp : (f : FunctionDecl) → f.text.toList = f.sexp.chars
  | .mk name params body => toList_parenthesize
    (by simp [toList_parameterText, Stmt.chars_sexps body])

theorem FunctionDecl.chars_sexps : (fs : List FunctionDecl) →
    (methodTexts fs).map String.toList = (FunctionDecl.sexps fs).map Sexp.chars
  | [] => rfl
  | f :: fs => by simp [methodTexts, FunctionDecl.sexps, f.chars_sexp, FunctionDecl.chars_sexps fs]

end

/-- **The text of statements** is that of their s-expressions, one to a line. -/
theorem toList_programText (ss : List Stmt) :
    (programText ss).toList = (Sexp.separated '\n' (Stmt.sexps ss)).tail := by
  rw [Sexp.tail_separated, ← Stmt.chars_sexps, stmtTexts_eq_map, programText,
    String.toList_intercalate]
  rfl

/-! ## Only the skeleton is shown -/

theorem parameterSexp_unplaced (params : List Token) :
    parameterSexp (params.map Token.unplaced) = parameterSexp params := by
  rw [parameterSexp, List.map_map]
  rfl

mutual

/-- **Only the skeleton of an expression is shown.** -/
theorem Expr.sexp_skeleton : (e : Expr) → e.skeleton.sexp = e.sexp
  | .literal _ | .variable .. | .this .. => rfl
  | .assign name value _ _ => by simp only [Expr.skeleton, Expr.sexp, value.sexp_skeleton]; rfl
  | .group inner => by simp only [Expr.skeleton, Expr.sexp, inner.sexp_skeleton]
  | .unary op operand => by simp only [Expr.skeleton, Expr.sexp, operand.sexp_skeleton]; rfl
  | .binary left op right | .logical left op right => by
    simp only [Expr.skeleton, Expr.sexp, left.sexp_skeleton, right.sexp_skeleton]
    rfl
  | .conditional condition whenTrue whenFalse => by
    simp only [Expr.skeleton, Expr.sexp, condition.sexp_skeleton, whenTrue.sexp_skeleton,
      whenFalse.sexp_skeleton]
  | .sequence items => by simp only [Expr.skeleton, Expr.sexp, Expr.sexps_skeletons items]
  | .call callee _ args => by
    simp only [Expr.skeleton, Expr.sexp, callee.sexp_skeleton, Expr.sexps_skeletons args]
  | .lambda _ params body => by
    simp only [Expr.skeleton, Expr.sexp, parameterSexp_unplaced, Stmt.sexps_skeletons body]
  | .get object name => by simp only [Expr.skeleton, Expr.sexp, object.sexp_skeleton]; rfl
  | .set object name value => by
    simp only [Expr.skeleton, Expr.sexp, object.sexp_skeleton, value.sexp_skeleton]
    rfl

theorem Expr.sexps_skeletons : (es : List Expr) → Expr.sexps (Expr.skeletons es) = Expr.sexps es
  | [] => rfl
  | e :: es => by rw [Expr.skeletons, Expr.sexps, e.sexp_skeleton, Expr.sexps_skeletons es]; rfl

theorem Expr.sexp?_skeleton? : (o : Option Expr) → Expr.sexp? (Expr.skeleton? o) = Expr.sexp? o
  | none => rfl
  | some e => by rw [Expr.skeleton?, Expr.sexp?, e.sexp_skeleton]; rfl

/-- **Only the skeleton of a statement is shown.** -/
theorem Stmt.sexp_skeleton : (s : Stmt) → s.skeleton.sexp = s.sexp
  | .expression inner => inner.sexp_skeleton
  | .print inner => by simp only [Stmt.skeleton, Stmt.sexp, inner.sexp_skeleton]
  | .var name initializer => by
    simp only [Stmt.skeleton, Stmt.sexp, Expr.sexp?_skeleton? initializer]
    rfl
  | .block statements => by simp only [Stmt.skeleton, Stmt.sexp, Stmt.sexps_skeletons statements]
  | .branch condition whenTrue whenFalse => by
    simp only [Stmt.skeleton, Stmt.sexp, condition.sexp_skeleton, whenTrue.sexp_skeleton,
      Stmt.sexp?_skeleton? whenFalse]
  | .loop condition body => by
    simp only [Stmt.skeleton, Stmt.sexp, condition.sexp_skeleton, body.sexp_skeleton]
  | .function f => f.sexp_skeleton
  | .return _ value => by simp only [Stmt.skeleton, Stmt.sexp, Expr.sexp?_skeleton? value]
  | .class name methods => by
    simp only [Stmt.skeleton, Stmt.sexp, FunctionDecl.sexps_skeletons methods]
    rfl

theorem Stmt.sexps_skeletons : (ss : List Stmt) → Stmt.sexps (Stmt.skeletons ss) = Stmt.sexps ss
  | [] => rfl
  | s :: ss => by rw [Stmt.skeletons, Stmt.sexps, s.sexp_skeleton, Stmt.sexps_skeletons ss]; rfl

theorem Stmt.sexp?_skeleton? : (o : Option Stmt) → Stmt.sexp? (Stmt.skeleton? o) = Stmt.sexp? o
  | none => rfl
  | some s => by rw [Stmt.skeleton?, Stmt.sexp?, s.sexp_skeleton]; rfl

theorem FunctionDecl.sexp_skeleton : (f : FunctionDecl) → f.skeleton.sexp = f.sexp
  | .mk name params body => by
    simp only [FunctionDecl.skeleton, FunctionDecl.sexp, parameterSexp_unplaced,
      Stmt.sexps_skeletons body]
    rfl

theorem FunctionDecl.sexps_skeletons : (fs : List FunctionDecl) →
    FunctionDecl.sexps (FunctionDecl.skeletons fs) = FunctionDecl.sexps fs
  | [] => rfl
  | f :: fs => by
    rw [FunctionDecl.skeletons, FunctionDecl.sexps, f.sexp_skeleton,
      FunctionDecl.sexps_skeletons fs]
    rfl

end

end ScopedScript

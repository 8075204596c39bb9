import ScopedScript.Tree

/-!
# Trees as text

Trees are shown as s-expressions: a node is its name and its parts between parentheses.

## Main definitions

* `Expr.text`, `Stmt.text`: the s-expression of a tree.
* `programText`: statements, one to a line.
-/

namespace ScopedScript

/-- A name and parts between parentheses, with a blank between any two. -/
def parenthesize (name : String) (parts : List String) : String :=
  "(" ++ String.intercalate " " (name :: parts) ++ ")"

/-- A literal: a string between quotation marks, any other value as it is printed. -/
def Value.literalText : Value → String
  | .string value => "\"" ++ value ++ "\""
  | value => value.text

/-- A parameter list. -/
def parameterText (params : List Token) : String :=
  "(" ++ String.intercalate " " (params.map Token.lexeme) ++ ")"

mutual

/-- The s-expression of an expression. -/
def Expr.text : Expr → String
  | .literal value => value.literalText
  | .variable name _ _ => name.lexeme
  | .assign name value _ _ => parenthesize "=" [name.lexeme, value.text]
  | .group inner => parenthesize "group" [inner.text]
  | .unary op operand => parenthesize op.lexeme [operand.text]
  | .binary left op right => parenthesize op.lexeme [left.text, right.text]
  | .logical left op right => parenthesize op.lexeme [left.text, right.text]
  | .conditional condition whenTrue whenFalse =>
    parenthesize "ternary" [condition.text, whenTrue.text, whenFalse.text]
  | .sequence items => parenthesize "list" (exprTexts items)
  | .call callee _ args => parenthesize "call" (callee.text :: exprTexts args)
  | .lambda _ params body => parenthesize "fun" (parameterText params :: stmtTexts body)
  | .get object name => parenthesize "." [object.text, name.lexeme]
  | .set object name value =>
    parenthesize "=" [parenthesize "." [object.text, name.lexeme], value.text]
  | .this _ _ _ => "this"

/-- The s-expressions of expressions in order. -/
def exprTexts : List Expr → List String
  | [] => []
  | expr :: exprs => expr.text :: exprTexts exprs

/-- The s-expression of an expression that may be missing. -/
def optionalExprTexts : Option Expr → List String
  | none => []
  | some expr => [expr.text]

/-- The s-expression of a statement. -/
def Stmt.text : Stmt → String
  | .expression expr => expr.text
  | .print expr => parenthesize "print" [expr.text]
  | .var name initializer => parenthesize "var" (name.lexeme :: optionalExprTexts initializer)
  | .block statements => parenthesize "block" (stmtTexts statements)
  | .branch condition whenTrue whenFalse =>
    parenthesize "if" (condition.text :: whenTrue.text :: optionalStmtTexts whenFalse)
  | .loop condition body => parenthesize "while" [condition.text, body.text]
  | .function decl => decl.text
  | .return _ value => parenthesize "return" (optionalExprTexts value)
  | .class name methods => parenthesize "class" (name.lexeme :: methodTexts methods)

/-- The s-expressions of statements in order. -/
def stmtTexts : List Stmt → List String
  | [] => []
  | stmt :: stmts => stmt.text :: stmtTexts stmts

/-- The s-expression of a statement that may be missing. -/
def optionalStmtTexts : Option Stmt → List String
  | none => []
  | some stmt => [stmt.text]

/-- The s-expression of a named function. -/
def FunctionDecl.text : FunctionDecl → String
  | .mk name params body =>
    parenthesize "fun" (name.lexeme :: parameterText params :: stmtTexts body)

/-- The s-expressions of methods in order. -/
def methodTexts : List FunctionDecl → List String
  | [] => []
  | method :: methods => method.text :: methodTexts methods

end

theorem exprTexts_eq_map (exprs : List Expr) : exprTexts exprs = exprs.map Expr.text := by
  induction exprs with
  | nil => rw [exprTexts, List.map_nil]
  | cons expr exprs ih => rw [exprTexts, ih, List.map_cons]

theorem stmtTexts_eq_map (stmts : List Stmt) : stmtTexts stmts = stmts.map Stmt.text := by
  induction stmts with
  | nil => rw [stmtTexts, List.map_nil]
  | cons stmt stmts ih => rw [stmtTexts, ih, List.map_cons]

/-- Statements as text, one to a line. -/
def programText (statements : List Stmt) : String :=
  String.intercalate "\n" (statements.map Stmt.text)

end ScopedScript

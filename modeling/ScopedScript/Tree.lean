import ScopedScript.NameMap
import ScopedScript.Value

/-!
# Trees

The expressions and statements of the language.  Nodes keep the tokens they report
errors at.  A reference to a variable keeps how many frames out its variable lives, once
scope analysis has found that out; without it the variable is a global one.  It also keeps
the scopes that were open around it when the analysis came by.  Nothing that runs looks at
them: they are there to say what the number of frames was counted against.

A `for` loop has no node of its own: it is read as a block around a `while` loop.

## Main definitions

* `Scope`: the names of a scope.
* `Expr`, `Stmt`, `FunctionDecl`: the trees.
-/

namespace ScopedScript

/-- A scope: its names, each with whether its initializer is over. -/
abbrev Scope := NameMap Bool

mutual

/-- **Expressions.**  The field `hops` of a reference counts the frames between the use
and the variable; in a tree made by hand it may be any number.  The field `scopes` holds
the scopes around the reference, from the inside out. -/
inductive Expr where
  | literal (value : Value)
  | variable (name : Token) (hops : Option Int) (scopes : List Scope := [])
  | assign (name : Token) (value : Expr) (hops : Option Int) (scopes : List Scope := [])
  | group (inner : Expr)
  | unary (op : Token) (operand : Expr)
  | binary (left : Expr) (op : Token) (right : Expr)
  | logical (left : Expr) (op : Token) (right : Expr)
  | conditional (condition whenTrue whenFalse : Expr)
  | sequence (items : List Expr)
  | call (callee : Expr) (paren : Token) (args : List Expr)
  | lambda (keyword : Token) (params : List Token) (body : List Stmt)
  | get (object : Expr) (name : Token)
  | set (object : Expr) (name : Token) (value : Expr)
  | this (keyword : Token) (hops : Option Int) (scopes : List Scope := [])

/-- **Statements.** -/
inductive Stmt where
  | expression (expr : Expr)
  | print (expr : Expr)
  | var (name : Token) (initializer : Option Expr)
  | block (statements : List Stmt)
  | branch (condition : Expr) (whenTrue : Stmt) (whenFalse : Option Stmt)
  | loop (condition : Expr) (body : Stmt)
  | function (decl : FunctionDecl)
  | return (keyword : Token) (value : Option Expr)
  | class (name : Token) (methods : List FunctionDecl)

/-- **Functions with a name**: declared functions and methods. -/
inductive FunctionDecl where
  | mk (name : Token) (params : List Token) (body : List Stmt)

end

namespace FunctionDecl

/-- The name under which a function is declared. -/
def name : FunctionDecl → Token
  | mk name _ _ => name

/-- The parameters of a function. -/
def params : FunctionDecl → List Token
  | mk _ params _ => params

/-- The statements of a function. -/
def body : FunctionDecl → List Stmt
  | mk _ _ body => body

end FunctionDecl

end ScopedScript

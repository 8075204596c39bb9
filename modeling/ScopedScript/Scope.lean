import ScopedScript.Tree

/-!
# Scope analysis

Before a program runs, every reference to a local variable is given the number of frames
between its use and its variable.  The analysis walks the trees in the order in which
they would run and keeps the scopes that are open; each open scope stands for one frame
of the running program.  Globals are not tracked: a reference that no open scope knows
keeps no number and is looked up by name.

The analysis refuses three things: a local variable read in its own initializer, `this`
outside of a class, and `return` outside of a function.

## Main definitions

* `ScopeError`: what the analysis refuses, and where.
* `Analysis`: the open scopes and what encloses the code being walked.
* `Reference`: a local reference with its number of frames.
* `analyze`: the trees with the numbers filled in.
-/

namespace ScopedScript

/-- What scope analysis refuses. -/
inductive ScopeFault where
  | ownInitializer
  | thisOutsideClass
  | topLevelReturn
deriving DecidableEq

/-- **A scope error**: what is refused, and the token it is refused at. -/
structure ScopeError where
  fault : ScopeFault
  token : Token
deriving DecidableEq

namespace ScopeError

/-- The wording of a scope error. -/
def message (e : ScopeError) : String :=
  match e.fault with
  | .ownInitializer => "Can't read local variable in its own initializer"
  | .thisOutsideClass => "Can't use 'this' outside of a class"
  | .topLevelReturn => "Can't return from top-level code"

/-- A scope error as it is shown. -/
def diagnostic (e : ScopeError) : Diagnostic :=
  .located .resolve e.message e.token.line e.token.lexeme

end ScopeError

/-- What kind of function encloses the code, if one does. -/
inductive FunctionContext where
  | none
  | function
  | anonymous
  | method
  | initializer
deriving DecidableEq

/-- The three ways to refer to a variable. -/
inductive ReferenceKind where
  | variable
  | assign
  | this
deriving DecidableEq

/-- **A reference to a local variable**, at a token, `hops` frames out. -/
structure Reference where
  kind : ReferenceKind
  token : Token
  hops : Nat
deriving DecidableEq

/-- **The state of the analysis**: the open scopes from the inside out, what encloses the
code, and the local references found so far. -/
structure Analysis where
  scopes : List Scope
  function : FunctionContext
  inClass : Bool
  references : List Reference

namespace Analysis

/-- The analysis of code at the top level. -/
def initial : Analysis := ⟨[], .none, false, []⟩

/-- Gives `name` a mark in the innermost scope.  Without an open scope the name is global
and is not tracked. -/
def mark (state : Analysis) (name : String) (ready : Bool) : Analysis :=
  match state.scopes with
  | [] => state
  | scope :: outer => { state with scopes := scope.insert name ready :: outer }

/-- Whether `name` is being initialized in the innermost scope. -/
def isPending (state : Analysis) (name : String) : Bool :=
  match state.scopes with
  | [] => false
  | scope :: _ => scope.get? name == some false

/-- How many scopes lie inside the innermost one that has `name`. -/
def hops? (state : Analysis) (name : String) : Option Nat :=
  state.scopes.findIdx? (·.contains name)

end Analysis

/-- Scope analysis of one piece of code.  After an error the state is left as it was when
the error was found. -/
abbrev Analyze := EStateM ScopeError Analysis

namespace Analyze

/-- Refuses the code at a token. -/
def refuse {α : Type} (fault : ScopeFault) (token : Token) : Analyze α := throw ⟨fault, token⟩

/-- Marks `name` as known but not ready. -/
def declare (name : Token) : Analyze Unit := modify (·.mark name.lexeme false)

/-- Marks `name` as ready. -/
def define (name : Token) : Analyze Unit := modify (·.mark name.lexeme true)

/-- The number of frames to the variable named by a token, noted as a reference if the
variable is local. -/
def locate (kind : ReferenceKind) (token : Token) : Analyze (Option Int) := do
  let hops? := (← get).hops? token.lexeme
  if let some hops := hops? then
    modify fun state => { state with references := state.references ++ [⟨kind, token, hops⟩] }
  return hops?.map Int.ofNat

/-- Walks code inside one more scope. -/
def inScope {α : Type} (scope : Scope) (walk : Analyze α) : Analyze α := do
  modify fun state => { state with scopes := scope :: state.scopes }
  let result ← walk
  modify fun state => { state with scopes := state.scopes.tail }
  return result

/-- Walks the body of a function: in a scope with its parameters. -/
def inFunction {α : Type} (context : FunctionContext) (params : List Token)
    (walk : Analyze α) : Analyze α := do
  let outer := (← get).function
  modify fun state => { state with function := context }
  let result ← inScope .empty do
    params.forM define
    walk
  modify fun state => { state with function := outer }
  return result

/-- Walks the methods of a class: in a scope that has `this` alone. -/
def inClass {α : Type} (name : Token) (walk : Analyze α) : Analyze α := do
  let outer := (← get).inClass
  modify fun state => { state with inClass := true }
  define name
  let result ← inScope (NameMap.empty.insert "this" true) walk
  modify fun state => { state with inClass := outer }
  return result

/-- The name of the method that sets up a new instance. -/
def initializerName : String := "init"

/-- What a method's body is enclosed by. -/
def methodContext (name : Token) : FunctionContext :=
  if name.lexeme = initializerName then .initializer else .method

mutual

/-- Fills in the numbers of an expression. -/
def expr : Expr → Analyze Expr
  | .literal value => return .literal value
  | .variable name _ _ => do
    if (← get).isPending name.lexeme then refuse .ownInitializer name
    return .variable name (← locate .variable name) (← get).scopes
  | .assign name value _ _ => do
    let value ← expr value
    return .assign name value (← locate .assign name) (← get).scopes
  | .group inner => return .group (← expr inner)
  | .unary op operand => return .unary op (← expr operand)
  | .binary left op right => do
    let left ← expr left
    return .binary left op (← expr right)
  | .logical left op right => do
    let left ← expr left
    return .logical left op (← expr right)
  | .conditional condition whenTrue whenFalse => do
    let condition ← expr condition
    let whenTrue ← expr whenTrue
    return .conditional condition whenTrue (← expr whenFalse)
  | .sequence items => return .sequence (← exprs items)
  | .call callee paren args => do
    let callee ← expr callee
    return .call callee paren (← exprs args)
  | .lambda keyword params body =>
    return .lambda keyword params (← inFunction .anonymous params (stmts body))
  | .get object name => return .get (← expr object) name
  | .set object name value => do
    let value ← expr value
    return .set (← expr object) name value
  | .this keyword _ _ => do
    if !(← get).inClass then refuse .thisOutsideClass keyword
    return .this keyword (← locate .this keyword) (← get).scopes

/-- Fills in the numbers of expressions in order. -/
def exprs : List Expr → Analyze (List Expr)
  | [] => return []
  | head :: tail => do
    let head ← expr head
    return head :: (← exprs tail)

/-- Fills in the numbers of an expression that may be missing. -/
def optionalExpr : Option Expr → Analyze (Option Expr)
  | none => return none
  | some inner => return some (← expr inner)

/-- Fills in the numbers of a statement. -/
def stmt : Stmt → Analyze Stmt
  | .expression inner => return .expression (← expr inner)
  | .print inner => return .print (← expr inner)
  | .var name initializer => do
    declare name
    let initializer ← optionalExpr initializer
    define name
    return .var name initializer
  | .block statements => return .block (← inScope .empty (stmts statements))
  | .branch condition whenTrue whenFalse => do
    let condition ← expr condition
    let whenTrue ← stmt whenTrue
    return .branch condition whenTrue (← optionalStmt whenFalse)
  | .loop condition body => do
    let condition ← expr condition
    return .loop condition (← stmt body)
  | .function (.mk name params body) => do
    define name
    return .function (.mk name params (← inFunction .function params (stmts body)))
  | .return keyword value => do
    if (← get).function = .none then refuse .topLevelReturn keyword
    return .return keyword (← optionalExpr value)
  | .class name methods => return .class name (← inClass name (methodList methods))

/-- Fills in the numbers of statements in order. -/
def stmts : List Stmt → Analyze (List Stmt)
  | [] => return []
  | head :: tail => do
    let head ← stmt head
    return head :: (← stmts tail)

/-- Fills in the numbers of a statement that may be missing. -/
def optionalStmt : Option Stmt → Analyze (Option Stmt)
  | none => return none
  | some inner => return some (← stmt inner)

/-- Fills in the numbers of a method. -/
def method : FunctionDecl → Analyze FunctionDecl
  | .mk name params body =>
    return .mk name params (← inFunction (methodContext name) params (stmts body))

/-- Fills in the numbers of methods in order. -/
def methodList : List FunctionDecl → Analyze (List FunctionDecl)
  | [] => return []
  | head :: tail => do
    let head ← method head
    return head :: (← methodList tail)

end

end Analyze

/-- **Analyzes a program** at the top level: the trees with the numbers filled in, or the
first thing refused. -/
def analyze (statements : List Stmt) : Except ScopeError (List Stmt) :=
  match (Analyze.stmts statements).run .initial with
  | .ok resolved _ => .ok resolved
  | .error e _ => .error e

end ScopedScript

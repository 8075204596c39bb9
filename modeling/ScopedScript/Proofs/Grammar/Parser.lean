import ScopedScript.Tree.Parse

/-!
# A parser with a position

Readers take tokens off the front of a list.  This module describes the same parser in another
way: it keeps the whole list and a position in it, looks at the token at the position or right
before it by its index, and moves the position on.  Wherever it looks at a token, there might be
none at that index.  The parser then stops with a fault, so that it can be said where this may
happen.

The grammar is gone through as the readers do.  What differs is how tokens are looked at: before
most looks the parser asks whether the input has ended, and a token that was just passed over is
looked at once more.

## Main definitions

* `Parser`, `Parser.Fault`, `Parsing`: a token list with a position, and steps on it.
* `Parsing.peek`, `Parsing.previous`, `Parsing.checkNext`: looks at a token, which may be missing.
* `Parsing.expression`, `Parsing.declaration`, `Parsing.program`: the parser.
* `Parser.Call`, `Parser.after`: calls of a parser, one after the other.
-/

namespace ScopedScript

/-- **A token list and a position in it**: the index of the token to be read next. -/
structure Parser where
  tokens : List Token
  current : Nat

/-- Why a parser stops: a parse error; a token asked for past the end of the list, or before its
start; or trees that nest deeper than allowed. -/
inductive Parser.Fault where
  | error (e : ParseError)
  | pastEnd
  | beforeStart
  | tooDeep

/-- **A step of a parser.** -/
abbrev Parsing := EStateM Parser.Fault Parser

namespace Parsing

variable {α : Type}

/-! ## Looking at tokens -/

/-- The token at an index, which must be one of the list. -/
def look (index : Nat) : Parsing Token := fun p =>
  match p.tokens[index]? with
  | some token => .ok token p
  | none => .error .pastEnd p

/-- The token at the position. -/
def peek : Parsing Token := do look (← get).current

/-- The token right before the position. -/
def previous : Parsing Token := fun p =>
  match p.current with
  | 0 => .error .beforeStart p
  | before + 1 => look before p

/-- The tokens from the position on. -/
def remaining : Parsing (List Token) := do
  let p ← get
  return p.tokens.drop p.current

/-- The tokens from the one right before the position on. -/
def fromPrevious : Parsing (List Token) := do
  let _ ← previous
  let p ← get
  return p.tokens.drop (p.current - 1)

/-- Whether the input has ended. -/
def isAtEnd : Parsing Bool := do
  let p ← get
  if p.tokens.length ≤ p.current then return true
  else return (← peek).kind == .eof

/-- Whether the next token is of the given kind. -/
def check (kind : TokenKind) : Parsing Bool := do
  if ← isAtEnd then return false
  else return (← peek).kind == kind

/-- Whether the token after the next one is of the given kind. -/
def checkNext (kind : TokenKind) : Parsing Bool := do
  let p ← get
  if p.tokens.length ≤ p.current + 1 then return false
  else return (← look (p.current + 1)).kind == kind

/-- Moves on, unless the input has ended, and gives the token before the new position. -/
def advance : Parsing Token := do
  if ← isAtEnd then previous
  else
    modify fun p => { p with current := p.current + 1 }
    previous

/-- Passes over the next token if it is of one of the given kinds, and says whether it was. -/
def matchAny : List TokenKind → Parsing Bool
  | [] => return false
  | kind :: kinds => do
    if ← check kind then
      let _ ← advance
      return true
    else matchAny kinds

/-- Fails at the next token, which has to be there. -/
def failAtNext (fault : ParseFault) : Parsing α := do
  let _ ← peek
  throw (.error ⟨fault, ← remaining⟩)

/-- Fails at the next token, or at the end of the input. -/
def fail (fault : ParseFault) : Parsing α := do
  if ← isAtEnd then throw (.error ⟨fault, ← remaining⟩)
  else failAtNext fault

/-- Takes the next token, which has to be of the given kind. -/
def consume (kind : TokenKind) (what : Expectation) : Parsing Token := do
  if ← check kind then advance
  else fail (.expected what)

/-- How many tokens are left; no loop goes round more often. -/
def left : Parsing Nat := do return (← remaining).length

/-! ## Expressions -/

/-- The items that follow, each after a comma. -/
def commaTail (item : Parsing α) : Nat → Parsing (List α)
  | 0 => return []
  | bound + 1 => do
    if ← matchAny [.comma] then
      let head ← item
      let tail ← commaTail item bound
      return head :: tail
    else return []

/-- One or more items with commas between them. -/
def commaList (item : Parsing α) : Parsing (List α) := do
  let head ← item
  let tail ← commaTail item (← left)
  return head :: tail

/-- Operators of one level with their right operands. -/
def operatorChain (level : Reader.Level) (operand : Parsing Expr) : Nat → Expr → Parsing Expr
  | 0, result => return result
  | bound + 1, result => do
    if ← matchAny level.kinds then
      let op ← previous
      let right ← operand
      operatorChain level operand bound (level.join result op right)
    else return result

/-- Operands joined by the operators of the given levels. -/
def operators (operand : Parsing Expr) : List Reader.Level → Parsing Expr
  | [] => operand
  | level :: tighter => do
    let first ← operators operand tighter
    operatorChain level (operators operand tighter) (← left) first

/-- The arguments of a call after its opening parenthesis, and the closing one. -/
def arguments (item : Parsing Expr) : Parsing (Token × List Expr) := do
  let args ← if ← check .rightParen then pure [] else commaList item
  let here ← remaining
  let paren ← consume .rightParen .argumentsClose
  if args.length > maxArity then throw (.error ⟨.tooManyArguments, here⟩)
  else return (paren, args)

/-- Calls and property reads after a callee. -/
def applications (item : Parsing Expr) : Nat → Expr → Parsing Expr
  | 0, callee => return callee
  | bound + 1, callee => do
    if ← matchAny [.leftParen] then
      let (paren, args) ← arguments item
      applications item bound (.call callee paren args)
    else if ← matchAny [.dot] then
      let name ← consume .identifier .propertyName
      applications item bound (.get callee name)
    else return callee

/-- Comma-separated items as one expression. -/
def expressionOf (item : Parsing Expr) : Parsing Expr := Reader.sequenceOf <$> commaList item

/-! ## Functions and classes -/

/-- The items up to a closing brace or the end of the input. -/
def untilBrace (item : Parsing α) : Nat → Parsing (List α)
  | 0 => return []
  | bound + 1 => do
    if ← check .rightBrace then return []
    else if ← isAtEnd then return []
    else
      let head ← item
      let tail ← untilBrace item bound
      return head :: tail

/-- The items up to a closing brace, and the brace. -/
def braced (item : Parsing α) (close : Expectation) : Parsing (List α) := do
  let items ← untilBrace item (← left)
  let _ ← consume .rightBrace close
  return items

/-- Parameters with commas between them, for at most `room` of them.  The token that is one too
many is looked at without asking whether the input has ended. -/
def parameterNames (owner : Owner) : Nat → Parsing (List Token)
  | 0 => failAtNext (.tooManyParameters owner)
  | room + 1 => do
    let head ← consume .identifier .parameterName
    if ← matchAny [.comma] then
      let tail ← parameterNames owner room
      return head :: tail
    else return [head]

/-- A parameter list between parentheses. -/
def parameters (owner : Owner) : Parsing (List Token) := do
  let _ ← consume .leftParen (.parametersOpen owner)
  let params ← if ← check .rightParen then pure [] else parameterNames owner maxArity
  let _ ← consume .rightParen (.parametersClose owner)
  return params

/-- A function from its name on. -/
def function (declaration : Parsing Stmt) (kind : FunctionKind) : Parsing FunctionDecl := do
  let name ← consume .identifier (.functionName kind)
  let params ← parameters (.named kind name.lexeme)
  let _ ← consume .leftBrace (.bodyOpen kind name.lexeme)
  let body ← braced declaration .blockClose
  return .mk name params body

/-- A function without a name, after its keyword. -/
def lambda (declaration : Parsing Stmt) : Parsing Expr := do
  let keyword ← previous
  let params ← parameters .anonymous
  let _ ← consume .leftBrace .lambdaOpen
  let body ← braced declaration .blockClose
  return .lambda keyword params body

/-- A class, after its keyword. -/
def classDeclaration (declaration : Parsing Stmt) : Parsing Stmt := do
  let name ← consume .identifier .className
  let _ ← consume .leftBrace .classOpen
  let methods ← braced (function declaration .method) .classClose
  return .class name methods

/-! ## Statements -/

/-- A variable declaration, after its keyword. -/
def varDeclaration (expression : Parsing Expr) : Parsing Stmt := do
  let name ← consume .identifier .variableName
  let initializer ← if ← matchAny [.equal] then some <$> expression else pure none
  let _ ← consume .semicolon .variableEnd
  return .var name initializer

/-- An expression and a semicolon. -/
def expressionStatement (expression : Parsing Expr) : Parsing Stmt := do
  let value ← expression
  let _ ← consume .semicolon .expressionEnd
  return .expression value

/-- A print statement, after its keyword. -/
def printStatement (expression : Parsing Expr) : Parsing Stmt := do
  let value ← expression
  let _ ← consume .semicolon .printEnd
  return .print value

/-- A return statement, after its keyword. -/
def returnStatement (expression : Parsing Expr) : Parsing Stmt := do
  let keyword ← previous
  let value ← if ← check .semicolon then pure none else some <$> expression
  let _ ← consume .semicolon .returnEnd
  return .return keyword value

/-- An if statement, after its keyword. -/
def ifStatement (expression : Parsing Expr) (statement : Parsing Stmt) : Parsing Stmt := do
  let _ ← consume .leftParen .ifOpen
  let condition ← expression
  let _ ← consume .rightParen .ifClose
  let whenTrue ← statement
  let whenFalse ← if ← matchAny [.else] then some <$> statement else pure none
  return .branch condition whenTrue whenFalse

/-- A while statement, after its keyword. -/
def whileStatement (expression : Parsing Expr) (statement : Parsing Stmt) : Parsing Stmt := do
  let _ ← consume .leftParen .whileOpen
  let condition ← expression
  let _ ← consume .rightParen .whileClose
  let body ← statement
  return .loop condition body

/-- The initializer of a for loop, and its semicolon. -/
def forInitializer (expression : Parsing Expr) : Parsing (Option Stmt) := do
  if ← matchAny [.semicolon] then return none
  else if ← matchAny [.var] then some <$> varDeclaration expression
  else some <$> expressionStatement expression

/-- A for statement, after its keyword. -/
def forStatement (expression : Parsing Expr) (statement : Parsing Stmt) : Parsing Stmt := do
  let _ ← consume .leftParen .forOpen
  let initializer ← forInitializer expression
  let condition ← if ← check .semicolon then pure (.literal (.bool true)) else expression
  let _ ← consume .semicolon .conditionEnd
  let increment ← if ← check .rightParen then pure none else some <$> expression
  let _ ← consume .rightParen .forClose
  let body ← statement
  return Reader.forLoop initializer condition increment body

/-! ## Where the grammar refers back to itself -/

mutual

/-- An assignment, or what is as tight. -/
def assignment : Nat → Parsing Expr
  | 0 => throw .tooDeep
  | depth + 1 => do
    let target ← ternary depth
    if ← matchAny [.equal] then
      let equals ← fromPrevious
      let value ← assignment depth
      match target with
      | .variable name _ _ => return .assign name value none
      | .get object name => return .set object name value
      | _ => throw (.error ⟨.invalidTarget, equals⟩)
    else return target

/-- A conditional expression, or what is as tight. -/
def ternary : Nat → Parsing Expr
  | 0 => throw .tooDeep
  | depth + 1 => do
    let condition ← operators (unary depth) Reader.levels
    if ← matchAny [.question] then
      let whenTrue ← ternary depth
      let _ ← consume .colon .colon
      let whenFalse ← ternary depth
      return .conditional condition whenTrue whenFalse
    else return condition

/-- A unary operator with its operand, or calls and property reads. -/
def unary : Nat → Parsing Expr
  | 0 => throw .tooDeep
  | depth + 1 => do
    if ← matchAny [.bang, .minus] then
      let op ← previous
      return .unary op (← unary depth)
    else
      let callee ← primary depth
      applications (assignment depth) (← left) callee

/-- A primary expression. -/
def primary : Nat → Parsing Expr
  | 0 => throw .tooDeep
  | depth + 1 => do
    if ← matchAny [.false] then return .literal (.bool false)
    else if ← matchAny [.true] then return .literal (.bool true)
    else if ← matchAny [.nil] then return .literal .nil
    else if ← matchAny [.number, .string] then return .literal (← previous).literal.value
    else if ← matchAny [.this] then return .this (← previous) none
    else if ← matchAny [.identifier] then return .variable (← previous) none
    else if ← matchAny [.fun] then lambda (declaration depth)
    else if ← matchAny [.leftParen] then
      let inner ← expressionOf (assignment depth)
      let _ ← consume .rightParen .groupClose
      return .group inner
    else fail .noExpression

/-- A statement. -/
def statement : Nat → Parsing Stmt
  | 0 => throw .tooDeep
  | depth + 1 => do
    let expression := expressionOf (assignment depth)
    if ← matchAny [.for] then forStatement expression (statement depth)
    else if ← matchAny [.if] then ifStatement expression (statement depth)
    else if ← matchAny [.print] then printStatement expression
    else if ← matchAny [.return] then returnStatement expression
    else if ← matchAny [.while] then whileStatement expression (statement depth)
    else if ← matchAny [.leftBrace] then return .block (← braced (declaration depth) .blockClose)
    else expressionStatement expression

/-- A declaration, or a statement. -/
def declaration : Nat → Parsing Stmt
  | 0 => throw .tooDeep
  | depth + 1 => do
    if ← matchAny [.class] then classDeclaration (declaration depth)
    else if ← check .fun <&&> checkNext .identifier then
      let _ ← advance
      return .function (← function (declaration depth) .function)
    else if ← matchAny [.var] then varDeclaration (expressionOf (assignment depth))
    else statement depth

end

/-! ## Whole inputs -/

/-- **Parses all that is left as one expression.** -/
def expression : Parsing Expr := do
  let e ← expressionOf (assignment (depthBound (← remaining)))
  if ← isAtEnd then return e
  else failAtNext .leftover

/-- Passes over tokens to the next statement, once the token before the position was passed. -/
def nextStatement : Nat → Parsing Unit
  | 0 => return ()
  | bound + 1 => do
    if ← isAtEnd then return ()
    else if (← previous).kind == .semicolon then return ()
    else if startsStatement (← peek).kind then return ()
    else
      let _ ← advance
      nextStatement bound

/-- **Passes over tokens to the next statement.** -/
def synchronize : Parsing Unit := do
  let _ ← advance
  nextStatement (← left)

/-- A declaration, or the parse error that was found instead. -/
def tryDeclaration (depth : Nat) : Parsing (Except ParseError Stmt) := fun p =>
  match declaration depth p with
  | .ok s p => .ok (.ok s) p
  | .error (.error e) p => .ok (.error e) p
  | .error fault p => .error fault p

/-- Parses declarations to the end of the input.  After a parse error parsing goes on at the next
statement. -/
def programWithin (depth : Nat) : Nat → Parsing (List Stmt × List ParseError)
  | 0 => return ([], [])
  | bound + 1 => do
    if ← isAtEnd then return ([], [])
    else
      match ← tryDeclaration depth with
      | .ok s => (fun program => (s :: program.1, program.2)) <$> programWithin depth bound
      | .error e =>
        synchronize
        (fun program => (program.1, e :: program.2)) <$> programWithin depth bound

/-- **Parses a program.** -/
def program : Parsing (List Stmt × List ParseError) := do
  programWithin (depthBound (← remaining)) (← left)

end Parsing

/-- What reading a program comes to, as of a reader. -/
def Reading.result (reading : Reading) :
    EStateM.Result ParseFailure (List Token) (List Stmt × List ParseError) :=
  match reading.halt with
  | none => .ok (reading.statements, reading.errors) reading.rest
  | some halt => .error (.halt halt) reading.rest

namespace Parser

/-- A parser at the start of a token list. -/
def start (tokens : List Token) : Parser := ⟨tokens, 0⟩

/-- **What can be asked of a parser**: one expression that is all that is left, one declaration, or
a program. -/
inductive Call where
  | expression
  | statement
  | program

/-- What comes of a call. -/
inductive Answer where
  | expression (e : Expr)
  | statement (s : Stmt)
  | program (statements : List Stmt) (errors : List ParseError)

namespace Call

/-- What a call does. -/
def run : Call → Parsing Answer
  | expression => .expression <$> Parsing.expression
  | statement => .statement <$> do Parsing.declaration (depthBound (← Parsing.remaining))
  | program => (fun program => .program program.1 program.2) <$> Parsing.program

/-- What a call reads. -/
def read : Call → Reader Answer
  | expression => .expression <$> readExpression
  | statement => .statement <$> readDeclaration
  | program => (fun program => .program program.1 program.2) <$>
      fun tokens => (readProgram tokens).result

end Call

/-- The parser that a call leaves, whether the call fails or not. -/
def called (p : Parser) (call : Call) : Parser :=
  match call.run p with
  | .ok _ p => p
  | .error _ p => p

/-- The parser after calls, one after the other. -/
def after (p : Parser) (calls : List Call) : Parser := calls.foldl called p

end Parser

end ScopedScript

import ScopedScript.Tree
import ScopedScript.Tree.ParseError

/-!
# Reading trees from tokens

A reader takes tokens off the front of a list.  It keeps the list where it stopped, also
when it fails.  Each level of the grammar is a reader made from the readers of the levels
below; only the places where the grammar refers back to itself are recursive, and they
count down a bound on nesting.  Loops count down the number of tokens left, so they end
by themselves.

The grammar, from loose to tight:

```
program     ::= declaration*
declaration ::= "class" IDENTIFIER "{" function* "}" | "fun" function
              | "var" IDENTIFIER ( "=" expression )? ";" | statement
function    ::= IDENTIFIER "(" parameters? ")" block
statement   ::= expression ";" | "print" expression ";" | "return" expression? ";" | block
              | "if" "(" expression ")" statement ( "else" statement )?
              | "while" "(" expression ")" statement
              | "for" "(" ( var | expression ";" | ";" ) expression? ";" expression? ")" statement
expression  ::= assignment ( "," assignment )*
assignment  ::= ( call "." )? IDENTIFIER "=" assignment | ternary
ternary     ::= or ( "?" ternary ":" ternary )?
or, and, equality, comparison, term, factor: left-associative
unary       ::= ( "!" | "-" ) unary | call
call        ::= primary ( "(" expression? ")" | "." IDENTIFIER )*
primary     ::= literal | "this" | IDENTIFIER | "(" expression ")" | "fun" "(" parameters? ")" block
```

## Main definitions

* `Reader`: readers over token lists.
* `readExpression`, `readDeclaration`: one expression that is the whole input, one
  declaration at its front.
* `readProgram`, `Reading`: a whole program; after an error reading goes on at the next
  statement.
* `synchronize`: finds the next statement.
-/

namespace ScopedScript

/-- **A reader**: takes tokens off the front of a list, and keeps the list where it
stopped whether it succeeds or fails. -/
abbrev Reader := EStateM ParseFailure (List Token)

namespace Reader

/-! ## Single tokens -/

/-- Fails at the next token. -/
def fail {α : Type} (fault : ParseFault) : Reader α :=
  fun tokens => .error (.error ⟨fault, tokens⟩) tokens

/-- Fails at the first of the given tokens. -/
def failAt {α : Type} (fault : ParseFault) (blamed : List Token) : Reader α :=
  throw (.error ⟨fault, blamed⟩)

/-- The next token, if the input has not ended. -/
def peek? : Reader (Option Token) :=
  fun tokens => .ok (if atEnd tokens then none else tokens.head?) tokens

/-- Passes over the next token. -/
def skip : Reader Unit := fun tokens => .ok () tokens.tail

/-- Takes the next token if it is of one of the given kinds. -/
def acceptAny? (kinds : List TokenKind) : Reader (Option Token) := fun tokens =>
  match tokens with
  | [] => .ok none []
  | token :: rest =>
    if token.kind ≠ .eof ∧ token.kind ∈ kinds then .ok (some token) rest
    else .ok none (token :: rest)

/-- Takes the next token if it is of the given kind, and says whether it was. -/
def accept (kind : TokenKind) : Reader Bool := do
  return (← acceptAny? [kind]).isSome

/-- Whether the next token is of the given kind. -/
def nextIs (kind : TokenKind) : Reader Bool := do
  return (← peek?).any (·.kind == kind)

/-- Takes the next token, which has to be of the given kind. -/
def expect (kind : TokenKind) (what : Expectation) : Reader Token := do
  match ← acceptAny? [kind] with
  | some token => return token
  | none => fail (.expected what)

/-! ## Repetition -/

/-- The items that follow, each after a comma; at most as many as the bound. -/
def commaTail {α : Type} (item : Reader α) : Nat → Reader (List α)
  | 0 => return []
  | bound + 1 => do
    if ← accept .comma then
      let head ← item
      let tail ← commaTail item bound
      return head :: tail
    else return []

/-- One or more items with commas between them. -/
def commaList {α : Type} (item : Reader α) : Reader (List α) := do
  let head ← item
  let tail ← commaTail item (← get).length
  return head :: tail

/-- The items up to a closing brace or the end of the input; at most as many as the
bound. -/
def untilBrace {α : Type} (item : Reader α) : Nat → Reader (List α)
  | 0 => return []
  | bound + 1 => do
    if (← peek?).all (·.kind == .rightBrace) then return []
    else
      let head ← item
      let tail ← untilBrace item bound
      return head :: tail

/-- The items up to a closing brace, and the brace. -/
def braced {α : Type} (item : Reader α) (close : Expectation) : Reader (List α) := do
  let items ← untilBrace item (← get).length
  let _ ← expect .rightBrace close
  return items

/-! ## Operators -/

/-- **A level of left-associative operators**: the kinds of its operators, and the node
that joins two operands. -/
structure Level where
  kinds : List TokenKind
  join : Expr → Token → Expr → Expr

/-- The levels from loose to tight. -/
def levels : List Level :=
  [⟨[.or], .logical⟩, ⟨[.and], .logical⟩, ⟨[.bangEqual, .equalEqual], .binary⟩,
    ⟨[.greater, .greaterEqual, .less, .lessEqual], .binary⟩, ⟨[.minus, .plus], .binary⟩,
    ⟨[.slash, .star], .binary⟩]

/-- Operators of one level with their right operands, joined to what stands on the left;
at most as many as the bound. -/
def operatorChain (level : Level) (operand : Reader Expr) : Nat → Expr → Reader Expr
  | 0, left => return left
  | bound + 1, left => do
    match ← acceptAny? level.kinds with
    | none => return left
    | some op =>
      let right ← operand
      operatorChain level operand bound (level.join left op right)

/-- Operands joined by the operators of the given levels. -/
def operators (operand : Reader Expr) : List Level → Reader Expr
  | [] => operand
  | level :: tighter => do
    let left ← operators operand tighter
    operatorChain level (operators operand tighter) (← get).length left

/-- The expression that comma-separated items make: one item is itself. -/
def sequenceOf : List Expr → Expr
  | [item] => item
  | items => .sequence items

/-- The arguments of a call after its opening parenthesis, and the closing one. -/
def arguments (item : Reader Expr) : Reader (Token × List Expr) := do
  let args ← if ← nextIs .rightParen then pure [] else commaList item
  let here ← get
  let paren ← expect .rightParen .argumentsClose
  if args.length > maxArity then failAt .tooManyArguments here
  else return (paren, args)

/-- Calls and property reads after a callee; at most as many as the bound. -/
def applications (item : Reader Expr) : Nat → Expr → Reader Expr
  | 0, callee => return callee
  | bound + 1, callee => do
    if ← accept .leftParen then
      let (paren, args) ← arguments item
      applications item bound (.call callee paren args)
    else if ← accept .dot then
      let name ← expect .identifier .propertyName
      applications item bound (.get callee name)
    else return callee

/-! ## Functions and classes -/

/-- Parameters with commas between them, for at most `room` of them. -/
def parameterNames (owner : Owner) : Nat → Reader (List Token)
  | 0 => do
    match ← get with
    | [] => throw (.halt .pastEnd)
    | _ :: _ => fail (.tooManyParameters owner)
  | room + 1 => do
    let head ← expect .identifier .parameterName
    if ← accept .comma then
      let tail ← parameterNames owner room
      return head :: tail
    else return [head]

/-- A parameter list between parentheses. -/
def parameters (owner : Owner) : Reader (List Token) := do
  let _ ← expect .leftParen (.parametersOpen owner)
  let params ← if ← nextIs .rightParen then pure [] else parameterNames owner maxArity
  let _ ← expect .rightParen (.parametersClose owner)
  return params

/-- The statements of a block after its opening brace, and the closing one. -/
def blockBody (declaration : Reader Stmt) : Reader (List Stmt) :=
  braced declaration .blockClose

/-- A function from its name on. -/
def function (declaration : Reader Stmt) (kind : FunctionKind) : Reader FunctionDecl := do
  let name ← expect .identifier (.functionName kind)
  let params ← parameters (.named kind name.lexeme)
  let _ ← expect .leftBrace (.bodyOpen kind name.lexeme)
  let body ← blockBody declaration
  return .mk name params body

/-- A function without a name, after its keyword. -/
def lambda (declaration : Reader Stmt) (keyword : Token) : Reader Expr := do
  let params ← parameters .anonymous
  let _ ← expect .leftBrace .lambdaOpen
  let body ← blockBody declaration
  return .lambda keyword params body

/-- A class, after its keyword. -/
def classDeclaration (declaration : Reader Stmt) : Reader Stmt := do
  let name ← expect .identifier .className
  let _ ← expect .leftBrace .classOpen
  let methods ← braced (function declaration .method) .classClose
  return .class name methods

/-! ## Statements -/

/-- A variable declaration, after its keyword. -/
def varDeclaration (expression : Reader Expr) : Reader Stmt := do
  let name ← expect .identifier .variableName
  let initializer ← if ← accept .equal then some <$> expression else pure none
  let _ ← expect .semicolon .variableEnd
  return .var name initializer

/-- An expression and a semicolon. -/
def expressionStatement (expression : Reader Expr) : Reader Stmt := do
  let value ← expression
  let _ ← expect .semicolon .expressionEnd
  return .expression value

/-- A print statement, after its keyword. -/
def printStatement (expression : Reader Expr) : Reader Stmt := do
  let value ← expression
  let _ ← expect .semicolon .printEnd
  return .print value

/-- A return statement, after its keyword. -/
def returnStatement (expression : Reader Expr) (keyword : Token) : Reader Stmt := do
  let value ← if ← nextIs .semicolon then pure none else some <$> expression
  let _ ← expect .semicolon .returnEnd
  return .return keyword value

/-- An if statement, after its keyword.  An `else` belongs to the nearest `if`. -/
def ifStatement (expression : Reader Expr) (statement : Reader Stmt) : Reader Stmt := do
  let _ ← expect .leftParen .ifOpen
  let condition ← expression
  let _ ← expect .rightParen .ifClose
  let whenTrue ← statement
  let whenFalse ← if ← accept .else then some <$> statement else pure none
  return .branch condition whenTrue whenFalse

/-- A while statement, after its keyword. -/
def whileStatement (expression : Reader Expr) (statement : Reader Stmt) : Reader Stmt := do
  let _ ← expect .leftParen .whileOpen
  let condition ← expression
  let _ ← expect .rightParen .whileClose
  let body ← statement
  return .loop condition body

/-- **A for loop in terms of while**: the initializer and the loop share a block, and so
do the body and the increment. -/
def forLoop (initializer : Option Stmt) (condition : Expr) (increment : Option Expr)
    (body : Stmt) : Stmt :=
  let body :=
    match increment with
    | some step => .block [body, .expression step]
    | none => body
  match initializer with
  | some first => .block [first, .loop condition body]
  | none => .loop condition body

/-- The initializer of a for loop, and its semicolon. -/
def forInitializer (expression : Reader Expr) : Reader (Option Stmt) := do
  if ← accept .semicolon then return none
  else if ← accept .var then some <$> varDeclaration expression
  else some <$> expressionStatement expression

/-- A for statement, after its keyword. -/
def forStatement (expression : Reader Expr) (statement : Reader Stmt) : Reader Stmt := do
  let _ ← expect .leftParen .forOpen
  let initializer ← forInitializer expression
  let condition ← if ← nextIs .semicolon then pure (.literal (.bool true)) else expression
  let _ ← expect .semicolon .conditionEnd
  let increment ← if ← nextIs .rightParen then pure none else some <$> expression
  let _ ← expect .rightParen .forClose
  let body ← statement
  return forLoop initializer condition increment body

/-- Whether a declared function stands next: the keyword and a name. -/
def startsFunction : List Token → Bool
  | keyword :: name :: _ => keyword.kind == .fun && name.kind == .identifier
  | _ => false

/-! ## Where the grammar refers back to itself -/

/-- Comma-separated items as one expression. -/
def expressionOf (item : Reader Expr) : Reader Expr := sequenceOf <$> commaList item

mutual

/-- An assignment, or what is as tight.  The target is read like any other expression and
judged afterwards. -/
def assignment : Nat → Reader Expr
  | 0 => throw (.halt .tooDeep)
  | depth + 1 => do
    let target ← ternary depth
    let here ← get
    if ← accept .equal then
      let value ← assignment depth
      match target with
      | .variable name _ _ => return .assign name value none
      | .get object name => return .set object name value
      | _ => failAt .invalidTarget here
    else return target

/-- A conditional expression, or what is as tight. -/
def ternary : Nat → Reader Expr
  | 0 => throw (.halt .tooDeep)
  | depth + 1 => do
    let condition ← operators (unary depth) levels
    if ← accept .question then
      let whenTrue ← ternary depth
      let _ ← expect .colon .colon
      let whenFalse ← ternary depth
      return .conditional condition whenTrue whenFalse
    else return condition

/-- A unary operator with its operand, or calls and property reads on a primary
expression. -/
def unary : Nat → Reader Expr
  | 0 => throw (.halt .tooDeep)
  | depth + 1 => do
    match ← acceptAny? [.bang, .minus] with
    | some op => return .unary op (← unary depth)
    | none =>
      let callee ← primary depth
      applications (assignment depth) (← get).length callee

/-- A primary expression. -/
def primary : Nat → Reader Expr
  | 0 => throw (.halt .tooDeep)
  | depth + 1 => do
    match ← peek? with
    | none => fail .noExpression
    | some token =>
      match token.kind with
      | .false => skip; return .literal (.bool false)
      | .true => skip; return .literal (.bool true)
      | .nil => skip; return .literal .nil
      | .number => skip; return .literal token.literal.value
      | .string => skip; return .literal token.literal.value
      | .this => skip; return .this token none
      | .identifier => skip; return .variable token none
      | .fun => skip; lambda (declaration depth) token
      | .leftParen =>
        skip
        let inner ← expressionOf (assignment depth)
        let _ ← expect .rightParen .groupClose
        return .group inner
      | _ => fail .noExpression

/-- A statement. -/
def statement : Nat → Reader Stmt
  | 0 => throw (.halt .tooDeep)
  | depth + 1 => do
    let expression := expressionOf (assignment depth)
    match ← peek? with
    | none => expressionStatement expression
    | some token =>
      match token.kind with
      | .for => skip; forStatement expression (statement depth)
      | .if => skip; ifStatement expression (statement depth)
      | .print => skip; printStatement expression
      | .return => skip; returnStatement expression token
      | .while => skip; whileStatement expression (statement depth)
      | .leftBrace => skip; return .block (← blockBody (declaration depth))
      | _ => expressionStatement expression

/-- A declaration, or a statement. -/
def declaration : Nat → Reader Stmt
  | 0 => throw (.halt .tooDeep)
  | depth + 1 => do
    if ← accept .class then classDeclaration (declaration depth)
    else if startsFunction (← get) then
      skip
      return .function (← function (declaration depth) .function)
    else if ← accept .var then varDeclaration (expressionOf (assignment depth))
    else statement depth

end

end Reader

/-! ## Whole inputs -/

/-- A bound on nesting that no tree over the tokens reaches: between two steps into a
nested tree a token is taken, and at most six readers lie between them. -/
def depthBound (tokens : List Token) : Nat := 8 * (tokens.length + 1)

/-- **Reads the whole input as one expression.** -/
def readExpression : Reader Expr := do
  let expr ← Reader.expressionOf (Reader.assignment (depthBound (← get)))
  if atEnd (← get) then return expr else Reader.fail .leftover

/-- **Reads one declaration** at the front of the input. -/
def readDeclaration : Reader Stmt := do
  Reader.declaration (depthBound (← get))

/-- Whether a statement begins with a keyword of this kind, so that reading can go on
there after an error. -/
def startsStatement : TokenKind → Bool
  | .class | .fun | .var | .for | .if | .while | .print | .return => true
  | _ => false

/-- The tokens from the next statement on, where `previous` was passed over last. -/
def nextStatement (previous : Token) : List Token → List Token
  | [] => []
  | token :: rest =>
    if token.kind = .eof ∨ previous.kind = .semicolon ∨ startsStatement token.kind then
      token :: rest
    else nextStatement token rest

/-- **Passes over tokens to the next statement**: at least one token, then up to the end,
past a semicolon, or before a keyword that begins a statement. -/
def synchronize : List Token → List Token
  | [] => []
  | token :: rest => if token.kind = .eof then token :: rest else nextStatement token rest

/-- `synchronize` within a token list that was given, which must not be empty. -/
def resynchronize (tokens rest : List Token) : Except ParseHalt (List Token) :=
  if tokens.isEmpty then .error .pastEnd else .ok (synchronize rest)

/-- **What reading a program comes to**: the statements and the errors in order, the
tokens left, and why reading halted if it did. -/
structure Reading where
  statements : List Stmt
  errors : List ParseError
  rest : List Token
  halt : Option ParseHalt

/-- Reads declarations to the end of the input, at most as many as the bound. -/
def readProgramWithin (depth : Nat) : Nat → List Token → Reading
  | 0, tokens => ⟨[], [], tokens, none⟩
  | bound + 1, tokens =>
    if atEnd tokens then ⟨[], [], tokens, none⟩
    else
      match Reader.declaration depth tokens with
      | .ok statement rest =>
        let reading := readProgramWithin depth bound rest
        { reading with statements := statement :: reading.statements }
      | .error (.error e) rest =>
        let reading := readProgramWithin depth bound (synchronize rest)
        { reading with errors := e :: reading.errors }
      | .error (.halt h) rest => ⟨[], [], rest, some h⟩

/-- **Reads a program.**  Each declaration takes a token, so there are no more of them
than tokens. -/
def readProgram (tokens : List Token) : Reading :=
  readProgramWithin (depthBound tokens) tokens.length tokens

end ScopedScript

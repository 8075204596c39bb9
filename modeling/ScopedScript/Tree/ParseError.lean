import ScopedScript.Diagnostic
import ScopedScript.Token

/-!
# Parse errors

What can be wrong with a token list, as causes.  An error keeps the tokens from the
blamed one on, so that its position in the list can be told; at the end of the input the
last token of the list is blamed instead.

## Main definitions

* `atEnd`: whether a token list is read to its end.
* `Expectation`, `ParseFault`: the causes and their wording.
* `ParseError`: a cause and the tokens from the blamed one on.
* `ParseFailure`: why reading stopped.
-/

namespace ScopedScript

/-- Whether nothing is left to read: the list is empty, or a token of kind `eof` stands
first. -/
def atEnd : List Token → Bool
  | [] => true
  | token :: _ => token.kind == .eof

/-- Functions with a name are declared by themselves or as methods. -/
inductive FunctionKind where
  | function
  | method
deriving DecidableEq

/-- How a kind of function is called. -/
def FunctionKind.label : FunctionKind → String
  | .function => "function"
  | .method => "method"

/-- Whose parameter list is read. -/
inductive Owner where
  | named (kind : FunctionKind) (name : String)
  | anonymous
deriving DecidableEq

/-- How the owner of a parameter list is called. -/
def Owner.label : Owner → String
  | .named kind name => kind.label ++ " " ++ name
  | .anonymous => "anonymous function"

/-- **What had to come next**, named for the place where it is missing. -/
inductive Expectation where
  | className
  | classOpen
  | classClose
  | functionName (kind : FunctionKind)
  | parametersOpen (owner : Owner)
  | parameterName
  | parametersClose (owner : Owner)
  | bodyOpen (kind : FunctionKind) (name : String)
  | lambdaOpen
  | variableName
  | variableEnd
  | forOpen
  | conditionEnd
  | forClose
  | ifOpen
  | ifClose
  | printEnd
  | returnEnd
  | whileOpen
  | whileClose
  | blockClose
  | expressionEnd
  | colon
  | propertyName
  | argumentsClose
  | groupClose
deriving DecidableEq

/-- The wording of an expectation. -/
def Expectation.message : Expectation → String
  | .className => "Expect class name"
  | .classOpen => "Expect '\x7b' before class body"
  | .classClose => "Expect '\x7d' after class body"
  | .functionName kind => "Expect " ++ kind.label ++ " name"
  | .parametersOpen owner => "Expect '(' after " ++ owner.label
  | .parameterName => "Expect parameter name"
  | .parametersClose owner => "Expect ')' after " ++ owner.label ++ " parameters"
  | .bodyOpen kind name => "Expect '\x7b' before " ++ kind.label ++ " body of " ++ name
  | .lambdaOpen => "Expect '\x7b' before anonymous function body"
  | .variableName => "Expect variable name"
  | .variableEnd => "Expect ';' after variable declaration"
  | .forOpen => "Expect '(' after 'for'"
  | .conditionEnd => "Expect ';' after loop condition"
  | .forClose => "Expect ')' after for clauses"
  | .ifOpen => "Expect '(' after 'if'"
  | .ifClose => "Expect ')' after if condition"
  | .printEnd => "Expect ';' after value"
  | .returnEnd => "Expect ';' after return value"
  | .whileOpen => "Expect '(' after 'while'"
  | .whileClose => "Expect ')' after while condition"
  | .blockClose => "Expect '\x7d' after block"
  | .expressionEnd => "Expect ';' after expression"
  | .colon => "Expect ':' in ternary expression"
  | .propertyName => "Expect property name after '.'"
  | .argumentsClose => "Expect ')' after arguments"
  | .groupClose => "Expect ')' after expression"

/-- The most parameters a function and arguments a call may have. -/
def maxArity : Nat := 255

/-- **The causes of parse errors.** -/
inductive ParseFault where
  | expected (what : Expectation)
  | noExpression
  | leftover
  | invalidTarget
  | tooManyParameters (owner : Owner)
  | tooManyArguments
deriving DecidableEq

/-- **A parse error**: its cause and the tokens from the blamed one on. -/
structure ParseError where
  fault : ParseFault
  remaining : List Token
deriving DecidableEq

namespace ParseError

/-- The wording of a parse error, which says so where the input ended too early. -/
def message (e : ParseError) : String :=
  match e.fault with
  | .expected what =>
    if atEnd e.remaining then what.message ++ ", reached end of input" else what.message
  | .noExpression =>
    if atEnd e.remaining then "Unexpected end of input, expect expression"
    else "Expect expression"
  | .leftover => "Expect end of expression"
  | .invalidTarget => "Invalid assignment target"
  | .tooManyParameters owner =>
    "Can't have more than " ++ toString maxArity ++ " parameters for " ++ owner.label
  | .tooManyArguments => "Can't have more than " ++ toString maxArity ++ " arguments"

/-- The token that is blamed, where `tokens` is the whole list: the one reading stopped
at, or the last one if the input ended.  One parameter too many is blamed as it stands. -/
def token? (e : ParseError) (tokens : List Token) : Option Token :=
  match e.fault with
  | .tooManyParameters _ => e.remaining.head?
  | _ => if atEnd e.remaining then tokens.getLast? else e.remaining.head?

/-- A parse error as it is shown, where `tokens` is the whole list. -/
def diagnostic (e : ParseError) (tokens : List Token) : Diagnostic :=
  match e.token? tokens with
  | some token => .located .parse e.message token.line token.lexeme
  | none => .plain .parse e.message

end ParseError

/-- Why reading cannot go on at all: the token after a full parameter list was asked for
and there is none, or trees nest deeper than allowed. -/
inductive ParseHalt where
  | pastEnd
  | tooDeep
deriving DecidableEq

/-- **Why reading stopped.** -/
inductive ParseFailure where
  | error (e : ParseError)
  | halt (h : ParseHalt)
deriving DecidableEq

end ScopedScript

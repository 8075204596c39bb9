import ScopedScript.Diagnostic
import ScopedScript.Token

/-!
# Run-time errors

What can go wrong while a program runs, as causes; the wording is one function.

## Main definitions

* `RuntimeFault`: the causes.  `RuntimeFault.isDefect` marks those that only a fault of
  the interpreter can bring about.
* `RuntimeError`: a cause with the place it is reported at.
-/

namespace ScopedScript

/-- **The causes of run-time errors.**  Values take part with the text they are shown
as. -/
inductive RuntimeFault where
  | undefinedVariable (name : String)
  | notAName (kind : TokenKind)
  | missingAtDistance (name : String) (distance : Int)
  | pastGlobal (distance : Int)
  | noTruth (shown : String)
  | notNumber (shown : String)
  | cannotAdd (left right : String)
  | unknownUnary (operator : String)
  | unknownBinary (operator : String)
  | notCallable
  | wrongArity (expected : Int) (given : Nat)
  | noProperties
  | noFields
  | undefinedProperty (name : String)
deriving DecidableEq

namespace RuntimeFault

/-- The wording of a cause. -/
def message : RuntimeFault → String
  | undefinedVariable name => "Undefined variable '" ++ name ++ "'"
  | notAName kind =>
    "Bad interpreter, attempted to use " ++ kind.name ++ " token as a variable name"
  | missingAtDistance name distance =>
    "'" ++ name ++ "' not found at resolved distance " ++ toString distance
  | pastGlobal distance =>
    "Resolved distance " ++ toString distance ++ " runs past the global environment"
  | noTruth shown => "Cannot evaluate truthiness of " ++ shown
  | notNumber shown => shown ++ " cannot be used as a number"
  | cannotAdd left right => "Cannot add " ++ left ++ " and " ++ right
  | unknownUnary operator => "Unknown prefix operator " ++ operator
  | unknownBinary operator => "Unknown operator " ++ operator
  | notCallable => "Can only call functions and classes"
  | wrongArity expected given =>
    "Expected " ++ toString expected ++ " arguments but got " ++ toString given
  | noProperties => "Only instances have properties"
  | noFields => "Only instances have fields"
  | undefinedProperty name => "Undefined property '" ++ name ++ "'"

/-- Whether a cause is a fault of the interpreter: a frame that is not where scope
analysis put it, or a name that is no identifier. -/
def isDefect : RuntimeFault → Bool
  | notAName _ | missingAtDistance _ _ | pastGlobal _ => true
  | _ => false

end RuntimeFault

/-- **A run-time error**: its cause, the line if it has one, and the text it is about. -/
structure RuntimeError where
  fault : RuntimeFault
  line : Option Int
  subject : String
deriving DecidableEq

namespace RuntimeError

/-- The error reported at a token. -/
def onToken (token : Token) (fault : RuntimeFault) : RuntimeError :=
  ⟨fault, some token.line, token.lexeme⟩

/-- The error reported at a token if there is one, and nowhere otherwise. -/
def near (token? : Option Token) (fault : RuntimeFault) : RuntimeError :=
  match token? with
  | some token => .onToken token fault
  | none => ⟨fault, none, ""⟩

/-- A run-time error as it is shown. -/
def diagnostic (e : RuntimeError) : Diagnostic :=
  { category := if e.fault.isDefect then .defect else .runtime
    message := e.fault.message
    line := e.line
    subject := e.subject
    internal := e.fault.isDefect }

end RuntimeError

end ScopedScript

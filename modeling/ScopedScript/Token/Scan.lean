import ScopedScript.Diagnostic
import ScopedScript.Token.Lexeme

/-!
# Scanning a source

Lexemes are placed on lines, and from the placed lexemes come the tokens and the faults
of a source.  Only the newline character ends a line here.  A token stands on the line
on which it ends.

## Main definitions

* `ScanError`: a lexical fault, with its message.
* `Placed`, `place`: lexemes with the lines they begin and end on.
* `Scan`, `scan`: the tokens and the faults of a source.
-/

namespace ScopedScript

/-- What is wrong with a piece of source.  A string or a comment that is never closed
names the line on which it was opened. -/
inductive ScanFault where
  | unexpected (c : Char)
  | openQuote (line : Nat)
  | openComment (line : Nat)
deriving DecidableEq

/-- **A lexical fault** and the line it is found on. -/
structure ScanError where
  fault : ScanFault
  line : Nat
deriving DecidableEq

namespace ScanError

/-- The wording of a lexical fault. -/
def message (e : ScanError) : String :=
  match e.fault with
  | .unexpected c => "Unexpected character '" ++ String.singleton c ++ "'"
  | .openQuote line => "Unterminated string starting line " ++ toString line
  | .openComment line => "Unterminated comment starting line " ++ toString line

/-- The character that a lexical fault is about, if it is about one. -/
def subject (e : ScanError) : String :=
  match e.fault with
  | .unexpected c => String.singleton c
  | _ => ""

/-- A lexical fault as it is shown. -/
def diagnostic (e : ScanError) : Diagnostic :=
  .located .scan e.message e.line e.subject

end ScanError

/-- How many newlines a text has. -/
def newlines (chars : List Char) : Nat := chars.count '\n'

/-- The fault of a lexeme of this class that begins and ends on the given lines. -/
def Shape.error? (shape : Shape) (firstLine lastLine : Nat) : Option ScanError :=
  match shape with
  | .unexpected c => some ⟨.unexpected c, lastLine⟩
  | .openQuote => some ⟨.openQuote firstLine, lastLine⟩
  | .openComment => some ⟨.openComment firstLine, lastLine⟩
  | _ => none

/-- **A lexeme on its lines.** -/
structure Placed where
  lexeme : Lexeme
  firstLine : Nat
  lastLine : Nat
deriving DecidableEq

/-- Lexemes placed one after the other, the first on `line`. -/
def place (line : Nat) : List Lexeme → List Placed
  | [] => []
  | lexeme :: rest =>
    let last := line + newlines lexeme.text
    ⟨lexeme, line, last⟩ :: place last rest

namespace Placed

/-- The token that a placed lexeme makes, if it makes one. -/
def token? (p : Placed) : Option Token :=
  let text := p.lexeme.text
  (p.lexeme.shape.token? text (text.drop 1).dropLast).map fun made =>
    ⟨made.1, String.ofList text, made.2, p.lastLine⟩

/-- The fault of a placed lexeme, if it is one. -/
def error? (p : Placed) : Option ScanError := p.lexeme.shape.error? p.firstLine p.lastLine

end Placed

/-- **What a source scans to**: its tokens and its faults, both in order. -/
structure Scan where
  tokens : List Token
  errors : List ScanError
deriving DecidableEq

/-- The placed lexemes of a source, which begins on line one. -/
def placedLexemes (source : String) : List Placed := place 1 (lexemes source.toList)

/-- **Scans a source.**  A fault stops nothing. -/
def scan (source : String) : Scan :=
  let placed := placedLexemes source
  ⟨placed.filterMap Placed.token?, placed.filterMap Placed.error?⟩

end ScopedScript

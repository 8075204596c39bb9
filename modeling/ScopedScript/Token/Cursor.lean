import ScopedScript.Token.Scan

/-!
# Scanning step by step

A cursor reads a source one character or one lexeme at a time.  It remembers where the
lexeme being read began, so that characters passed over one by one belong to the lexeme
read next.

A cursor can be put anywhere.  A negative position counts from the end of the source, and
what is read from there goes on at the beginning after the last character.

## Main definitions

* `Cursor`: the source, the two positions, the line and the faults so far.
* `Cursor.charAt?`, `Cursor.between`: what stands at a position and between two.
* `Cursor.advance`, `Cursor.accept`, `Cursor.peek`, `Cursor.peekNext`: single characters.
* `Cursor.next`: reads one lexeme.

## Main results

* `Cursor.next_source`: reading leaves the source alone.
-/

namespace ScopedScript

/-- Why a cursor cannot go on: there is no character at its position, or the characters
passed over do not make a number together with the digits after them. -/
inductive CursorFault where
  | outside
  | malformedNumber
deriving DecidableEq

/-- **A place in a source**: where the current lexeme began, the character to be read
next, the line, and the faults found so far. -/
structure Cursor where
  source : List Char
  start : Int
  current : Int
  line : Nat
  errors : List ScanError

namespace Cursor

/-- The cursor at the beginning of a source. -/
def ofSource (source : String) : Cursor := ⟨source.toList, 0, 0, 1, []⟩

/-- A position counted from the beginning, also if it was given from the end; it may still
lie before the beginning. -/
def fromStart (c : Cursor) (position : Int) : Int :=
  if 0 ≤ position then position else c.source.length + position

/-- The character at a position. -/
def charAt? (c : Cursor) (position : Int) : Option Char :=
  let place := c.fromStart position
  if 0 ≤ place then c.source[place.toNat]? else none

/-- The characters from one position up to another, as far as there are any. -/
def between (c : Cursor) (first stop : Int) : List Char :=
  (c.source.take (c.fromStart stop).toNat).drop (c.fromStart first).toNat

/-- The characters from the next one on.  From a negative position the whole source
follows once more. -/
def ahead (c : Cursor) : List Char :=
  let place := c.fromStart c.current
  if place < 0 then []
  else if c.current < 0 then c.source.drop place.toNat ++ c.source
  else c.source.drop place.toNat

/-- Whether no character is left. -/
def atEnd (c : Cursor) : Bool := c.source.length ≤ c.current

/-- The character at a position; past the end, the NUL character. -/
def peekAt (c : Cursor) (position : Int) : Except CursorFault Char :=
  if c.source.length ≤ position then .ok '\x00'
  else
    match c.charAt? position with
    | some char => .ok char
    | none => .error .outside

/-- The character to be read next; past the end, the NUL character. -/
def peek (c : Cursor) : Except CursorFault Char := c.peekAt c.current

/-- The character after the next one; past the end, the NUL character. -/
def peekNext (c : Cursor) : Except CursorFault Char := c.peekAt (c.current + 1)

/-- The characters of the current lexeme read so far. -/
def lexeme (c : Cursor) : List Char := c.between c.start c.current

/-- Moves the next position without reading. -/
def seek (c : Cursor) (position : Int) : Cursor := { c with current := position }

/-- Reads one character.  Where there is none this fails, and the position moves on all
the same. -/
def advance (c : Cursor) : Except CursorFault Char × Cursor :=
  (match c.charAt? c.current with
    | some char => .ok char
    | none => .error .outside,
    { c with current := c.current + 1 })

/-- Reads one character if it alone is the expected text, and says whether it was. -/
def accept (c : Cursor) (expected : String) : Except CursorFault Bool × Cursor :=
  if c.atEnd then (.ok false, c)
  else
    match c.charAt? c.current with
    | some char =>
      if String.singleton char = expected then (.ok true, { c with current := c.current + 1 })
      else (.ok false, c)
    | none => (.error .outside, c)

/-- Reads one lexeme and gives its token, if it makes one.  The token's text begins
where the current lexeme began. -/
def next (c : Cursor) : Except CursorFault (Option Token) × Cursor :=
  match c.ahead with
  | [] => (.error .outside, { c with current := c.current + 1 })
  | char :: chars =>
    let head := cut char chars
    let stop := c.current + 1 + head.taken.length
    let line := c.line + newlines (char :: head.taken)
    let moved := { c with
      current := stop
      line := line
      errors := c.errors ++ (head.shape.error? c.line line).toList }
    match head.shape.token? moved.lexeme (c.between (c.start + 1) (stop - 1)) with
    | some (kind, literal) =>
      (.ok (some ⟨kind, String.ofList moved.lexeme, literal, line⟩), { moved with start := stop })
    | none =>
      if head.shape = .numeral then (.error .malformedNumber, moved)
      else (.ok none, { moved with start := stop })

theorem next_source (c : Cursor) : c.next.2.source = c.source := by
  unfold next
  split
  · rfl
  · simp only
    split
    · rfl
    · split <;> rfl

end Cursor

end ScopedScript

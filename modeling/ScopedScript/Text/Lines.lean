/-!
# Lines of a text

Two ways of looking at line ends.  For display, a text is cut at every line
boundary of the character set.  For reading a script, the two ways of ending a
line with a carriage return are turned into a plain newline first.

## Main definitions

* `Text.isLineBreak`, `Text.lines`: the lines shown beside a report.
* `Text.unifyNewlines`: a script's text with `\n` as its only newline.
-/

namespace ScopedScript.Text

/-- Whether a character ends a line: the newline, vertical tab, form feed and
carriage return, the file, group and record separators, the next-line control
U+0085, and the separators U+2028 and U+2029. -/
def isLineBreak (c : Char) : Bool :=
  let n := c.toNat
  (10 ≤ n && n ≤ 13) || (0x1C ≤ n && n ≤ 0x1E) || n == 0x85 || n == 0x2028 || n == 0x2029

/-- The lines of a text, without their ends.  A carriage return followed by a
newline is one end, and nothing follows an end that closes the text. -/
def splitLines : List Char → List (List Char)
  | [] => []
  | '\r' :: '\n' :: rest => [] :: splitLines rest
  | c :: rest =>
    if isLineBreak c then [] :: splitLines rest
    else
      match splitLines rest with
      | [] => [[c]]
      | line :: lines => (c :: line) :: lines

/-- `splitLines` on text. -/
def lines (s : String) : List String := (splitLines s.toList).map String.ofList

/-- Turns `\r\n` and a lone `\r` into `\n`. -/
def unifyNewlineChars : List Char → List Char
  | [] => []
  | '\r' :: '\n' :: rest => '\n' :: unifyNewlineChars rest
  | '\r' :: rest => '\n' :: unifyNewlineChars rest
  | c :: rest => c :: unifyNewlineChars rest

/-- `unifyNewlineChars` on text. -/
def unifyNewlines (s : String) : String := String.ofList (unifyNewlineChars s.toList)

end ScopedScript.Text

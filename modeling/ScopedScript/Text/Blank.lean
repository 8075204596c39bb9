/-!
# Blank characters

The characters that count as blank when text is trimmed: the ASCII controls that
move the cursor or separate fields, the space, and the space and line separators
of the wider character set.  The zero-width characters (U+180E, U+200B, U+2060,
U+FEFF) are not blank.

## Main definitions

* `Text.isBlank`: the class.
* `Text.trimEnd`, `Text.trim`: text without its blank ends.
-/

namespace ScopedScript.Text

/-- The blank characters above U+00A0, apart from the run U+2000 to U+200A. -/
def wideBlanks : List Nat := [0x1680, 0x2028, 0x2029, 0x202F, 0x205F, 0x3000]

/-- Whether a character is blank: U+0009 to U+000D, U+001C to U+0020, U+0085,
U+00A0, U+2000 to U+200A, or one of `wideBlanks`. -/
def isBlank (c : Char) : Bool :=
  let n := c.toNat
  (9 ≤ n && n ≤ 13) || (0x1C ≤ n && n ≤ 0x20) || n == 0x85 || n == 0xA0 ||
    (0x2000 ≤ n && n ≤ 0x200A) || wideBlanks.contains n

/-- Every character that the core library calls white space is blank. -/
theorem isBlank_of_isWhitespace {c : Char} (h : c.isWhitespace = true) : isBlank c = true := by
  simp only [Char.isWhitespace, Bool.or_eq_true, decide_eq_true_eq] at h
  rcases h with ((h | h) | h) | h <;> subst h <;> decide

/-- The text without the blanks at its end. -/
def trimEnd (s : String) : String :=
  String.ofList (s.toList.reverse.dropWhile isBlank).reverse

/-- The text without the blanks at either end. -/
def trim (s : String) : String :=
  String.ofList ((s.toList.dropWhile isBlank).reverse.dropWhile isBlank).reverse

end ScopedScript.Text

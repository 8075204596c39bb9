/-!
# Terminal styles

Reports are set in bold, and their important parts in bold red, with the usual
terminal escapes.  With colours off, styled text is the text itself.

## Main definitions

* `Text.Style`: the styles in use.
* `Text.styled`: text in a style, when colours are on.
-/

namespace ScopedScript.Text

/-- **A terminal style.** -/
inductive Style where
  | bold
  | alert
deriving DecidableEq

/-- The escapes that switch a style on. -/
def Style.opening : Style → String
  | .bold => "\x1b[1m"
  | .alert => "\x1b[1m\x1b[31m"

/-- The escape that switches every style off. -/
def styleReset : String := "\x1b[0m"

/-- The text in a style if `color` is on, else as it is. -/
def styled (color : Bool) (style : Style) (text : String) : String :=
  if color then style.opening ++ text ++ styleReset else text

@[simp]
theorem styled_false (style : Style) (text : String) : styled false style text = text := rfl

end ScopedScript.Text

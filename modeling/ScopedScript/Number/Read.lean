import ScopedScript.Text.Blank
import ScopedScript.Text.Digit

/-!
# How numbers are read

A numeral has digits, then perhaps a point and digits.  A number given from
outside may also have blanks around it, a sign, an exponent and underscores between
digits, may be written in the digits of any script, and may be an infinity or a NaN by
name.  The value is always the double nearest to the decimal.

## Main definitions

* `Number.ofDecimal`: the double nearest to a decimal.
* `Number.read?`: the number that a text spells.

## Main results

* `Number.dropUnderscores?_eq_some`: a text without underscores is left alone.
-/

namespace ScopedScript.Number

/-- The value of a digit. -/
def digitValue (c : Char) : Nat := c.toNat - '0'.toNat

/-- The natural number that digits spell. -/
def ofDigits (digits : List Char) : Nat :=
  digits.foldl (fun n c => 10 * n + digitValue c) 0

/-- A power of ten so far out that no double other than zero and the infinities comes
near it. -/
def farPlace : Nat := 400

/-- The double nearest to `whole.fraction * 10^exponent`.  Beyond `farPlace` the exponent
makes no difference. -/
def ofDecimal (whole fraction : List Char) (exponent : Int) : Float :=
  let digits := whole ++ fraction
  let place := exponent - fraction.length
  let place := max (min place farPlace) (-(digits.length + farPlace : Nat))
  Float.ofScientific (ofDigits digits) (place < 0) place.natAbs

/-- A text without its underscores, each of which has to stand between two digits; the
text follows a digit or not. -/
def dropUnderscores? : Bool → List Char → Option (List Char)
  | _, [] => some []
  | _, ['_'] => none
  | afterDigit, '_' :: c :: rest =>
    if afterDigit && c.isDigit then (dropUnderscores? true rest).map (c :: ·) else none
  | _, c :: rest => (dropUnderscores? c.isDigit rest).map (c :: ·)

/-- A text without underscores is left alone. -/
theorem dropUnderscores?_eq_some {chars : List Char} (h : '_' ∉ chars) (afterDigit : Bool) :
    dropUnderscores? afterDigit chars = some chars := by
  induction chars generalizing afterDigit with
  | nil => rfl
  | cons c rest ih =>
    obtain ⟨hc, hr⟩ := not_or.1 (mt List.mem_cons.2 h)
    rw [dropUnderscores?, ih hr]
    · rfl
    · rintro rfl rfl
      exact hc rfl
    · rintro _ _ rfl
      exact absurd rfl hc

/-- The exponent part at the end of a numeral: nothing, or the letter `e`, perhaps a
sign, and digits. -/
def readExponent? : List Char → Option Int
  | [] => some 0
  | e :: rest =>
    if e.toLower ≠ 'e' then none
    else
      let (negative, digits) :=
        match rest with
        | '-' :: digits => (true, digits)
        | '+' :: digits => (false, digits)
        | digits => (false, digits)
      if digits.isEmpty || !digits.all Char.isDigit then none
      else
        let size : Int := ofDigits digits
        some (if negative then -size else size)

/-- The magnitude that a text without sign spells. -/
def readMagnitude? (chars : List Char) : Option Float :=
  let name := String.ofList (chars.map Char.toLower)
  if name = "inf" ∨ name = "infinity" then some (1.0 / 0.0)
  else if name = "nan" then some (0.0 / 0.0)
  else
    let (whole, rest) := chars.span Char.isDigit
    let (fraction, rest) :=
      match rest with
      | '.' :: rest => rest.span Char.isDigit
      | rest => ([], rest)
    if whole.isEmpty && fraction.isEmpty then none
    else (readExponent? rest).map (ofDecimal whole fraction)

/-- Whether a character may stand around a number: a blank that is no field separator. -/
def isMargin (c : Char) : Bool := Text.isBlank c && !('\x1c' ≤ c && c ≤ '\x1f')

/-- A text without the margins at either end. -/
def dropMargins (chars : List Char) : List Char :=
  ((chars.dropWhile isMargin).reverse.dropWhile isMargin).reverse

/-- **The number that a text spells**, if it spells one. -/
def read? (s : String) : Option Float := do
  match ← dropUnderscores? false ((dropMargins s.toList).map Text.plainDigit) with
  | '-' :: rest => (readMagnitude? rest).map (- ·)
  | '+' :: rest => readMagnitude? rest
  | rest => readMagnitude? rest

end ScopedScript.Number

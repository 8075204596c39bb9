import ScopedScript.Number.Shortest

/-!
# How numbers are written

A number is written with the fewest digits that read back as the same number.
Numbers of moderate size are written positionally, always with a digit after the
point; the others with an exponent.

## Main definitions

* `Number.Layout`, `Number.layout`: where positional writing ends.
* `Number.text`: the text of a number.
-/

namespace ScopedScript.Number

/-- Where positional writing starts and ends, by the exponent of the leading digit,
and how many digits an exponent has at least. -/
structure Layout where
  lowest : Int
  limit : Int
  exponentWidth : Nat

/-- Numbers from `1e-4` up to but excluding `1e16` are written positionally, and an
exponent has at least two digits. -/
def layout : Layout := ⟨-4, 16, 2⟩

/-- The digits without the zeros at their end. -/
def significantDigits (coefficient : Nat) : List Char :=
  ((Nat.toDigits 10 coefficient).reverse.dropWhile (· == '0')).reverse

/-- Digits with the point after the digit of exponent zero, where the leading digit
has exponent `leading`. -/
def positional (digits : List Char) (leading : Int) : List Char :=
  if leading < 0 then
    '0' :: '.' :: (List.replicate ((-leading).toNat - 1) '0' ++ digits)
  else
    let size := leading.toNat + 1
    let fraction := digits.drop size
    digits.take size ++ List.replicate (size - digits.length) '0' ++
      '.' :: (if fraction.isEmpty then ['0'] else fraction)

/-- Digits with the point after the leading one, then the exponent with its sign. -/
def scientific (width : Nat) (digits : List Char) (leading : Int) : List Char :=
  let size := Nat.toDigits 10 leading.natAbs
  let fraction := digits.drop 1
  digits.take 1 ++ (if fraction.isEmpty then [] else '.' :: fraction) ++
    'e' :: (if leading < 0 then '-' else '+') ::
      (List.replicate (width - size.length) '0' ++ size)

/-- A positive decimal in the given layout. -/
def Layout.write (format : Layout) (decimal : Decimal) : List Char :=
  let leading := ((Nat.toDigits 10 decimal.coefficient).length : Int) - 1 + decimal.exponent
  let digits := significantDigits decimal.coefficient
  if format.lowest ≤ leading ∧ leading < format.limit then positional digits leading
  else scientific format.exponentWidth digits leading

/-- The text of the magnitude with the given exponent and fraction fields. -/
def magnitudeText (field fraction : Nat) : String :=
  if field = 2047 then if fraction = 0 then "inf" else "nan"
  else if field = 0 ∧ fraction = 0 then "0.0"
  else String.ofList (layout.write (Dyadic.ofFields field fraction).shortest)

/-- **The text of a number.**  The sign of a zero is shown, that of a NaN is not. -/
def text (x : Float) : String :=
  let bits := x.toBits.toNat
  let field := bits / Nat.pow 2 52 % 2048
  let fraction := bits % Nat.pow 2 52
  let negative := Nat.pow 2 63 ≤ bits ∧ ¬ (field = 2047 ∧ fraction ≠ 0)
  (if negative then "-" else "") ++ magnitudeText field fraction

end ScopedScript.Number

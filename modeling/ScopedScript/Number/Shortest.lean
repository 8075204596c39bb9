/-!
# Shortest decimals of binary numbers

A finite double is `m * 2^q` for natural `m`.  The reals that round to it form an
interval around it, closed when `m` is even and open when it is odd.  Its shortest
decimal is the one with the fewest significant digits inside that interval, and of
two with as few digits the nearer one.

Everything is computed exactly in natural numbers.  For each digit count the two
neighbours of the value on that decimal grid are tested, since a grid point inside
the interval puts one of the neighbours inside it too.

## Main definitions

* `Dyadic`: a positive number `m * 2^q` with its rounding interval.
* `Decimal`: digits and the exponent of the last digit.
* `Dyadic.shortest`: the shortest decimal that rounds to the number.
-/

namespace ScopedScript

/-- **A decimal** `coefficient * 10^exponent`. -/
structure Decimal where
  coefficient : Nat
  exponent : Int
deriving DecidableEq

/-- **A positive binary number** `significand * 2^exponent`.  The flag `tight` says
that the next smaller number of its format is only half a unit away, which is so at
a power of two above the smallest normal number. -/
structure Dyadic where
  significand : Nat
  exponent : Int
  tight : Bool
deriving DecidableEq

namespace Dyadic

/-- The binary number of a double with biased exponent field `field` and fraction
field `fraction`. -/
def ofFields (field fraction : Nat) : Dyadic :=
  if field = 0 then ⟨fraction, -1074, false⟩
  else ⟨Nat.pow 2 52 + fraction, (field : Int) - 1075, fraction = 0 && 1 < field⟩

/-- The numerator of a quarter unit over `quarterDen`. -/
def quarterNum (d : Dyadic) : Nat := Nat.pow 2 (d.exponent - 2).toNat

/-- The denominator of a quarter unit. -/
def quarterDen (d : Dyadic) : Nat := Nat.pow 2 (2 - d.exponent).toNat

/-- The number in quarter units. -/
def quarters (d : Dyadic) : Nat := 4 * d.significand

/-- The lower end of the rounding interval, in quarter units. -/
def lowQuarters (d : Dyadic) : Nat := d.quarters - (if d.tight then 1 else 2)

/-- The upper end of the rounding interval, in quarter units. -/
def highQuarters (d : Dyadic) : Nat := d.quarters + 2

/-- Whether the fraction `num / den` rounds to the number: it lies in the rounding
interval, whose ends belong to it when the significand is even. -/
def admits (d : Dyadic) (num den : Nat) : Bool :=
  let x := num * d.quarterDen
  let low := d.lowQuarters * d.quarterNum * den
  let high := d.highQuarters * d.quarterNum * den
  if d.significand % 2 = 0 then low ≤ x && x ≤ high else low < x && x < high

/-- The least `k` with `den ≤ num * 10^k`, searched up to `fuel`. -/
def leadingZeros (num den : Nat) : Nat → Nat
  | 0 => 0
  | fuel + 1 => if den ≤ num then 0 else leadingZeros (num * 10) den fuel + 1

/-- The exponent of the leading decimal digit. -/
def leadingExponent (d : Dyadic) : Int :=
  let num := d.quarters * d.quarterNum
  let den := d.quarterDen
  if den ≤ num then ((Nat.toDigits 10 (num / den)).length : Int) - 1
  else -(leadingZeros num den 400 : Int)

/-- The better of the number's two neighbours among the multiples of `10^place`, if
one of them rounds to the number. -/
def onGrid? (d : Dyadic) (place : Int) : Option Decimal :=
  let up := Nat.pow 10 place.toNat
  let down := Nat.pow 10 (-place).toNat
  let num := d.quarters * d.quarterNum * down
  let den := d.quarterDen * up
  let below := num / den
  let above := below + 1
  let fitsBelow := d.admits (below * up) down
  let fitsAbove := d.admits (above * up) down
  let twiceOver := 2 * (num % den)
  if fitsBelow && fitsAbove then
    if twiceOver < den || (twiceOver = den && below % 2 = 0) then some ⟨below, place⟩
    else some ⟨above, place⟩
  else if fitsBelow then some ⟨below, place⟩
  else if fitsAbove then some ⟨above, place⟩
  else none

/-- The first decimal found on the grids from `place` downwards. -/
def search (d : Dyadic) (place : Int) : Nat → Decimal
  | 0 => ⟨d.quarters * d.quarterNum, 0⟩
  | fuel + 1 =>
    match d.onGrid? place with
    | some decimal => decimal
    | none => search d (place - 1) fuel

/-- **The shortest decimal** that rounds to the number.  The search starts with one
significant digit and reaches the exact expansion before its bound. -/
def shortest (d : Dyadic) : Decimal := d.search d.leadingExponent 1500

end Dyadic

end ScopedScript

/-!
# Decimal digits

The characters that stand for the numbers zero to nine in a place-value notation.  Each
script that has such digits has ten of them in a row, from zero on, so a table of the
zeros is enough.

## Main definitions

* `Text.digitZeros`: the zeros.
* `Text.decimalValue?`: the number that a character stands for.
* `Text.plainDigit`: a digit of any script as the ASCII digit of the same value.

## Main results

* `Text.plainDigit_of_isDigit`: the ASCII digits stay as they are.
-/

namespace ScopedScript.Text

/-- The code points of the digit zero in all scripts but the ASCII one. -/
def wideZeros : List Nat :=
  [0x660, 0x6F0, 0x7C0, 0x966, 0x9E6, 0xA66, 0xAE6, 0xB66, 0xBE6, 0xC66, 0xCE6,
    0xD66, 0xDE6, 0xE50, 0xED0, 0xF20, 0x1040, 0x1090, 0x17E0, 0x1810, 0x1946, 0x19D0,
    0x1A80, 0x1A90, 0x1B50, 0x1BB0, 0x1C40, 0x1C50, 0xA620, 0xA8D0, 0xA900, 0xA9D0,
    0xA9F0, 0xAA50, 0xABF0, 0xFF10, 0x104A0, 0x10D30, 0x11066, 0x110F0, 0x11136, 0x111D0,
    0x112F0, 0x11450, 0x114D0, 0x11650, 0x116C0, 0x11730, 0x118E0, 0x11950, 0x11C50,
    0x11D50, 0x11DA0, 0x16A60, 0x16AC0, 0x16B50, 0x1D7CE, 0x1D7D8, 0x1D7E2, 0x1D7EC,
    0x1D7F6, 0x1E140, 0x1E2F0, 0x1E950, 0x1FBF0]

/-- The code points of the digit zero in all scripts. -/
def digitZeros : List Nat := '0'.toNat :: wideZeros

/-- The number that a character stands for, if it is a digit. -/
def decimalValue? (c : Char) : Option Nat :=
  (digitZeros.find? fun first => first ≤ c.toNat && c.toNat < first + 10).map (c.toNat - ·)

/-- Whether a character is a digit of any script. -/
def isDecimal (c : Char) : Bool := (decimalValue? c).isSome

/-- A digit of any script as the ASCII digit of the same value; any other character is
left alone. -/
def plainDigit (c : Char) : Char :=
  match decimalValue? c with
  | some value => Char.ofNat ('0'.toNat + value)
  | none => c

theorem toNat_bounds_of_isDigit {c : Char} (h : c.isDigit = true) :
    '0'.toNat ≤ c.toNat ∧ c.toNat < '0'.toNat + 10 := by
  simp only [Char.isDigit, Bool.and_eq_true, decide_eq_true_eq] at h
  exact ⟨h.1, Nat.lt_succ_of_le h.2⟩

theorem decimalValue?_of_isDigit {c : Char} (h : c.isDigit = true) :
    decimalValue? c = some (c.toNat - '0'.toNat) := by
  have hz := toNat_bounds_of_isDigit h
  rw [decimalValue?, digitZeros, List.find?_cons_of_pos (by simpa using hz)]
  rfl

/-- The ASCII digits stay as they are. -/
theorem plainDigit_of_isDigit {c : Char} (h : c.isDigit = true) : plainDigit c = c := by
  simp only [plainDigit, decimalValue?_of_isDigit h]
  rw [Nat.add_sub_cancel' (toNat_bounds_of_isDigit h).1, Char.ofNat_toNat]

end ScopedScript.Text

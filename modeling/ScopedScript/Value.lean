import ScopedScript.RuntimeError

/-!
# Values

The values that programs compute with.  Functions, classes and instances live on a heap;
a value only refers to them, by a handle that also carries the name they are shown
under.

## Main definitions

* `Value`: the values, with `Value.kind` and `Value.text`.
* `Value.double?`, `Value.ofResult`: numbers as doubles, and the results of operations on doubles.
* `Value.truth?`: which values can be tested, and how the test comes out.
* `Value.equals`: equality of values of one kind.
* `Value.add`, `Value.toNumber`: the operations that can fail.

## Main results

* `Value.kind_eq_of_equals`: equal values are of one kind.
-/

namespace ScopedScript

/-- **A reference to the heap**, with the name it is shown under. -/
structure Handle where
  label : String
  index : Nat
deriving DecidableEq

/-- **The values.**  A list is what the comma operator makes.  A result that is not a number is
known by the operation that it came from.  Only the divisions by zero that have no number for a
result all give the same value: the double that is not a number. -/
inductive Value where
  | nil
  | bool (value : Bool)
  | number (value : Float)
  | nan (origin : Nat)
  | string (value : String)
  | list (items : List Value)
  | function (handle : Handle)
  | native (handle : Handle)
  | class (handle : Handle)
  | instance (handle : Handle)

/-- The kinds of values. -/
inductive ValueKind where
  | nil | bool | number | string | list | function | native | «class» | «instance»
deriving DecidableEq

/-- The value of a token's literal. -/
def Literal.value : Literal → Value
  | .absent => .nil
  | .number value => .number value
  | .string value => .string value

namespace Value

/-- The kind of a value. -/
def kind : Value → ValueKind
  | nil => .nil
  | bool _ => .bool
  | number _ => .number
  | nan _ => .number
  | string _ => .string
  | list _ => .list
  | function _ => .function
  | native _ => .native
  | .class _ => .class
  | .instance _ => .instance

/-! ## Numbers -/

/-- The double that a value is. -/
def double? : Value → Option Float
  | number value => some value
  | nan _ => some (0.0 / 0.0)
  | _ => none

/-- Whether a value is of the kind of numbers, but not a number. -/
def isNaN : Value → Bool
  | number value => value.isNaN
  | nan _ => true
  | _ => false

/-- **The result of the operation `origin` on doubles**, as a value. -/
def ofResult (origin : Nat) (x : Float) : Value := if x.isNaN then nan origin else number x

/-- The result of a division.  By zero, what is zero or not a number always gives the same
value. -/
def quotient (origin : Nat) (x y : Float) : Value :=
  if y == 0.0 && (x == 0.0 || x.isNaN) then number (x / y) else ofResult origin (x / y)

/-! ## Text -/

mutual

/-- The text of a value, as it is printed and concatenated. -/
def text : Value → String
  | nil => "nil"
  | bool true => "true"
  | bool false => "false"
  | number value => Number.text value
  | nan _ => "nan"
  | string value => value
  | list items => "[" ++ String.intercalate ", " (texts items) ++ "]"
  | function handle => "<fn " ++ handle.label ++ ">"
  | native _ => "<native fn>"
  | .class handle => handle.label
  | .instance handle => handle.label ++ " instance"

/-- The texts of values in order. -/
def texts : List Value → List String
  | [] => []
  | item :: items => text item :: texts items

end

theorem texts_eq_map (items : List Value) : texts items = items.map text := by
  induction items with
  | nil => rfl
  | cons item items ih => rw [texts, ih, List.map_cons]

/-! ## Truth -/

/-- The truth of a value that can be tested: nil is false, a string is true unless it is
empty, a number is true unless it is zero. -/
def truth? : Value → Option Bool
  | nil => some false
  | bool value => some value
  | string value => some (value != "")
  | number value => some (value != 0.0)
  | nan _ => some true
  | _ => none

/-- The truth of a value, for the operator `token?` if it is tested by one. -/
def truth (value : Value) (token? : Option Token) : Except RuntimeError Bool :=
  match value.truth? with
  | some b => .ok b
  | none => .error (.near token? (.noTruth value.text))

/-! ## Equality -/

/-- Whether two doubles are the same number, or both are not a number. -/
def sameNumber (x y : Float) : Bool := x == y || (x.isNaN && y.isNaN)

/-- The number that a boolean is compared as inside a list. -/
def boolNumber (b : Bool) : Float := if b then 1.0 else 0.0

mutual

/-- Equality of list items.  Booleans compare with numbers here, as one and zero; references are
equal when they are the same, and so are results that are not numbers. -/
def agree : Value → Value → Bool
  | nil, nil => true
  | bool a, bool b => a == b
  | bool a, number y => boolNumber a == y
  | number x, bool b => x == boolNumber b
  | number x, number y => sameNumber x y
  | nan i, nan j => i == j
  | string a, string b => a == b
  | list xs, list ys => agreeAll xs ys
  | function a, function b => a == b
  | native a, native b => a == b
  | .class a, .class b => a == b
  | .instance a, .instance b => a == b
  | _, _ => false

/-- Equality of lists: as long as each other and equal item by item. -/
def agreeAll : List Value → List Value → Bool
  | [], [] => true
  | x :: xs, y :: ys => agree x y && agreeAll xs ys
  | _, _ => false

end

/-- **Equality of values.**  Values of different kinds are never equal.  Any two values that are
not numbers are equal, and lists are equal when their items agree. -/
def equals (a b : Value) : Bool := a.kind == b.kind && (a.isNaN && b.isNaN || a.agree b)

/-- Equal values are of one kind. -/
theorem kind_eq_of_equals {a b : Value} (h : a.equals b = true) : a.kind = b.kind := by
  simp only [equals, Bool.and_eq_true, beq_iff_eq] at h
  exact h.1

/-! ## Operations that can fail -/

/-- The sum of two numbers, or the texts of two values put together if either is a
string. -/
def add (origin : Nat) (left right : Value) (op : Token) : Except RuntimeError Value :=
  match left.double?, right.double? with
  | some x, some y => .ok (ofResult origin (x + y))
  | _, _ =>
    if left.kind = .string ∨ right.kind = .string then .ok (string (left.text ++ right.text))
    else .error (.onToken op (.cannotAdd left.text right.text))

/-- The double that a value is, for the operator `op`. -/
def toNumber (value : Value) (op : Token) : Except RuntimeError Float :=
  match value.double? with
  | some x => .ok x
  | none => .error (.onToken op (.notNumber value.text))

end Value

end ScopedScript

import ScopedScript.Value

/-!
# Equality of values

Values of different kinds are never equal, and so a boolean is never equal to a number.  The items
of lists are compared in another way, which differs from equality in two respects.  A boolean counts
as one or zero there, so lists may be equal although their items are not.  And values that are not
numbers have to be the same there, so lists may differ although their items are equal.

There is no other difference: two lists are equal exactly when they are as long as each other and
each item is equal to the item across from it, and not apart from it, or one of the two is a boolean
and the other is the number it counts as.

## Main definitions

* `Value.CountsAs`: a boolean and the number it counts as.
* `Value.apart`: two values that are not numbers, and not the same.
* `Value.equalThroughout`: equality that is asked of items too, at any depth.
* `Value.mixes`: somewhere in two values a boolean is across from a number.
* `Value.apartInLists`: somewhere in two lists such values are across from each other.

## Main results

* `Value.equals_list_iff`: which lists are equal.
* `Value.equals_and_mixes_iff`: where no boolean is across from a number and nothing is apart, equal
  values are equal at any depth.
-/

namespace ScopedScript.Value

/-- A boolean and the number it counts as, in either order. -/
def CountsAs : Value → Value → Prop
  | bool b, number x => (boolNumber b == x) = true
  | number x, bool b => (x == boolNumber b) = true
  | _, _ => False

/-- **Values that are not numbers and not the same**: they come from two operations, or one of them
from a division by zero. -/
def apart : Value → Value → Bool
  | nan i, nan j => i != j
  | nan _, number y => y.isNaN
  | number x, nan _ => x.isNaN
  | _, _ => false

mutual

/-- **Equality at any depth**: lists are as long as each other and their items are equal at any
depth, position by position. -/
def equalThroughout : Value → Value → Bool
  | list xs, list ys => allEqualThroughout xs ys
  | a, b => a.equals b

/-- Items that are equal at any depth, position by position. -/
def allEqualThroughout : List Value → List Value → Bool
  | [], [] => true
  | x :: xs, y :: ys => equalThroughout x y && allEqualThroughout xs ys
  | _, _ => false

end

mutual

/-- **A boolean is across from a number**, at the same place in both values. -/
def mixes : Value → Value → Bool
  | bool _, number _ => true
  | number _, bool _ => true
  | list xs, list ys => anyMixes xs ys
  | _, _ => false

/-- A boolean is across from a number in one of the items. -/
def anyMixes : List Value → List Value → Bool
  | x :: xs, y :: ys => mixes x y || anyMixes xs ys
  | _, _ => false

end

mutual

/-- **Items are apart** that are at the same place in two lists, at any depth. -/
def apartInLists : Value → Value → Bool
  | list xs, list ys => anyApart xs ys
  | _, _ => false

/-- Two items are apart, or have such items in them. -/
def anyApart : List Value → List Value → Bool
  | x :: xs, y :: ys => apart x y || apartInLists x y || anyApart xs ys
  | _, _ => false

end

/-! ## Items -/

/-- **Items agree** when they are equal and not apart, or one is a boolean and the other the number
it counts as. -/
theorem agree_iff {a b : Value} :
    a.agree b = true ↔ a.equals b = true ∧ a.apart b = false ∨ a.CountsAs b := by
  cases a <;> cases b <;> simp [equals, kind, agree, CountsAs, isNaN, apart, sameNumber]
  exact fun hx hy => .inr ⟨hx, hy⟩

theorem mixes_of_countsAs {a b : Value} (h : a.CountsAs b) : a.mixes b = true := by
  cases a <;> cases b <;> first | rfl | exact h.elim

/-- Where no boolean is across from a number, items agree when they are equal and not apart. -/
theorem agree_and_mixes_iff {a b : Value} :
    a.agree b = true ∧ a.mixes b = false ↔
      (a.equals b = true ∧ a.mixes b = false) ∧ a.apart b = false := by
  rw [agree_iff]
  constructor
  · rintro ⟨⟨he, ha⟩ | hc, hm⟩
    · exact ⟨⟨he, hm⟩, ha⟩
    · exact absurd (mixes_of_countsAs hc) (Bool.eq_false_iff.1 hm)
  · rintro ⟨⟨he, hm⟩, ha⟩
    exact ⟨.inl ⟨he, ha⟩, hm⟩

theorem agreeAll_iff {xs ys : List Value} :
    agreeAll xs ys = true ↔ xs.length = ys.length ∧
      ∀ (i : Nat) (x y : Value), xs[i]? = some x → ys[i]? = some y → x.agree y = true := by
  induction xs generalizing ys with
  | nil => cases ys <;> simp [agreeAll]
  | cons x xs ih =>
    cases ys with
    | nil => simp [agreeAll]
    | cons y ys =>
      rw [agreeAll, Bool.and_eq_true, ih]
      constructor
      · rintro ⟨hx, hl, hs⟩
        refine ⟨by simp [hl], fun i => ?_⟩
        cases i with
        | zero => simpa using hx
        | succ i => simpa using hs i
      · rintro ⟨hl, hs⟩
        exact ⟨by simpa using hs 0, by simpa using hl, fun i => by simpa using hs (i + 1)⟩

/-- **Which lists are equal.** -/
theorem equals_list_iff {xs ys : List Value} :
    (list xs).equals (list ys) = true ↔ xs.length = ys.length ∧
      ∀ (i : Nat) (x y : Value), xs[i]? = some x → ys[i]? = some y →
        x.equals y = true ∧ x.apart y = false ∨ x.CountsAs y := by
  simp only [← agree_iff]
  exact agreeAll_iff

/-! ## Any depth -/

mutual

/-- **Equality and equality at any depth**: they differ where a boolean is across from a number, and
where items are apart. -/
theorem equals_and_mixes_iff (a b : Value) :
    a.equals b = true ∧ a.mixes b = false ↔
      a.equalThroughout b = true ∧ a.apartInLists b = false := by
  cases a with
  | list xs =>
    cases b with
    | list ys => exact agreeAll_and_anyMixes_iff xs ys
    | _ => simp [equalThroughout, mixes, apartInLists]
  | _ => cases b <;> simp [equalThroughout, mixes, apartInLists, equals, kind]

theorem agreeAll_and_anyMixes_iff (xs ys : List Value) :
    agreeAll xs ys = true ∧ anyMixes xs ys = false ↔
      allEqualThroughout xs ys = true ∧ anyApart xs ys = false := by
  cases xs with
  | nil => cases ys <;> simp [allEqualThroughout, agreeAll, anyMixes, anyApart]
  | cons x xs =>
    cases ys with
    | nil => simp [allEqualThroughout, agreeAll]
    | cons y ys =>
      have hitem : x.agree y = true ∧ x.mixes y = false ↔
          (x.equalThroughout y = true ∧ x.apartInLists y = false) ∧ x.apart y = false := by
        rw [agree_and_mixes_iff, equals_and_mixes_iff x y]
      have hrest := agreeAll_and_anyMixes_iff xs ys
      simp only [allEqualThroughout, agreeAll, anyMixes, anyApart, Bool.and_eq_true,
        Bool.or_eq_false_iff]
      constructor
      · rintro ⟨⟨hx, hs⟩, hm, hms⟩
        obtain ⟨⟨he, hl⟩, ha⟩ := hitem.1 ⟨hx, hm⟩
        obtain ⟨hes, has⟩ := hrest.1 ⟨hs, hms⟩
        exact ⟨⟨he, hes⟩, ⟨ha, hl⟩, has⟩
      · rintro ⟨⟨he, hes⟩, ⟨ha, hl⟩, has⟩
        obtain ⟨hx, hm⟩ := hitem.2 ⟨⟨he, hl⟩, ha⟩
        obtain ⟨hs, hms⟩ := hrest.2 ⟨hes, has⟩
        exact ⟨⟨hx, hs⟩, hm, hms⟩

end

/-- **Only booleans in lists are coerced.**  Equal values are of one kind.  Two lists are equal
exactly when they are as long as each other, with items position by position that are equal and not
apart, or of which one is a boolean and the other the number it counts as.  So values that are equal
are equal at any depth unless a boolean is across from a number, and values that are equal at any
depth are equal unless items of lists are apart. -/
theorem equals_coerces_only_booleans_in_lists (a b : Value) :
    (a.equals b = true → a.kind = b.kind) ∧
      (∀ xs ys, a = list xs → b = list ys →
        (a.equals b = true ↔ xs.length = ys.length ∧
          ∀ (i : Nat) (x y : Value), xs[i]? = some x → ys[i]? = some y →
            x.equals y = true ∧ x.apart y = false ∨ x.CountsAs y)) ∧
      (a.equals b = true ∧ a.mixes b = false ↔
        a.equalThroughout b = true ∧ a.apartInLists b = false) := by
  refine ⟨kind_eq_of_equals, ?_, equals_and_mixes_iff a b⟩
  rintro xs ys rfl rfl
  exact equals_list_iff

/-- A list with a boolean in it is equal to a list with a number in its place. -/
theorem true_equals_one_in_lists :
    (list [bool true, number 2.0]).equals (list [number 1.0, number 2.0]) = true ∧
      (bool true).equals (number 1.0) = false ∧
      (list [bool true, number 2.0]).equalThroughout (list [number 1.0, number 2.0]) = false := by
  decide

end ScopedScript.Value

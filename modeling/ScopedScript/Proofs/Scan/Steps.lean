import ScopedScript.Proofs.Scan.Characters
import ScopedScript.Proofs.Scan.Lexical

/-!
# Scanning step by step to the end

A cursor at the beginning of a source reads lexeme after lexeme until nothing is left.  Each step
takes a slice of the source.  No slice is empty, and put together they are the source, so nothing
is lost and nothing is read twice.  A slice either is the text of a token, or makes none: then it
is a blank, a newline, a comment or a fault, and every fault is noted once.

## Main definitions

* `ScanStep`: one lexeme read, with its slice of the source.
* `Cursor.Scans`: the steps from a cursor to the end of its source.
* `ScanStep.Skips`: the slices that make no token, and what is noted about them.

## Main results

* `Cursor.next_reading`: a step takes what is cut off.
* `exists_scans`: from the beginning of a source the end is reached.
* `scanning_is_lossless`: what the slices are.
-/

namespace ScopedScript

/-! ## Steps -/

/-- **One lexeme read**: the cursor before and after it, and the token if it makes one. -/
structure ScanStep where
  before : Cursor
  made : Option Token
  after : Cursor

namespace ScanStep

/-- The source up to where the step begins. -/
def passed (s : ScanStep) : List Char := s.before.between 0 s.before.current

/-- **The slice of the source** that the step takes. -/
def slice (s : ScanStep) : List Char := s.before.between s.before.current s.after.current

/-- The source from where the step ends. -/
def rest (s : ScanStep) : List Char := s.before.source.drop s.after.current.toNat

/-- The faults that the step notes. -/
def Reports (s : ScanStep) (errors : List ScanError) : Prop :=
  s.after.errors = s.before.errors ++ errors

end ScanStep

/-- **The steps from a cursor to the end of its source**, and the cursor there. -/
inductive Cursor.Scans : Cursor → List ScanStep → Cursor → Prop where
  | finished {c : Cursor} (h : c.atEnd = true) : Scans c [] c
  | step {c after last : Cursor} {made : Option Token} {steps : List ScanStep}
      (h : c.atEnd = false) (hn : c.next = (.ok made, after)) (hs : Scans after steps last) :
      Scans c (⟨c, made, after⟩ :: steps) last

/-- **A slice that makes no token**: a newline, a blank, a comment, or a fault that is noted once.
A string or a comment that is never closed goes on to the end of the source. -/
inductive ScanStep.Skips (s : ScanStep) : Prop where
  | newline (h : s.slice = ['\n']) (he : s.Reports [])
  | blank {c : Char} (h : s.slice = [c]) (hc : isSpace c = true) (he : s.Reports [])
  | comment (h : IsLexeme s.slice s.rest none) (he : s.Reports [])
  | unexpected {c : Char} {e : ScanError} (h : s.slice = [c]) (hc : BeginsNothing c)
      (he : s.Reports [e]) (hl : e.line = 1 + newlines (s.passed ++ s.slice))
      (hm : e.message = "Unexpected character '" ++ String.singleton c ++ "'")
  | openQuote {body : List Char} {e : ScanError} (h : s.slice = '"' :: body) (hb : '"' ∉ body)
      (hr : s.rest = []) (he : s.Reports [e]) (hl : e.line = 1 + newlines s.before.source)
      (hm : e.message = "Unterminated string starting line " ++ toString (1 + newlines s.passed))
  | openComment {body : List Char} {e : ScanError} (h : s.slice = '/' :: '*' :: body)
      (hb : ¬ ['*', '/'] <:+: body) (hr : s.rest = []) (he : s.Reports [e])
      (hl : e.line = 1 + newlines s.before.source)
      (hm : e.message = "Unterminated comment starting line " ++ toString (1 + newlines s.passed))

/-! ## What a step takes -/

open Cursor Scanning

section Reading

variable {passed rest : List Char} {line : Nat} {errors : List ScanError}

theorem ahead_natCast {c : Cursor} {n : Nat} (h : c.current = n) : c.ahead = c.source.drop n := by
  have hn : ¬ (n : Int) < 0 := Int.not_lt.2 (Int.natCast_nonneg n)
  simp [ahead, fromStart, h, hn]

theorem ahead_reading : (reading passed [] rest line errors).ahead = rest := by
  rw [ahead_natCast (n := (passed ++ ([] : List Char)).length) rfl, source_reading, List.drop_left]

theorem cutSlash_ne_numeral (chars : List Char) : (cutSlash chars).shape ≠ .numeral := by
  fun_cases cutSlash chars <;> simp

/-- A number always makes a token. -/
theorem token?_numeral_ne_none (c : Char) (chars : List Char)
    (h : (cut c chars).shape = .numeral) :
    (cut c chars).shape.token? (c :: (cut c chars).taken) (cut c chars).taken.dropLast ≠ none := by
  intro hm
  have hp := cut_piece c chars
  generalize ht : c :: (cut c chars).taken = text at hp hm
  generalize hs : (cut c chars).shape = shape at hp hm h
  generalize (cut c chars).rest = after at hp
  cases hp with
  | lexeme hl he =>
    subst ht
    rw [List.drop_one, List.tail_cons, hm] at hl
    -- only a comment makes no token, and it begins with a slash
    have hc : c = '/' := by
      generalize ht : c :: (cut c chars).taken = text at hl
      cases hl <;> exact (List.cons.inj ht).1
    subst hc h
    exact cutSlash_ne_numeral chars hs
  | _ => cases h

theorem source_reading_cut (c : Char) (chars : List Char) :
    (reading passed [] (c :: chars) line errors).source =
      passed ++ c :: (cut c chars).taken ++ (cut c chars).rest := by
  simp [source_reading, cut_append]

theorem current_reading_cut (c : Char) (chars : List Char) :
    (reading passed [] (c :: chars) line errors).current + 1 + (cut c chars).taken.length =
      ((passed ++ c :: (cut c chars).taken).length : Nat) := by
  simp only [reading, List.append_nil, List.length_append, List.length_cons, Int.natCast_add,
    Int.natCast_one]
  omega

/-- The cursor that has moved on to the end of a lexeme. -/
theorem reading_moved (c : Char) (chars : List Char) (line' : Nat) (errors' : List ScanError) :
    { reading passed [] (c :: chars) line errors with
        current := (reading passed [] (c :: chars) line errors).current + 1 +
          (cut c chars).taken.length
        line := line'
        errors := errors' } =
      reading passed (c :: (cut c chars).taken) (cut c chars).rest line' errors' := by
  dsimp only
  rw [source_reading_cut, current_reading_cut]
  rfl

/-- The cursor that goes on from there. -/
theorem reading_ended (c : Char) (chars : List Char) (line' : Nat) (errors' : List ScanError) :
    Cursor.mk (reading passed [] (c :: chars) line errors).source
        ((reading passed [] (c :: chars) line errors).current + 1 + (cut c chars).taken.length)
        ((reading passed [] (c :: chars) line errors).current + 1 + (cut c chars).taken.length)
        line' errors' =
      reading (passed ++ c :: (cut c chars).taken) [] (cut c chars).rest line' errors' := by
  rw [source_reading_cut, current_reading_cut]
  simp only [reading, List.append_nil]

/-- What stands between the first and the last character of a lexeme. -/
theorem between_reading (c : Char) (chars : List Char) :
    (reading passed [] (c :: chars) line errors).between
        ((reading passed [] (c :: chars) line errors).start + 1)
        ((reading passed [] (c :: chars) line errors).current + 1 +
          (cut c chars).taken.length - 1) =
      (cut c chars).taken.dropLast := by
  have hstart : (reading passed [] (c :: chars) line errors).start + 1 =
      ((passed ++ [c]).length : Nat) := by simp [reading]
  have hstop : (reading passed [] (c :: chars) line errors).current + 1 +
      (cut c chars).taken.length - 1 = (passed.length + (cut c chars).taken.length : Nat) := by
    simp only [reading, List.append_nil]
    omega
  have hsource : (reading passed [] (c :: chars) line errors).source =
      passed ++ [c] ++ ((cut c chars).taken ++ (cut c chars).rest) := by simp [source_reading_cut]
  rw [hstart, hstop, between_natCast, hsource, List.drop_take, List.drop_left,
    List.length_append, List.length_singleton]
  have hn : passed.length + (cut c chars).taken.length - (passed.length + 1) =
      (cut c chars).taken.length - 1 := by omega
  rw [hn, List.take_append_of_le_length (Nat.sub_le _ _), List.dropLast_eq_take]

/-- **A step takes what is cut off**, makes its token and notes its fault. -/
theorem Cursor.next_reading (c : Char) (chars : List Char) :
    (reading passed [] (c :: chars) line errors).next =
      (.ok (placedCut line c (cut c chars)).token?,
        reading (passed ++ c :: (cut c chars).taken) [] (cut c chars).rest
          (placedCut line c (cut c chars)).lastLine
          (errors ++ (placedCut line c (cut c chars)).error?.toList)) := by
  rw [Cursor.next, ahead_reading]
  dsimp only
  rw [reading_moved, lexeme_reading, between_reading]
  rw [reading_ended]
  have hn := token?_numeral_ne_none c chars
  generalize hm : (cut c chars).shape.token? (c :: (cut c chars).taken) _ = made at hn ⊢
  have ht : (placedCut line c (cut c chars)).token? = made.map fun made =>
      ⟨made.1, String.ofList (c :: (cut c chars).taken), made.2,
        (placedCut line c (cut c chars)).lastLine⟩ := by rw [← hm]; rfl
  rw [ht]
  cases made with
  | some made => rfl
  | none =>
    dsimp only
    rw [if_neg fun h => hn h rfl]
    rfl

end Reading

theorem newlines_append (xs ys : List Char) : newlines (xs ++ ys) = newlines xs + newlines ys :=
  List.count_append

/-- **A step takes what is cut off** the text `c :: chars`. -/
structure ScanStep.TakesCut (s : ScanStep) (c : Char) (chars : List Char) : Prop where
  source : s.before.source = s.passed ++ c :: chars
  slice : s.slice = c :: (cut c chars).taken
  rest : s.rest = (cut c chars).rest
  made : s.made = ((cut c chars).shape.token? s.slice (s.slice.drop 1).dropLast).map fun made =>
    ⟨made.1, String.ofList s.slice, made.2, (1 + newlines (s.passed ++ s.slice) : Nat)⟩
  reports : s.Reports ((cut c chars).shape.error? (1 + newlines s.passed)
    (1 + newlines (s.passed ++ s.slice))).toList

/-- The step at the head of `c :: chars`, after `passed`. -/
def ScanStep.at (passed : List Char) (c : Char) (chars : List Char) (errors : List ScanError) :
    ScanStep :=
  let placed := placedCut (1 + newlines passed) c (cut c chars)
  ⟨reading passed [] (c :: chars) (1 + newlines passed) errors, placed.token?,
    reading (passed ++ c :: (cut c chars).taken) [] (cut c chars).rest placed.lastLine
      (errors ++ placed.error?.toList)⟩

theorem lastLine_placedCut (passed : List Char) (c : Char) (head : Cut) :
    (placedCut (1 + newlines passed) c head).lastLine =
      1 + newlines (passed ++ c :: head.taken) := by
  rw [newlines_append]
  exact Nat.add_assoc ..

theorem ScanStep.takesCut_at (passed : List Char) (c : Char) (chars : List Char)
    (errors : List ScanError) : (ScanStep.at passed c chars errors).TakesCut c chars := by
  have hline := lastLine_placedCut passed c (cut c chars)
  have hpassed : (ScanStep.at passed c chars errors).passed = passed := by
    change (reading passed [] (c :: chars) _ errors).between ((0 : Nat) : Int)
      ((passed ++ ([] : List Char)).length : Nat) = passed
    rw [between_natCast, source_reading, List.take_left, List.append_nil, List.drop_zero]
  have hslice : (ScanStep.at passed c chars errors).slice = c :: (cut c chars).taken := by
    change (reading passed [] (c :: chars) _ errors).between
      ((passed ++ ([] : List Char)).length : Nat)
      ((passed ++ c :: (cut c chars).taken ++ []).length : Nat) = _
    rw [between_natCast, source_reading_cut, List.append_nil, List.append_nil, List.take_left,
      List.drop_left]
  constructor
  · rw [hpassed]
    exact congrArg (· ++ c :: chars) (List.append_nil passed)
  · exact hslice
  · change (reading passed [] (c :: chars) _ errors).source.drop
      ((passed ++ c :: (cut c chars).taken ++ []).length : Int).toNat = _
    rw [Int.toNat_natCast, source_reading_cut, List.append_nil, List.drop_left]
  · rw [hslice, hpassed, ← hline]
    rfl
  · rw [hslice, hpassed, ← hline]
    rfl

/-! ## From the beginning to the end -/

/-- **From the beginning of a source the end is reached.**  The steps take the source apart, and
what they make and note together are its tokens and faults.  Character by character the same is
read. -/
theorem exists_scans (passed chars : List Char) (errors : List ScanError) :
    ∃ steps last, (reading passed [] chars (1 + newlines passed) errors).Scans steps last ∧
      (∀ s ∈ steps, s.before.source = passed ++ chars ∧ (∃ c rest, s.TakesCut c rest) ∧
        Scanning.lexeme s.before = .ok s.made s.after) ∧
      steps.flatMap ScanStep.slice = chars ∧
      steps.filterMap ScanStep.made =
        (place (1 + newlines passed) (lexemes chars)).filterMap Placed.token? ∧
      last.errors =
        errors ++ (place (1 + newlines passed) (lexemes chars)).filterMap Placed.error? := by
  induction hn : chars.length using Nat.strongRecOn generalizing passed chars errors with
  | ind n ih =>
    cases chars with
    | nil => exact ⟨[], _, .finished atEnd_reading, by simp, rfl, rfl, by simp [place, reading]⟩
    | cons c chars =>
      have hlt : (cut c chars).rest.length < n := by
        rw [← hn, List.length_cons]
        exact Nat.lt_succ_of_le (length_cut_rest_le c chars)
      obtain ⟨steps, last, hs, hsteps, hslices, hmade, herrors⟩ :=
        ih _ hlt (passed ++ c :: (cut c chars).taken) (cut c chars).rest
          (ScanStep.at passed c chars errors).after.errors rfl
      rw [← lastLine_placedCut] at hs hmade herrors
      have hsource : passed ++ c :: (cut c chars).taken ++ (cut c chars).rest =
          passed ++ c :: chars := by simp [cut_append]
      have hcut := ScanStep.takesCut_at passed c chars errors
      refine ⟨.at passed c chars errors :: steps, last, .step atEnd_reading
        (Cursor.next_reading c chars) hs, List.forall_mem_cons.2 ⟨⟨?_, ⟨c, chars, hcut⟩, ?_⟩, ?_⟩,
        ?_, ?_, ?_⟩
      · exact congrArg (· ++ c :: chars) (List.append_nil passed)
      · exact lexeme_reading_cut c chars
      · rwa [hsource] at hsteps
      · rw [List.flatMap_cons, hcut.slice, hslices, List.cons_append, cut_append]
      · rw [filterMap_cons_toList, hmade, lexemes_cons, place, filterMap_cons_toList]
        rfl
      · rw [herrors, lexemes_cons, place, filterMap_cons_toList, ← List.append_assoc]
        rfl

theorem ofSource_eq_reading (source : String) :
    Cursor.ofSource source = reading [] [] source.toList (1 + newlines []) [] := by
  simp [Cursor.ofSource, reading, newlines]

/-! ## The slices -/

namespace ScanStep

/-- **A step makes a token** of its slice, on the line where the slice ends, and notes no fault. -/
structure Yields (s : ScanStep) (token : Token) : Prop where
  made : s.made = some token
  lexeme : token.lexeme = String.ofList s.slice
  line : token.line = (1 + newlines (s.passed ++ s.slice) : Nat)
  reports : s.Reports []

variable {s : ScanStep} {c : Char} {chars : List Char}

theorem TakesCut.source_eq (h : s.TakesCut c chars) :
    s.passed ++ s.slice ++ s.rest = s.before.source := by
  rw [h.source, h.slice, h.rest]
  simp [cut_append]

/-- A step makes a token or skips its slice. -/
theorem TakesCut.yields_or_skips (h : s.TakesCut c chars) :
    (∃ token, s.Yields token) ∨ s.made = none ∧ s.Skips := by
  have hp : Piece (cut c chars).shape s.slice s.rest := by
    rw [h.slice, h.rest]
    exact cut_piece c chars
  have hsource := h.source_eq
  have hmade := h.made
  have hreports := h.reports
  generalize hslice : s.slice = text at hp hmade hreports hsource
  generalize hrest : s.rest = after at hp hsource
  generalize (cut c chars).shape = shape at hp hmade hreports
  cases hp with
  | lexeme hl he =>
    rw [he] at hreports
    generalize hm : Shape.token? _ text _ = made at hl hmade
    cases made with
    | some made => exact .inl ⟨_, hmade, by rw [hslice], by rw [hslice], hreports⟩
    | none => exact .inr ⟨hmade, .comment (hslice ▸ hrest ▸ hl) hreports⟩
  | newline => exact .inr ⟨hmade, .newline hslice hreports⟩
  | blank hc => exact .inr ⟨hmade, .blank hslice hc hreports⟩
  | unexpected hc => exact .inr ⟨hmade, .unexpected hslice hc hreports (by rw [hslice]) rfl⟩
  | openQuote hb =>
    rw [List.append_nil] at hsource
    exact .inr ⟨hmade, .openQuote hslice hb hrest hreports (by rw [← hsource]) rfl⟩
  | openComment hb =>
    rw [List.append_nil] at hsource
    exact .inr ⟨hmade, .openComment hslice hb hrest hreports (by rw [← hsource]) rfl⟩

end ScanStep

/-- **Scanning loses nothing and counts lines.**  A source is read to its end.  The slices that the
steps take are not empty, and put together they are the source.  A step that makes a token makes it
of its slice, with the line on which the slice ends; what makes no token is skipped, and every
fault is noted once, on its line. -/
theorem scanning_is_lossless (source : String) :
    ∃ steps last, (Cursor.ofSource source).Scans steps last ∧
      steps.filterMap ScanStep.made = (scan source).tokens ∧ last.errors = (scan source).errors ∧
      steps.flatMap ScanStep.slice = source.toList ∧
      ∀ s ∈ steps, Scanning.lexeme s.before = .ok s.made s.after ∧ s.slice ≠ [] ∧
        s.before.source = source.toList ∧ s.passed ++ s.slice ++ s.rest = source.toList ∧
        ((∃ token, s.Yields token) ∨ s.made = none ∧ s.Skips) := by
  obtain ⟨steps, last, hs, hsteps, hslices, hmade, herrors⟩ := exists_scans [] source.toList []
  rw [← ofSource_eq_reading] at hs
  refine ⟨steps, last, hs, hmade, herrors, hslices, fun s hmem => ?_⟩
  obtain ⟨hsource, ⟨c, rest, hcut⟩, hchars⟩ := hsteps s hmem
  refine ⟨hchars, ?_, hsource, hcut.source_eq.trans hsource, hcut.yields_or_skips⟩
  rw [hcut.slice]
  exact List.cons_ne_nil _ _

end ScopedScript

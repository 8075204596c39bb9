import ScopedScript.Proofs.Results
import ScopedScript.Proofs.Scan.Numerals
import ScopedScript.Token.Cursor

/-!
# Scanning character by character

A source is cut into lexemes with whole pieces of it at a time.  This module scans it in another
way, with a cursor that looks at single characters, the next one or the one after it, and moves on
by one.  A cursor that reads where there is no character fails.  From the beginning of a source
this never happens: the cursor comes to the end of the source, with the tokens and the faults that
cutting it into lexemes gives.

## Main definitions

* `Scanning`: steps of a cursor that may fail.
* `Scanning.lexeme`, `Scanning.tokens`: one lexeme and all tokens, character by character.
* `Cursor.reading passed text rest line errors`: the cursor within a lexeme.

## Main results

* `Scanning.lexemeFrom_readsCut`: one lexeme is read as it is cut.
* `Scanning.tokens_ofSource`: a source is scanned to its end.
-/

namespace ScopedScript

/-- **A step of a cursor.** -/
abbrev Scanning := EStateM CursorFault Cursor

namespace Scanning

/-! ## Single characters -/

/-- Reads one character, which has to be there. -/
def advance : Scanning Char := fun c =>
  match c.advance with
  | (.ok char, c) => .ok char c
  | (.error fault, c) => .error fault c

/-- Reads one character if it is the expected one, and says whether it was. -/
def accept (expected : Char) : Scanning Bool := fun c =>
  match c.accept (String.singleton expected) with
  | (.ok accepted, c) => .ok accepted c
  | (.error fault, c) => .error fault c

/-- The character to be read next; past the end, the NUL character. -/
def peek : Scanning Char := fun c =>
  match c.peek with
  | .ok char => .ok char c
  | .error fault => .error fault c

/-- The character after the next one; past the end, the NUL character. -/
def peekNext : Scanning Char := fun c =>
  match c.peekNext with
  | .ok char => .ok char c
  | .error fault => .error fault c

/-- Whether no character is left. -/
def isAtEnd : Scanning Bool := do return (← get).atEnd

/-- How many characters are left; no loop goes round more often. -/
def left : Scanning Nat := do
  let c ← get
  return (c.source.length - c.current).toNat

/-- Goes on to the next line. -/
def newline : Scanning Unit := modify fun c => { c with line := c.line + 1 }

/-- Notes a fault on the current line. -/
def report (fault : ScanFault) : Scanning Unit :=
  modify fun c => { c with errors := c.errors ++ [⟨fault, c.line⟩] }

/-- Reads one character. -/
def pass : Scanning Unit := do let _ ← advance

/-- Reads one character, which may end a line. -/
def passLine : Scanning Unit := do
  if (← peek) == '\n' then newline
  pass

/-- Takes the step as long as there is more. -/
def repeatWhile (more : Scanning Bool) (step : Scanning Unit) : Nat → Scanning Unit
  | 0 => return ()
  | bound + 1 => do
    if ← more then
      step
      repeatWhile more step bound
    else return ()

/-! ## Lexemes -/

/-- The token of the current lexeme. -/
def token (kind : TokenKind) (literal : Literal) : Scanning (Option Token) := do
  let c ← get
  return some ⟨kind, String.ofList c.lexeme, literal, c.line⟩

/-- A comment, or a slash. -/
def slash : Scanning (Option Token) := do
  let line := (← get).line
  if ← accept '/' then
    repeatWhile (do return (← peek) != '\n' && !(← isAtEnd)) pass (← left)
    return none
  else if ← accept '*' then
    repeatWhile (do return !((← peek) == '*' && (← peekNext) == '/') && !(← isAtEnd)) passLine
      (← left)
    if ← isAtEnd then
      report (.openComment line)
      return none
    else
      pass
      pass
      return none
  else token .slash .absent

/-- A string. -/
def quoted : Scanning (Option Token) := do
  let line := (← get).line
  repeatWhile (do return (← peek) != '"' && !(← isAtEnd)) passLine (← left)
  if ← isAtEnd then
    report (.openQuote line)
    return none
  else
    pass
    let c ← get
    token .string (.string (String.ofList (c.between (c.start + 1) (c.current - 1))))

/-- Digits, as many as there are. -/
def digits : Scanning Unit := do repeatWhile (do return (← peek).isDigit) pass (← left)

/-- A point and digits, if a digit follows a point. -/
def fraction : Scanning Unit := do
  if (← peek) == '.' && (← peekNext).isDigit then
    pass
    digits

/-- A number. -/
def numeral : Scanning (Option Token) := do
  digits
  fraction
  match Number.read? (String.ofList (← get).lexeme) with
  | some value => token .number (.number value)
  | none => throw .malformedNumber

/-- A word. -/
def word : Scanning (Option Token) := do
  repeatWhile (do return isWordPart (← peek)) pass (← left)
  token ((keyword? (String.ofList (← get).lexeme)).getD .identifier) .absent

/-- The rest of a lexeme after its first character. -/
def lexemeFrom (char : Char) : Scanning (Option Token) :=
  match singleKind? char with
  | some kind => token kind .absent
  | none =>
    match doubleKinds? char with
    | some (single, double) => do
      if ← accept '=' then token double .absent else token single .absent
    | none =>
      if char = '/' then slash
      else if char = '\n' then do
        newline
        return none
      else if isSpace char then return none
      else if char = '"' then quoted
      else if char.isDigit then numeral
      else if isWordStart char then word
      else do
        report (.unexpected char)
        return none

/-- One lexeme, and its token if it makes one. -/
def lexeme : Scanning (Option Token) := do
  let made ← lexemeFrom (← advance)
  modify fun c => { c with start := c.current }
  return made

/-- Lexemes to the end of the source, at most as many as the bound. -/
def tokensWithin : Nat → Scanning (List Token)
  | 0 => return []
  | bound + 1 => do
    if ← isAtEnd then return []
    else
      let made ← lexeme
      let more ← tokensWithin bound
      return made.toList ++ more

/-- **The tokens of a source.** -/
def tokens : Scanning (List Token) := do tokensWithin (← left)

end Scanning

/-! ## Where a cursor stands -/

/-- The cursor that has passed over the lexemes `passed` and has read `text` of the next one, with
`rest` ahead. -/
def Cursor.reading (passed text rest : List Char) (line : Nat) (errors : List ScanError) : Cursor :=
  ⟨passed ++ text ++ rest, passed.length, (passed ++ text).length, line, errors⟩

namespace Scanning

open Cursor

variable {passed text rest : List Char} {line : Nat} {errors : List ScanError} {char : Char}

theorem charAt?_natCast (c : Cursor) (n : Nat) : c.charAt? n = c.source[n]? := by
  simp [charAt?, fromStart]

theorem source_reading :
    (reading passed text rest line errors).source = (passed ++ text) ++ rest := rfl

/-- The character at some distance ahead. -/
theorem charAt?_reading (n : Nat) :
    (reading passed text rest line errors).charAt? ((passed ++ text).length + n : Nat) =
      rest[n]? := by
  rw [charAt?_natCast, source_reading, List.getElem?_append_right (Nat.le_add_right _ _),
    Nat.add_sub_cancel_left]

/-- The next character of a cursor is the first one of what is left. -/
theorem charAt?_current :
    (reading passed text rest line errors).charAt? (reading passed text rest line errors).current =
      rest.head? := by
  rw [List.head?_eq_getElem?]
  exact charAt?_reading 0

theorem peekAt_reading (n : Nat) :
    (reading passed text rest line errors).peekAt ((passed ++ text).length + n : Nat) =
      .ok (rest[n]?.getD '\x00') := by
  have hl : ((reading passed text rest line errors).source.length : Int) ≤
      ((passed ++ text).length + n : Nat) ↔ rest.length ≤ n := by
    rw [source_reading, List.length_append, Int.ofNat_le, Nat.add_le_add_iff_left]
  simp only [peekAt, charAt?_reading, hl]
  split
  · next h => rw [List.getElem?_eq_none h]; rfl
  · next h => rw [List.getElem?_eq_getElem (Nat.lt_of_not_le h)]; rfl

theorem moved_reading :
    { reading passed text (char :: rest) line errors with
        current := (reading passed text (char :: rest) line errors).current + 1 } =
      reading passed (text ++ [char]) rest line errors := by
  simp only [reading, List.append_assoc, List.singleton_append, List.length_append,
    List.length_singleton, Int.natCast_add, Int.natCast_one, Int.add_assoc]

/-- Moving on takes the next character off what is left. -/
theorem advance_reading :
    advance (reading passed text (char :: rest) line errors) =
      .ok char (reading passed (text ++ [char]) rest line errors) := by
  simp only [advance, Cursor.advance, charAt?_current, moved_reading, List.head?_cons]

/-- A cursor is at the end when nothing is left. -/
theorem atEnd_reading : (reading passed text rest line errors).atEnd = rest.isEmpty := by
  cases rest with
  | nil => exact decide_eq_true (by rw [source_reading, List.append_nil]; exact Int.le_refl _)
  | cons char rest =>
    refine decide_eq_false (Int.not_le.2 ?_)
    rw [source_reading, List.length_append]
    exact Int.ofNat_lt.2 (Nat.lt_add_of_pos_right (Nat.zero_lt_succ _))

theorem isAtEnd_reading :
    isAtEnd (reading passed text rest line errors) =
      .ok rest.isEmpty (reading passed text rest line errors) := by
  rw [isAtEnd, bind_of_ok (get_eq_ok_iff.2 ⟨rfl, rfl⟩), atEnd_reading]
  rfl

theorem accept_reading :
    accept char (reading passed text (char :: rest) line errors) =
      .ok true (reading passed (text ++ [char]) rest line errors) := by
  simp only [accept, Cursor.accept, atEnd_reading, charAt?_current, moved_reading]
  simp

/-- A character that does not come next is not taken. -/
theorem accept_reading_of_ne (h : rest.head? ≠ some char) :
    accept char (reading passed text rest line errors) =
      .ok false (reading passed text rest line errors) := by
  simp only [accept, Cursor.accept, atEnd_reading, charAt?_current]
  cases rest with
  | nil => rfl
  | cons c rest =>
    have hc : c ≠ char := by simpa using h
    have hs : String.singleton c ≠ String.singleton char := by
      rwa [ne_eq, ← String.toList_inj, String.toList_singleton, String.toList_singleton,
        List.singleton_inj]
    simp [hs]

theorem peek_reading :
    peek (reading passed text rest line errors) =
      .ok (rest[0]?.getD '\x00') (reading passed text rest line errors) := by
  have h : (reading passed text rest line errors).peek = _ := peekAt_reading 0
  simp only [peek, h]

theorem peekNext_reading :
    peekNext (reading passed text rest line errors) =
      .ok (rest[1]?.getD '\x00') (reading passed text rest line errors) := by
  have h : (reading passed text rest line errors).peekNext = _ := peekAt_reading 1
  simp only [peekNext, h]

theorem left_reading :
    left (reading passed text rest line errors) =
      .ok rest.length (reading passed text rest line errors) := by
  have hl : (((passed ++ text ++ rest).length : Int) - (passed ++ text).length).toNat =
      rest.length := by
    rw [List.length_append]
    omega
  exact congrArg (EStateM.Result.ok · _) hl

theorem between_natCast (c : Cursor) (first stop : Nat) :
    c.between first stop = (c.source.take stop).drop first := by
  simp [Cursor.between, fromStart]

/-- The text between the marks of a cursor is the text that it has read. -/
theorem lexeme_reading : (reading passed text rest line errors).lexeme = text := by
  change (reading passed text rest line errors).between passed.length (passed ++ text).length = _
  rw [between_natCast, source_reading, List.take_left, List.drop_left]

/-- The text between the first and the last character of a lexeme. -/
theorem inside_reading {first last : Char} :
    (reading passed (first :: (text ++ [last])) rest line errors).between
        ((reading passed (first :: (text ++ [last])) rest line errors).start + 1)
        ((reading passed (first :: (text ++ [last])) rest line errors).current - 1) = text := by
  have hs : (reading passed (first :: (text ++ [last])) rest line errors).start + 1 =
      ((passed ++ [first]).length : Nat) := by simp [reading]
  have hc : (reading passed (first :: (text ++ [last])) rest line errors).current - 1 =
      ((passed ++ [first] ++ text).length : Nat) := by
    simp [reading]
    omega
  have hx : passed ++ first :: (text ++ [last]) ++ rest =
      passed ++ [first] ++ text ++ (last :: rest) := by simp
  rw [hs, hc, between_natCast, source_reading, hx, List.take_left, List.drop_left]

theorem newline_reading :
    newline (reading passed text rest line errors) =
      .ok () (reading passed text rest (line + 1) errors) := rfl

/-- An error is reported on the line that the cursor is on. -/
theorem report_reading (fault : ScanFault) :
    report fault (reading passed text rest line errors) =
      .ok () (reading passed text rest line (errors ++ [⟨fault, line⟩])) := rfl

/-- A token is made from the text that was read, on the line that the cursor is on. -/
theorem token_reading (kind : TokenKind) (literal : Literal) :
    token kind literal (reading passed text rest line errors) =
      .ok (some ⟨kind, String.ofList text, literal, line⟩)
        (reading passed text rest line errors) := by
  rw [token, bind_of_ok (get_eq_ok_iff.2 ⟨rfl, rfl⟩), lexeme_reading]
  rfl

theorem pass_reading :
    pass (reading passed text (char :: rest) line errors) =
      .ok () (reading passed (text ++ [char]) rest line errors) := by
  rw [pass, bind_of_ok advance_reading]
  rfl

/-- Passing over a character counts the line that it ends, if it is a newline. -/
theorem passLine_reading :
    passLine (reading passed text (char :: rest) line errors) =
      .ok () (reading passed (text ++ [char]) rest (line + newlines [char]) errors) := by
  rw [passLine, bind_of_ok peek_reading]
  by_cases h : char = '\n'
  · subst h
    exact (bind_of_ok newline_reading).trans pass_reading
  · have hn : newlines [char] = 0 := by simp [newlines, h]
    rw [if_neg (by simpa using h), hn]
    exact pass_reading

/-! ## Loops -/

/-- The condition holds before each of the characters, and no more after them. -/
def Runs (ahead : List Char → Bool) : List Char → List Char → Prop
  | [], rest => ahead rest = false
  | char :: taken, rest => ahead (char :: taken ++ rest) = true ∧ Runs ahead taken rest

/-- A loop that looks at the next character takes the longest run of such characters. -/
theorem runs_takeWhile (q : Char → Bool) (chars : List Char) :
    Runs (·.head?.any q) (chars.takeWhile q) (chars.dropWhile q) := by
  induction chars with
  | nil => rfl
  | cons char chars ih =>
    by_cases h : q char = true
    · rw [List.takeWhile_cons_of_pos h, List.dropWhile_cons_of_pos h]
      exact ⟨by simpa using h, ih⟩
    · rw [List.takeWhile_cons_of_neg h, List.dropWhile_cons_of_neg h]
      simpa [Runs] using h

section

variable {more : Scanning Bool} {step : Scanning Unit} {ahead : List Char → Bool}
  {next : Nat → Char → Nat}

/-- **A loop** reads the characters for which its condition holds. -/
theorem repeatWhile_reading
    (hmore : ∀ text rest line, more (reading passed text rest line errors) =
      .ok (ahead rest) (reading passed text rest line errors))
    (hstep : ∀ text char rest line, step (reading passed text (char :: rest) line errors) =
      .ok () (reading passed (text ++ [char]) rest (next line char) errors))
    {taken : List Char} (hr : Runs ahead taken rest) {bound : Nat}
    (hb : (taken ++ rest).length ≤ bound) (text : List Char) (line : Nat) :
    repeatWhile more step bound (reading passed text (taken ++ rest) line errors) =
      .ok () (reading passed (text ++ taken) rest (taken.foldl next line) errors) := by
  induction taken generalizing text line bound with
  | nil =>
    rw [List.append_nil]
    cases bound with
    | zero => rfl
    | succ bound =>
      rw [repeatWhile, bind_of_ok (hmore _ _ _), List.nil_append, show ahead rest = false from hr]
      rfl
  | cons char taken ih =>
    obtain ⟨ha, hr⟩ := hr
    obtain ⟨bound, rfl⟩ := Nat.exists_eq_succ_of_ne_zero (n := bound) (by simp at hb; omega)
    rw [repeatWhile, bind_of_ok (hmore _ _ _), ha, if_pos rfl, List.cons_append,
      bind_of_ok (hstep _ _ _ _), ih hr (Nat.le_of_succ_le_succ hb)]
    simp

end

/-- A loop over the characters of a class. -/
theorem repeatWhile_pass {more : Scanning Bool} {q : Char → Bool}
    (hmore : ∀ text rest line, more (reading passed text rest line errors) =
      .ok (rest.head?.any q) (reading passed text rest line errors)) :
    repeatWhile more pass rest.length (reading passed text rest line errors) =
      .ok () (reading passed (text ++ rest.takeWhile q) (rest.dropWhile q) line errors) := by
  have hx := List.takeWhile_append_dropWhile (p := q) (l := rest)
  have hl := repeatWhile_reading hmore (fun _ _ _ _ => pass_reading) (runs_takeWhile q rest)
    (Nat.le_refl _) text line
  have hn : ∀ chars : List Char, chars.foldl (fun line _ => line) line = line := by
    intro chars
    induction chars with
    | nil => rfl
    | cons _ _ ih => exact ih
  rwa [hx, hn] at hl

/-- Counting newlines one by one comes to counting them all. -/
theorem foldl_newlines (chars : List Char) (line : Nat) :
    chars.foldl (fun line char => line + newlines [char]) line = line + newlines chars := by
  induction chars generalizing line with
  | nil => rfl
  | cons char chars ih =>
    rw [List.foldl_cons, ih, Nat.add_assoc]
    simp only [newlines, ← List.count_append, List.singleton_append]

/-- A loop that counts lines. -/
theorem repeatWhile_passLine {more : Scanning Bool} {ahead : List Char → Bool}
    (passed text : List Char) (line : Nat) (errors : List ScanError)
    (hmore : ∀ text rest line, more (reading passed text rest line errors) =
      .ok (ahead rest) (reading passed text rest line errors))
    {taken : List Char} (hr : Runs ahead taken rest) :
    repeatWhile more passLine (taken ++ rest).length
        (reading passed text (taken ++ rest) line errors) =
      .ok () (reading passed (text ++ taken) rest (line + newlines taken) errors) := by
  rw [← foldl_newlines]
  exact repeatWhile_reading hmore (fun _ _ _ _ => passLine_reading) hr (Nat.le_refl _) text line

/-! ## Lexemes -/

/-- A placed lexeme, from its first character and what is cut off after it. -/
def placedCut (line : Nat) (first : Char) (head : Cut) : Placed :=
  ⟨⟨head.shape, first :: head.taken⟩, line, line + newlines (first :: head.taken)⟩

/-- **A step reads the rest of a lexeme** as it is cut: it passes over what is cut off, makes the
token of the lexeme, and notes its fault. -/
def ReadsCut (x : Scanning (Option Token)) (first : Char) (head : Cut) : Prop :=
  ∀ passed line errors, x (reading passed [first] (head.taken ++ head.rest) line errors) =
    .ok (placedCut line first head).token?
      (reading passed (first :: head.taken) head.rest (placedCut line first head).lastLine
        (errors ++ (placedCut line first head).error?.toList))

/-- A condition on the next character, which does not hold past the end. -/
theorem peekIs_reading (q : Char → Bool) (hq : q '\x00' = false) :
    (do return q (← peek)) (reading passed text rest line errors) =
      .ok (rest.head?.any q) (reading passed text rest line errors) := by
  rw [bind_of_ok peek_reading]
  cases rest with
  | nil => simpa using hq
  | cons char rest => rfl

/-- The loop up to a stop character ends at the end of the source, too. -/
theorem peekOther_reading (stop : Char) :
    (do return (← peek) != stop && !(← isAtEnd)) (reading passed text rest line errors) =
      .ok (rest.head?.any (· != stop)) (reading passed text rest line errors) := by
  rw [bind_of_ok peek_reading, bind_of_ok isAtEnd_reading]
  cases rest with
  | nil => simp
  | cons char rest => simp

theorem add_newlines_eq {chars : List Char} (h : '\n' ∉ chars) (line : Nat) :
    line + newlines chars = line := by
  rw [newlines, List.count_eq_zero.2 h, Nat.add_zero]

section

variable {shape : Shape} {first : Char} {taken : List Char} {last : Nat}

/-- The token of a piece, if its class makes one. -/
theorem token?_placedCut {made : Option (TokenKind × Literal)}
    (hl : line + newlines (first :: taken) = last)
    (hs : shape.token? (first :: taken) taken.dropLast = made) :
    (placedCut line first ⟨shape, taken, rest⟩).token? =
      made.map fun made => ⟨made.1, String.ofList (first :: taken), made.2, last⟩ := by
  subst hl hs
  rfl

/-- A lexeme that has been read to its end and makes a token. -/
theorem token_reading_placed {kind : TokenKind} {literal : Literal}
    (hl : line + newlines (first :: taken) = last)
    (hs : shape.token? (first :: taken) taken.dropLast = some (kind, literal))
    (he : ∀ l m, shape.error? l m = none) :
    token kind literal (reading passed (first :: taken) rest last errors) =
      .ok (placedCut line first ⟨shape, taken, rest⟩).token?
        (reading passed (first :: taken) rest (placedCut line first ⟨shape, taken, rest⟩).lastLine
          (errors ++ (placedCut line first ⟨shape, taken, rest⟩).error?.toList)) := by
  have hx : (placedCut line first ⟨shape, taken, rest⟩).error? = none := he _ _
  rw [token_reading, token?_placedCut hl hs, hx, Option.toList_none, List.append_nil, ← hl]
  rfl

/-- One that makes none. -/
theorem skip_reading_placed (hl : line + newlines (first :: taken) = last)
    (hs : shape.token? (first :: taken) taken.dropLast = none)
    (he : ∀ l m, shape.error? l m = none) :
    (return none : Scanning (Option Token)) (reading passed (first :: taken) rest last errors) =
      .ok (placedCut line first ⟨shape, taken, rest⟩).token?
        (reading passed (first :: taken) rest (placedCut line first ⟨shape, taken, rest⟩).lastLine
          (errors ++ (placedCut line first ⟨shape, taken, rest⟩).error?.toList)) := by
  have hx : (placedCut line first ⟨shape, taken, rest⟩).error? = none := he _ _
  rw [token?_placedCut hl hs, hx, Option.toList_none, List.append_nil, ← hl]
  rfl

/-- One that is a fault. -/
theorem report_reading_placed {fault : ScanFault} (hl : line + newlines (first :: taken) = last)
    (hs : shape.token? (first :: taken) taken.dropLast = none)
    (he : ∀ m, shape.error? line m = some ⟨fault, m⟩) :
    (do report fault; return none : Scanning (Option Token))
        (reading passed (first :: taken) rest last errors) =
      .ok (placedCut line first ⟨shape, taken, rest⟩).token?
        (reading passed (first :: taken) rest (placedCut line first ⟨shape, taken, rest⟩).lastLine
          (errors ++ (placedCut line first ⟨shape, taken, rest⟩).error?.toList)) := by
  have hx : (placedCut line first ⟨shape, taken, rest⟩).error? = some ⟨fault, _⟩ := he _
  rw [bind_of_ok (report_reading fault), token?_placedCut hl hs, hx, ← hl]
  rfl

end

theorem single_readsCut {first : Char} {kind : TokenKind} (h : singleKind? first = some kind)
    (chars : List Char) : ReadsCut (token kind .absent) first ⟨.symbol kind, [], chars⟩ := by
  have hn : '\n' ∉ [first] := by
    rintro (_ | ⟨_, ⟨⟩⟩)
    cases h
  exact fun _ line _ => token_reading_placed (add_newlines_eq hn line) rfl fun _ _ => rfl

section

variable {first : Char} {single double : TokenKind}

/-- A symbol with an equals sign behind it is read as one symbol. -/
theorem double_readsCut (h : doubleKinds? first = some (single, double)) (chars : List Char) :
    ReadsCut (do if ← accept '=' then token double .absent else token single .absent) first
      ⟨.symbol double, ['='], chars⟩ := by
  have hn : first ≠ '\n' := by
    rintro rfl
    cases h
  intro passed line errors
  rw [List.singleton_append, bind_of_ok accept_reading]
  exact token_reading_placed (add_newlines_eq (by simp [hn.symm]) line) rfl fun _ _ => rfl

/-- A symbol without an equals sign behind it stands alone. -/
theorem alone_readsCut (h : doubleKinds? first = some (single, double)) {chars : List Char}
    (hc : chars.head? ≠ some '=') :
    ReadsCut (do if ← accept '=' then token double .absent else token single .absent) first
      ⟨.symbol single, [], chars⟩ := by
  have hn : first ≠ '\n' := by
    rintro rfl
    cases h
  intro passed line errors
  rw [List.nil_append, bind_of_ok (accept_reading_of_ne hc)]
  exact token_reading_placed (add_newlines_eq (by simp [hn.symm]) line) rfl fun _ _ => rfl

end

theorem newline_not_mem_takeWhile {q : Char → Bool} (hq : q '\n' = false) (chars : List Char) :
    '\n' ∉ chars.takeWhile q := by
  intro h
  have := List.all_eq_true.1 List.all_takeWhile _ h
  simp [hq] at this

/-- A word is read to the last character that may be in one. -/
theorem word_readsCut {first : Char} (hf : first ≠ '\n') (chars : List Char) :
    ReadsCut word first ⟨.word, chars.takeWhile isWordPart, chars.dropWhile isWordPart⟩ := by
  intro passed line errors
  rw [List.takeWhile_append_dropWhile, word, bind_of_ok left_reading,
    bind_of_ok (repeatWhile_pass fun _ _ _ => peekIs_reading _ (by decide)),
    bind_of_ok (get_eq_ok_iff.2 ⟨rfl, rfl⟩), lexeme_reading]
  refine token_reading_placed (add_newlines_eq ?_ line) rfl fun _ _ => rfl
  exact fun h => (List.mem_cons.1 h).elim hf.symm (newline_not_mem_takeWhile (by decide) chars)

theorem digits_reading :
    digits (reading passed text rest line errors) =
      .ok () (reading passed (text ++ rest.takeWhile Char.isDigit) (rest.dropWhile Char.isDigit)
        line errors) := by
  rw [digits, bind_of_ok left_reading, repeatWhile_pass fun _ _ _ => peekIs_reading _ (by decide)]

/-- A fraction is read if a digit comes after the point, and left otherwise. -/
theorem fraction_reading :
    fraction (reading passed text rest line errors) =
      .ok () (reading passed (text ++ (splitFraction rest).1) (splitFraction rest).2 line
        errors) := by
  rw [fraction, bind_of_ok peek_reading, bind_of_ok peekNext_reading]
  fun_cases splitFraction rest with
  | case1 digit rest hd =>
    rw [if_pos (by simpa using hd), bind_of_ok pass_reading, digits_reading]
    simp [hd]
  | case2 digit rest hd =>
    rw [if_neg (by simpa using hd), List.append_nil]
    rfl
  | case3 rest hr =>
    have hn : ¬ (rest[0]?.getD '\x00' == '.' && (rest[1]?.getD '\x00').isDigit) = true := by
      rcases rest with _ | ⟨c, _ | ⟨digit, rest⟩⟩
      · decide
      · simp
      · have hc : c ≠ '.' := fun h => hr digit rest (h ▸ rfl)
        simp [hc]
    rw [if_neg hn, List.append_nil]
    rfl

/-- A fraction is empty, or a point with digits behind it. -/
theorem splitFraction_fst (chars : List Char) :
    (splitFraction chars).1 = [] ∨
      ∃ ds, (splitFraction chars).1 = '.' :: ds ∧ ∀ c ∈ ds, c.isDigit = true := by
  fun_cases splitFraction chars with
  | case1 digit rest hd =>
    refine .inr ⟨_, rfl, fun c hc => ?_⟩
    rcases List.mem_cons.1 hc with rfl | hc
    · exact hd
    · exact List.all_eq_true.1 List.all_takeWhile _ hc
  | case2 | case3 => exact .inl rfl

/-- A number is read with its fraction, if it has one. -/
theorem numeral_readsCut {first : Char} (hf : first.isDigit = true) (chars : List Char) :
    ReadsCut numeral first (cutNumeral chars) := by
  intro passed line errors
  have hw : ∀ c ∈ first :: chars.takeWhile Char.isDigit, c.isDigit = true := by
    intro c hc
    rcases List.mem_cons.1 hc with rfl | hc
    · exact hf
    · exact List.all_eq_true.1 List.all_takeWhile _ hc
  have hs := splitFraction_fst (chars.dropWhile Char.isDigit)
  obtain ⟨value, hv⟩ := Number.exists_read_numeral (List.cons_ne_nil _ _) hw hs
  rw [List.cons_append] at hv
  rw [cutNumeral_append, numeral, bind_of_ok digits_reading, bind_of_ok fraction_reading,
    bind_of_ok (get_eq_ok_iff.2 ⟨rfl, rfl⟩), lexeme_reading, List.append_assoc,
    List.singleton_append, hv]
  refine token_reading_placed (add_newlines_eq ?_ line) (by rw [Shape.token?, hv]; rfl)
    fun _ _ => rfl
  rw [← List.cons_append]
  intro hn
  rcases List.mem_append.1 hn with hn | hn
  · exact absurd (hw _ hn) (by decide)
  · rcases hs with he | ⟨ds, he, hd⟩ <;> rw [he] at hn
    · cases hn
    · rcases List.mem_cons.1 hn with hn | hn
      · exact absurd hn (by decide)
      · exact absurd (hd _ hn) (by decide)

/-- A string is read to its closing quote, or reported where the source ends. -/
theorem quoted_readsCut (chars : List Char) : ReadsCut quoted '"' (cutQuoted chars) := by
  intro passed line errors
  have hx := List.takeWhile_append_dropWhile (p := (· != '"')) (l := chars)
  have hq := runs_takeWhile (· != '"') chars
  have hl := repeatWhile_passLine passed ['"'] line errors (fun _ _ _ => peekOther_reading '"') hq
  rw [hx] at hl
  rw [cutQuoted_append, quoted, bind_of_ok (get_eq_ok_iff.2 ⟨rfl, rfl⟩), bind_of_ok left_reading,
    bind_of_ok hl, bind_of_ok isAtEnd_reading]
  generalize hb : chars.takeWhile (· != '"') = body at hx hl ⊢
  cases hd : chars.dropWhile (· != '"') with
  | nil =>
    have hc : cutQuoted chars = ⟨.openQuote, body, []⟩ := by simp [cutQuoted, hb, hd]
    have hn : newlines ('"' :: body) = newlines body := by simp [newlines]
    rw [if_pos List.isEmpty_nil, hc]
    exact report_reading_placed (congrArg _ hn) rfl fun _ => rfl
  | cons quote rest =>
    have hc : cutQuoted chars = ⟨.quoted, body ++ [quote], rest⟩ := by simp [cutQuoted, hb, hd]
    have hn : quote = '"' := by
      have := List.head?_dropWhile_not (· != '"') chars
      simpa [hd] using this
    subst hn
    rw [if_neg (by simp), bind_of_ok pass_reading, bind_of_ok (get_eq_ok_iff.2 ⟨rfl, rfl⟩), hc,
      List.singleton_append, List.cons_append, inside_reading]
    have hb : newlines ('"' :: (body ++ ['"'])) = newlines body := by simp [newlines]
    refine token_reading_placed (congrArg _ hb) ?_ fun _ _ => rfl
    rw [Shape.token?, List.dropLast_concat]

/-- Whether the comment goes on: it is not closed here, and the source has not ended. -/
def goesOn (chars : List Char) : Bool :=
  !(chars[0]?.getD '\x00' == '*' && chars[1]?.getD '\x00' == '/') && !chars.isEmpty

theorem goesOn_reading :
    (do return !((← peek) == '*' && (← peekNext) == '/') && !(← isAtEnd))
        (reading passed text rest line errors) =
      .ok (goesOn rest) (reading passed text rest line errors) := by
  rw [bind_of_ok peek_reading, bind_of_ok peekNext_reading, bind_of_ok isAtEnd_reading]
  rfl

/-- A comment goes on after every character that does not close it. -/
theorem goesOn_cons {char : Char} {chars : List Char}
    (h : ∀ rest, char = '*' → chars = '/' :: rest → False) : goesOn (char :: chars) = true := by
  unfold goesOn
  by_cases hc : char = '*'
  · cases chars with
    | nil => simp
    | cons next chars =>
      have hn : next ≠ '/' := fun hn => h chars hc (hn ▸ rfl)
      simp [hn]
  · simp [hc]

/-- The loop of a comment stops before the characters that close it. -/
theorem runs_closed {chars body rest : List Char} (h : splitClose? chars = some (body, rest)) :
    ∃ inner, body = inner ++ ['*', '/'] ∧ Runs goesOn inner ('*' :: '/' :: rest) := by
  fun_induction splitClose? chars generalizing body with
  | case1 => cases h
  | case2 more =>
    cases h
    exact ⟨[], rfl, rfl⟩
  | case3 c more hc ih =>
    obtain ⟨⟨b, r⟩, hb, hr⟩ := Option.map_eq_some_iff.1 h
    cases hr
    obtain ⟨inner, rfl, hi⟩ := ih hb
    have hm := splitClose?_append hb
    rw [List.append_assoc] at hm
    refine ⟨c :: inner, rfl, ?_, hi⟩
    rw [List.cons_append]
    exact goesOn_cons (hm ▸ hc)

/-- The loop of a comment that is not closed runs to the end of the source. -/
theorem runs_open {chars : List Char} (h : splitClose? chars = none) : Runs goesOn chars [] := by
  fun_induction splitClose? chars with
  | case1 => rfl
  | case2 => cases h
  | case3 c more hc ih =>
    refine ⟨?_, ih (Option.map_eq_none_iff.1 h)⟩
    rw [List.append_nil]
    exact goesOn_cons hc

/-- A slash is a symbol, or begins a comment of one of two forms. -/
theorem slash_readsCut (chars : List Char) : ReadsCut slash '/' (cutSlash chars) := by
  intro passed line errors
  rw [cutSlash_append, slash, bind_of_ok (get_eq_ok_iff.2 ⟨rfl, rfl⟩)]
  fun_cases cutSlash chars with
  | case1 rest =>
    rw [bind_of_ok accept_reading, if_pos rfl, bind_of_ok left_reading,
      bind_of_ok (repeatWhile_pass fun _ _ _ => peekOther_reading '\n')]
    have hn : '\n' ∉ '/' :: '/' :: rest.takeWhile (· != '\n') := by
      simpa using newline_not_mem_takeWhile (by decide) rest
    exact skip_reading_placed (add_newlines_eq hn line) rfl fun _ _ => rfl
  | case2 rest body more h =>
    obtain ⟨inner, rfl, hi⟩ := runs_closed h
    obtain rfl : inner ++ '*' :: '/' :: more = rest := by simpa using splitClose?_append h
    rw [bind_of_ok (accept_reading_of_ne (by simp)), if_neg Bool.false_ne_true,
      bind_of_ok accept_reading, if_pos rfl, bind_of_ok left_reading,
      bind_of_ok (repeatWhile_passLine _ _ _ _ (fun _ _ _ => goesOn_reading) hi),
      bind_of_ok isAtEnd_reading, if_neg (by simp), bind_of_ok pass_reading,
      bind_of_ok pass_reading]
    have hn : newlines ('/' :: '*' :: (inner ++ ['*', '/'])) = newlines inner := by
      simp [newlines]
    have ht : ['/'] ++ ['*'] ++ inner ++ ['*'] ++ ['/'] =
        '/' :: '*' :: (inner ++ ['*', '/']) := by simp
    rw [ht]
    exact skip_reading_placed (congrArg _ hn) rfl fun _ _ => rfl
  | case3 rest h =>
    have hl := repeatWhile_passLine passed ['/', '*'] line errors (fun _ _ _ => goesOn_reading)
      (runs_open h)
    rw [List.append_nil] at hl
    rw [bind_of_ok (accept_reading_of_ne (by simp)), if_neg Bool.false_ne_true,
      bind_of_ok accept_reading, if_pos rfl, bind_of_ok left_reading, List.singleton_append,
      bind_of_ok hl, bind_of_ok isAtEnd_reading, if_pos List.isEmpty_nil]
    have hn : newlines ('/' :: '*' :: rest) = newlines rest := by simp [newlines]
    exact report_reading_placed (congrArg _ hn) rfl fun _ => rfl
  | case4 chars h1 h2 =>
    have hs : chars.head? ≠ some '/' := fun h => by
      obtain ⟨rest, rfl⟩ := List.head?_eq_some_iff.1 h
      exact h1 rest rfl
    have ha : chars.head? ≠ some '*' := fun h => by
      obtain ⟨rest, rfl⟩ := List.head?_eq_some_iff.1 h
      exact h2 rest rfl
    rw [bind_of_ok (accept_reading_of_ne hs), if_neg Bool.false_ne_true,
      bind_of_ok (accept_reading_of_ne ha), if_neg Bool.false_ne_true]
    exact token_reading_placed rfl rfl fun _ _ => rfl

theorem blank_readsCut {first : Char} (hf : first ≠ '\n') (chars : List Char) :
    ReadsCut (return none) first ⟨.blank, [], chars⟩ := fun _ line _ =>
  skip_reading_placed (add_newlines_eq (by simpa using hf.symm) line) rfl fun _ _ => rfl

theorem newline_readsCut (chars : List Char) :
    ReadsCut (do newline; return none) '\n' ⟨.newline, [], chars⟩ := by
  intro passed line errors
  rw [bind_of_ok newline_reading]
  exact skip_reading_placed rfl rfl fun _ _ => rfl

/-- A character that begins no lexeme is reported. -/
theorem unexpected_readsCut {first : Char} (hf : first ≠ '\n') (chars : List Char) :
    ReadsCut (do report (.unexpected first); return none) first
      ⟨.unexpected first, [], chars⟩ := fun _ line _ =>
  report_reading_placed (add_newlines_eq (by simpa using hf.symm) line) rfl fun _ => rfl

/-- **A lexeme is read as it is cut**, whatever its class. -/
theorem lexemeFrom_readsCut (first : Char) (chars : List Char) :
    ReadsCut (lexemeFrom first) first (cut first chars) := by
  cases hs : singleKind? first with
  | some kind =>
    simp only [lexemeFrom, cut, hs]
    exact single_readsCut hs chars
  | none =>
    cases hd : doubleKinds? first with
    | some kinds =>
      simp only [lexemeFrom, cut, hs, hd]
      split
      · exact double_readsCut hd _
      · next hc =>
        refine alone_readsCut hd fun h => ?_
        obtain ⟨rest, rfl⟩ := List.head?_eq_some_iff.1 h
        exact hc rest rfl
    | none =>
      simp only [lexemeFrom, cut, hs, hd]
      by_cases h1 : first = '/'
      · subst h1
        exact slash_readsCut chars
      rw [if_neg h1, if_neg h1]
      by_cases h2 : first = '\n'
      · subst h2
        exact newline_readsCut chars
      rw [if_neg h2, if_neg h2]
      by_cases h3 : isSpace first = true
      · rw [if_pos h3, if_pos h3]
        exact blank_readsCut h2 chars
      rw [if_neg h3, if_neg h3]
      by_cases h4 : first = '"'
      · subst h4
        exact quoted_readsCut chars
      rw [if_neg h4, if_neg h4]
      by_cases h5 : first.isDigit = true
      · rw [if_pos h5, if_pos h5]
        exact numeral_readsCut h5 chars
      rw [if_neg h5, if_neg h5]
      by_cases h6 : isWordStart first = true
      · rw [if_pos h6, if_pos h6]
        exact word_readsCut h2 chars
      rw [if_neg h6, if_neg h6]
      exact unexpected_readsCut h2 chars

/-- **One step of the scanner reads the piece that is cut off there**, with its token, its lines and
its errors. -/
theorem lexeme_reading_cut (first : Char) (chars : List Char) :
    lexeme (reading passed [] (first :: chars) line errors) =
      .ok (placedCut line first (cut first chars)).token?
        (reading (passed ++ first :: (cut first chars).taken) [] (cut first chars).rest
          (placedCut line first (cut first chars)).lastLine
          (errors ++ (placedCut line first (cut first chars)).error?.toList)) := by
  have hr := lexemeFrom_readsCut first chars passed line errors
  rw [cut_append] at hr
  rw [lexeme, bind_of_ok advance_reading, List.nil_append, bind_of_ok hr,
    bind_of_ok (modify_eq_ok_iff (u := ⟨⟩).2 rfl)]
  simp [reading]

theorem filterMap_cons_toList {α β : Type} (f : α → Option β) (a : α) (as : List α) :
    (a :: as).filterMap f = (f a).toList ++ as.filterMap f := by
  cases h : f a <;> simp [h]

/-- **Lexeme after lexeme** to the end of the source. -/
theorem tokensWithin_reading {chars : List Char} {bound : Nat} (hb : chars.length ≤ bound) :
    tokensWithin bound (reading passed [] chars line errors) =
      .ok ((place line (lexemes chars)).filterMap Placed.token?)
        (reading (passed ++ chars) [] [] (line + newlines chars)
          (errors ++ (place line (lexemes chars)).filterMap Placed.error?)) := by
  induction bound generalizing passed chars line errors with
  | zero =>
    obtain rfl : chars = [] := List.length_eq_zero_iff.1 (Nat.le_zero.1 hb)
    simp [tokensWithin, place, newlines]
  | succ bound ih =>
    rw [tokensWithin, bind_of_ok isAtEnd_reading]
    cases chars with
    | nil =>
      rw [if_pos List.isEmpty_nil]
      simp [place, newlines]
    | cons first chars =>
      have hl := length_cut_rest_le first chars
      rw [if_neg (by simp), bind_of_ok (lexeme_reading_cut first chars),
        bind_of_ok (ih (by simp at hb; omega)), lexemes_cons, place, filterMap_cons_toList,
        filterMap_cons_toList, ← List.append_assoc]
      have hx : first :: chars = first :: (cut first chars).taken ++ (cut first chars).rest := by
        rw [List.cons_append, cut_append]
      have hn : line + newlines (first :: chars) =
          line + newlines (first :: (cut first chars).taken) + newlines (cut first chars).rest := by
        rw [hx, newlines, List.count_append, Nat.add_assoc]
        rfl
      have hp : passed ++ first :: chars =
          passed ++ first :: (cut first chars).taken ++ (cut first chars).rest := by
        rw [List.append_assoc, ← hx]
      rw [hn, hp]
      rfl

/-- **A source is scanned to its end**, character by character, to the tokens and the faults of its
lexemes. -/
theorem tokens_ofSource (source : String) :
    tokens (Cursor.ofSource source) =
      .ok (scan source).tokens (reading source.toList [] [] (1 + newlines source.toList)
        (scan source).errors) := by
  have hs : Cursor.ofSource source = reading [] [] source.toList 1 [] := by
    simp [Cursor.ofSource, reading]
  rw [tokens, hs, bind_of_ok left_reading, tokensWithin_reading (Nat.le_refl _)]
  rfl

end Scanning

end ScopedScript

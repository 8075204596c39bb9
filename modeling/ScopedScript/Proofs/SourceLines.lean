import Mathlib.Data.List.DropRight
import ScopedScript.Proofs.Scan.Places
import ScopedScript.Reporter

/-!
# The line shown beside a report

The scanner counts lines by their newlines.  A reporter cuts the source at every line break of the
character set, and so counts more lines than the scanner does where another line break stands in a
string, in a comment or between tokens.  Only a carriage return at the end of a line makes no
difference.  So the line of a token is kept further down than the token says, by as many lines as
there are such stray breaks above it, and it is cut off where the first stray break stands in it.

## Main definitions

* `lineAround`, `textAbove`: the line that a character is on, and the text above that line.
* `strayBreaks`: the line breaks of a text that do not end a line of the scanner's.
* `IsUpToReturn`: a shown line is all of a line but for a carriage return at its end.

## Main results

* `length_splitLines`: how many lines a reporter keeps of a text.
* `splitLines_append`: they are cut line by line.
* `shown_line_is_line_of_token`: which line is shown for a token, and when it is the token's own.
-/

namespace ScopedScript

open Text

/-! ## Lines by their newlines -/

/-- The text above the line that the character at a position is on. -/
def textAbove (chars : List Char) (position : Nat) : List Char :=
  (chars.take position).rdropWhile (· != '\n')

/-- **The line that the character at a position is on**: the text from the newline before that
character, or from the beginning, to the next newline, or to the end. -/
def lineAround (chars : List Char) (position : Nat) : List Char :=
  (chars.drop (textAbove chars position).length).takeWhile (· != '\n')

/-- The text is empty or ends with a newline. -/
def EndsLine (chars : List Char) : Prop := ∀ c ∈ chars.getLast?, c = '\n'

section Position

variable (chars : List Char) (position : Nat)

theorem endsLine_textAbove : EndsLine (textAbove chars position) := by
  intro c hc
  obtain ⟨hne, rfl⟩ := List.mem_getLast?_eq_getLast hc
  exact not_not.1 (mt bne_iff_ne.2 (List.rdropWhile_last_not _ _ hne))

theorem textAbove_append :
    textAbove chars position ++ chars.drop (textAbove chars position).length = chars := by
  have hprefix : textAbove chars position <+: chars :=
    (List.rdropWhile_prefix _ _).trans (List.take_prefix _ _)
  exact List.prefix_iff_eq_append.1 hprefix

/-- What stands on the line before a character has no newline. -/
theorem take_eq_textAbove_append : ∃ begun, '\n' ∉ begun ∧
    chars.take position = textAbove chars position ++ begun := by
  refine ⟨(chars.take position).rtakeWhile (· != '\n'), fun hn => ?_,
    (List.rdropWhile_append_rtakeWhile ..).symm⟩
  exact absurd (List.mem_rtakeWhile_imp hn) (by decide)

theorem lineOf_eq : lineOf chars position = 1 + newlines (textAbove chars position) := by
  obtain ⟨begun, hn, htake⟩ := take_eq_textAbove_append chars position
  rw [lineOf, htake, newlines, newlines, List.count_append, List.count_eq_zero.2 hn, Nat.add_zero]

theorem newline_not_mem_lineAround : '\n' ∉ lineAround chars position := fun hn =>
  absurd (List.all_eq_true.1 List.all_takeWhile _ hn) (by decide)

variable {chars position}

/-- A character that is no newline is on a line, which is not empty. -/
theorem drop_textAbove_ne_nil {c : Char} (h : chars[position]? = some c) :
    chars.drop (textAbove chars position).length ≠ [] := by
  obtain ⟨hlt, -⟩ := List.getElem?_eq_some_iff.1 h
  obtain ⟨begun, -, htake⟩ := take_eq_textAbove_append chars position
  have hlength := congrArg List.length htake
  simp only [List.length_take, List.length_append] at hlength
  intro hnil
  have := List.drop_eq_nil_iff.1 hnil
  omega

end Position

/-! ## Lines as they are shown -/

/-- Whether a character that `rest` follows is a line break within a line: no newline ends the
line there, and it is no carriage return at the line's end. -/
def isStray (c : Char) (rest : List Char) : Bool :=
  isLineBreak c && c != '\n' && !(c == '\r' && rest.head?.all (· == '\n'))

/-- **How many stray breaks a text has.** -/
def strayBreaks : List Char → Nat
  | [] => 0
  | c :: rest => (isStray c rest).toNat + strayBreaks rest

theorem EndsLine.tail {c : Char} {chars : List Char} (h : EndsLine (c :: chars)) :
    EndsLine chars := by
  intro d hd
  refine h d ?_
  cases chars with
  | nil => cases hd
  | cons _ _ => rwa [List.getLast?_cons_cons]

/-- A character other than a newline is not the last. -/
theorem EndsLine.exists_cons {c : Char} {chars : List Char} (h : EndsLine (c :: chars))
    (hc : c ≠ '\n') : ∃ d rest, chars = d :: rest := by
  cases chars with
  | nil => exact absurd (h c rfl) hc
  | cons d rest => exact ⟨d, rest, rfl⟩

theorem ne_newline {c : Char} (h : ¬ isLineBreak c = true) : c ≠ '\n' := by
  rintro rfl
  exact h (by decide)

theorem splitLines_of_isLineBreak {c : Char} {chars : List Char} (hc : isLineBreak c = true)
    (h : ∀ rest, c = '\r' → chars = '\n' :: rest → False) :
    splitLines (c :: chars) = [] :: splitLines chars := by
  rw [splitLines, if_pos hc]
  exact h

theorem splitLines_of_not_isLineBreak {c : Char} (chars : List Char) (hc : isLineBreak c = false) :
    splitLines (c :: chars) =
      (c :: (splitLines chars).headD []) :: (splitLines chars).tail := by
  rw [splitLines, hc]
  · cases splitLines chars <;> rfl
  · rintro rest rfl
    exact absurd hc (by decide)

/-- **The first line that is shown** goes up to the first line break. -/
theorem head?_splitLines {chars : List Char} (h : chars ≠ []) :
    (splitLines chars).head? = some (chars.takeWhile (!isLineBreak ·)) := by
  fun_induction splitLines chars with
  | case1 => exact absurd rfl h
  | case2 rest ih => rfl
  | case3 c rest hpattern hc ih => simp [hc]
  | case4 c rest hpattern hc hrest ih =>
    have hnil : rest = [] := by
      by_contra hne
      simpa [hrest] using ih hne
    simp [hnil, hc]
  | case5 c rest hpattern hc line lines hrest ih =>
    have hne : rest ≠ [] := by
      rintro rfl
      cases hrest
    rw [hrest] at ih
    have hline := Option.some.inj (ih hne)
    simp [hc, ← hline]

theorem splitLines_ne_nil {chars : List Char} (h : chars ≠ []) : splitLines chars ≠ [] := by
  intro hnil
  have := head?_splitLines h
  simp [hnil] at this

/-- **Lines are shown line by line**: what comes after a newline is cut by itself. -/
theorem splitLines_append {above : List Char} (h : EndsLine above) (chars : List Char) :
    splitLines (above ++ chars) = splitLines above ++ splitLines chars := by
  fun_induction splitLines above with
  | case1 => rfl
  | case2 rest ih => simp [splitLines, ih h.tail.tail]
  | case3 c rest hpattern hc ih =>
    rw [List.cons_append, splitLines_of_isLineBreak hc, ih h.tail, List.cons_append]
    -- a carriage return is not the last character, so it is not before a newline here either
    rintro after rfl hafter
    obtain ⟨d, rest, rfl⟩ := h.exists_cons (by decide)
    obtain ⟨rfl, -⟩ := List.cons.inj hafter
    exact hpattern rest rfl rfl
  | case4 c rest hpattern hc hrest ih =>
    obtain ⟨d, rest, rfl⟩ := h.exists_cons (ne_newline hc)
    exact absurd hrest (splitLines_ne_nil (List.cons_ne_nil _ _))
  | case5 c rest hpattern hc line lines hrest ih =>
    rw [List.cons_append, splitLines_of_not_isLineBreak _ (by simpa using hc), ih h.tail, hrest]
    rfl

theorem splitLines_around (chars : List Char) (position : Nat) :
    splitLines chars = splitLines (textAbove chars position) ++
      splitLines (chars.drop (textAbove chars position).length) := by
  rw [← splitLines_append (endsLine_textAbove chars position), textAbove_append]

/-- **How many lines are shown of a text that ends with a newline**: one for each newline and each
stray break. -/
theorem length_splitLines {above : List Char} (h : EndsLine above) :
    (splitLines above).length = newlines above + strayBreaks above := by
  fun_induction splitLines above with
  | case1 => rfl
  | case2 rest ih =>
    have hr : isStray '\r' ('\n' :: rest) = false := rfl
    have hn : isStray '\n' rest = false := rfl
    simp only [List.length_cons, ih h.tail.tail, newlines, strayBreaks, hr, hn, List.count_cons,
      BEq.rfl, Char.reduceBEq, Bool.false_eq_true, if_true, if_false, Bool.toNat_false]
    omega
  | case3 c rest hpattern hc ih =>
    simp only [List.length_cons, ih h.tail, newlines, strayBreaks, List.count_cons]
    by_cases hcn : c = '\n'
    · have hn : isStray '\n' rest = false := rfl
      simp only [hcn, hn, BEq.rfl, if_true, Bool.toNat_false]
      omega
    · obtain ⟨d, rest, rfl⟩ := h.exists_cons hcn
      have hs : isStray c (d :: rest) = true := by
        simp only [isStray, hc, bne_iff_ne.2 hcn, Bool.true_and, List.head?_cons, Option.all_some,
          Bool.not_eq_true', Bool.and_eq_false_iff, beq_eq_false_iff_ne]
        by_contra hnot
        simp only [not_or, not_not] at hnot
        exact hpattern rest hnot.1 (by rw [hnot.2])
      simp only [beq_iff_eq, hcn, hs, if_false, Bool.toNat_true]
      omega
  | case4 c rest hpattern hc hrest ih =>
    obtain ⟨d, rest, rfl⟩ := h.exists_cons (ne_newline hc)
    exact absurd hrest (splitLines_ne_nil (List.cons_ne_nil _ _))
  | case5 c rest hpattern hc line lines hrest ih =>
    have hcn := ne_newline hc
    have hs : isStray c rest = false := by simp [isStray, hc]
    have hlength := ih h.tail
    rw [hrest] at hlength
    simp only [newlines, strayBreaks, hs, List.count_cons] at hlength ⊢
    simpa [hcn] using hlength

theorem takeWhile_takeWhile_newline (chars : List Char) :
    (chars.takeWhile (· != '\n')).takeWhile (!isLineBreak ·) =
      chars.takeWhile (!isLineBreak ·) := by
  rw [List.takeWhile_takeWhile]
  refine congrArg (List.takeWhile · chars) (funext fun c => ?_)
  by_cases hc : c = '\n'
  · subst hc
    decide
  · simp [hc]

/-! ## The line of a token -/

/-- **A shown line is this line**, but for a carriage return at its end. -/
def IsUpToReturn (shown : String) (line : List Char) : Prop :=
  shown.toList = line ∨ shown.toList ++ ['\r'] = line

instance (shown : String) (line : List Char) : Decidable (IsUpToReturn shown line) :=
  inferInstanceAs (Decidable (_ ∨ _))

/-- A line is shown as it is if it has no stray breaks. -/
theorem strayBreaks_eq_zero_iff {line : List Char} (h : '\n' ∉ line) :
    strayBreaks line = 0 ↔ IsUpToReturn (String.ofList (line.takeWhile (!isLineBreak ·))) line := by
  simp only [IsUpToReturn, String.toList_ofList]
  induction line with
  | nil => simp [strayBreaks]
  | cons c rest ih =>
    obtain ⟨hc, hrest⟩ := not_or.1 (mt List.mem_cons.2 h)
    cases hb : isLineBreak c with
    | false =>
      have hs : isStray c rest = false := by simp [isStray, hb]
      simp [strayBreaks, hs, hb, ih hrest]
    | true =>
      cases rest with
      | nil =>
        by_cases hr : c = '\r'
        · simp [strayBreaks, isStray, hr, isLineBreak]
        · simp [strayBreaks, isStray, hb, hr, Ne.symm hc, Ne.symm hr]
      | cons d rest =>
        have hd : d ≠ '\n' := fun he => hrest (he ▸ List.mem_cons_self)
        have hs : isStray c (d :: rest) = true := by simp [isStray, hb, hd, Ne.symm hc]
        simp [strayBreaks, hs, hb]

namespace Reporter

variable (reporter : Reporter) (path : Option String) {source : String} {position : Nat}

theorem sourceLine?_register (k : Nat) :
    (reporter.register path source).sourceLine? (1 + k) =
      (splitLines source.toList)[k]?.map String.ofList := by
  have hindex : ((1 : Int) + k).toNat - 1 = k := by omega
  rw [sourceLine?, if_pos (by omega), hindex]
  exact List.getElem?_map ..

/-- **Where a line is kept**: further down than the newlines above it say, by the number of stray
breaks above it.  It is shown up to the first line break. -/
theorem sourceLine?_lineOf {c : Char} (h : source.toList[position]? = some c) :
    (reporter.register path source).sourceLine?
        (lineOf source.toList position + strayBreaks (textAbove source.toList position)) =
      some (String.ofList ((lineAround source.toList position).takeWhile (!isLineBreak ·))) := by
  have hends := endsLine_textAbove source.toList position
  have hline : (lineOf source.toList position + strayBreaks (textAbove source.toList position) :
      Int) = 1 + (splitLines (textAbove source.toList position)).length := by
    rw [lineOf_eq, length_splitLines hends]
    omega
  have hfirst : (splitLines source.toList)[(splitLines
      (textAbove source.toList position)).length]? =
      some ((lineAround source.toList position).takeWhile (!isLineBreak ·)) := by
    rw [splitLines_around source.toList position, List.getElem?_append_right (Nat.le_refl _),
      Nat.sub_self, ← List.head?_eq_getElem?, head?_splitLines (drop_textAbove_ne_nil h),
      lineAround, takeWhile_takeWhile_newline]
  rw [hline, sourceLine?_register, hfirst]
  rfl

/-- If there are stray breaks above a line, a line of the text above is shown in its place. -/
theorem sourceLine?_of_strayBreaks
    (h : 0 < strayBreaks (textAbove source.toList position)) :
    ∃ shown ∈ splitLines (textAbove source.toList position),
      (reporter.register path source).sourceLine? (lineOf source.toList position) =
        some (String.ofList shown) := by
  have hends := endsLine_textAbove source.toList position
  have hlt : newlines (textAbove source.toList position) <
      (splitLines (textAbove source.toList position)).length := by
    rw [length_splitLines hends]
    omega
  have hline : (lineOf source.toList position : Int) =
      1 + newlines (textAbove source.toList position) := by
    rw [lineOf_eq]
    omega
  have hget : (splitLines source.toList)[newlines (textAbove source.toList position)]? =
      (splitLines (textAbove source.toList position))[newlines
        (textAbove source.toList position)]? := by
    rw [splitLines_around source.toList position, List.getElem?_append_left hlt]
  refine ⟨_, List.getElem_mem hlt, ?_⟩
  rw [hline, sourceLine?_register, hget, List.getElem?_eq_getElem hlt]
  rfl

end Reporter

/-- **Which line is shown for a token.**  The token ends on some line of the source.  A reporter
keeps this line, up to the first line break in it, further down than the line of the token, by the
number of stray breaks above.  So if there are none above, the line shown for the token is its own,
but for a carriage return at the end, exactly if this line has none either; and if there are some
above, a line of the text above is shown. -/
theorem shown_line_is_line_of_token (reporter : Reporter) (path : Option String) (source : String)
    {t : Token} (ht : t ∈ (scan source).tokens) :
    (∃ before after, t.StandsAt source before after) ∧
      ∀ before after, t.StandsAt source before after →
        (reporter.register path source).sourceLine?
            (t.line + strayBreaks (textAbove source.toList (t.lastPosition before))) =
          some (String.ofList
            ((lineAround source.toList (t.lastPosition before)).takeWhile (!isLineBreak ·))) ∧
        (strayBreaks (textAbove source.toList (t.lastPosition before)) = 0 →
          ((∃ shown, (reporter.register path source).sourceLine? t.line = some shown ∧
              IsUpToReturn shown (lineAround source.toList (t.lastPosition before))) ↔
            strayBreaks (lineAround source.toList (t.lastPosition before)) = 0)) ∧
        (0 < strayBreaks (textAbove source.toList (t.lastPosition before)) →
          ∃ shown ∈ splitLines (textAbove source.toList (t.lastPosition before)),
            (reporter.register path source).sourceLine? t.line = some (String.ofList shown)) := by
  refine ⟨exists_standsAt ht, fun before after h => ?_⟩
  obtain ⟨-, c, -, -, -, hc⟩ := h.exists_take
  have hkept := reporter.sourceLine?_lineOf path hc
  rw [h.line_eq]
  refine ⟨hkept, fun habove => ?_, reporter.sourceLine?_of_strayBreaks path⟩
  -- with no stray break above, the line kept is the line shown
  rw [habove, Int.natCast_zero, Int.add_zero] at hkept
  rw [strayBreaks_eq_zero_iff (newline_not_mem_lineAround _ _), hkept]
  constructor
  · rintro ⟨shown, hs, hline⟩
    exact Option.some.inj hs ▸ hline
  · exact fun hline => ⟨_, rfl, hline⟩

/-- A string over two lines, and carriage returns at the ends of lines. -/
def returnsSource : String := "\"a\nb\";\r\nx;\r"

theorem shown_line_is_line_of_token_returns :
    ⟨.identifier, "x", .absent, 3⟩ ∈ (scan returnsSource).tokens ∧
      ∃ shown, ((Reporter.new false false).register none returnsSource).sourceLine? 3 = some shown ∧
        IsUpToReturn shown "x;\r".toList := by
  have hmem : ⟨.identifier, "x", .absent, 3⟩ ∈ (scan returnsSource).tokens := by decide +kernel
  have hplace : Token.StandsAt ⟨.identifier, "x", .absent, 3⟩ returnsSource
      "\"a\nb\";\r\n".toList ";\r".toList :=
    ⟨(placedLexemes returnsSource).take 4, ⟨⟨.word, ['x']⟩, 3, 3⟩,
      (placedLexemes returnsSource).drop 5, by decide +kernel, by decide +kernel,
      by decide +kernel, by decide +kernel⟩
  obtain ⟨-, hshown⟩ :=
    shown_line_is_line_of_token (Reporter.new false false) none returnsSource hmem
  obtain ⟨-, hiff, -⟩ := hshown _ _ hplace
  exact ⟨hmem, (hiff (by decide +kernel)).2 (by decide +kernel)⟩

/-- A form feed in a string on the first line, and a second line. -/
def formFeedSource : String := "\"\x0c\";\nb;"

/-- **The line shown for a token need not be its line.**  Below a string with a form feed, the line
of the token is `b;`, and the end of the line before is shown. -/
theorem shown_line_shifted_by_form_feed :
    Token.StandsAt ⟨.identifier, "b", .absent, 2⟩ formFeedSource "\"\x0c\";\n".toList ";".toList ∧
      lineAround formFeedSource.toList
        (Token.lastPosition ⟨.identifier, "b", .absent, 2⟩ "\"\x0c\";\n".toList) = "b;".toList ∧
      ((Reporter.new false false).register none formFeedSource).sourceLine? 2 = some "\";" ∧
      ¬ IsUpToReturn "\";" "b;".toList :=
  ⟨⟨(placedLexemes formFeedSource).take 3, ⟨⟨.word, ['b']⟩, 2, 2⟩,
      (placedLexemes formFeedSource).drop 4, by decide +kernel, by decide +kernel,
      by decide +kernel, by decide +kernel⟩,
    by decide +kernel, by decide +kernel, by decide +kernel⟩

end ScopedScript

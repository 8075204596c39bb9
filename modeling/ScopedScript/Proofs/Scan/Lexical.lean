import Mathlib.Tactic.CasesM
import ScopedScript.Proofs.Scan.Numerals
import ScopedScript.Token.Scan

/-!
# The lexical grammar

Which texts are lexemes, and what tokens they make, said without the scanner.  For most lexemes
the text alone decides.  A slash and a comment also depend on what comes after: a slash is no
operator before a slash or a star, and a line comment goes on to the end of its line.

The scanner takes one piece of the source after the other.  A piece is a lexeme, or a blank or a
newline between lexemes, or it is a fault: a character that begins nothing, or a string or a
comment that the source ends in.

## Main definitions

* `IsLexeme text after made`: the text is a lexeme before `after`, and makes the token `made`.
* `Piece shape text after`: what a text begins with.

## Main results

* `cut_piece`: the scanner takes a piece.
* `IsLexeme.cut`: it takes no less than any lexeme there, and of a lexeme that it takes it makes
  the right token.
-/

namespace ScopedScript

/-! ## Lexemes -/

/-- The symbols that are tokens whatever follows them, with their kinds. -/
def symbolSpellings : List (List Char × TokenKind) :=
  [(['('], .leftParen), ([')'], .rightParen), (['\x7b'], .leftBrace), (['\x7d'], .rightBrace),
    ([','], .comma), (['.'], .dot), (['-'], .minus), (['+'], .plus), ([';'], .semicolon),
    (['*'], .star), (['?'], .question), ([':'], .colon), (['!'], .bang), (['!', '='], .bangEqual),
    (['='], .equal), (['=', '='], .equalEqual), (['>'], .greater), (['>', '='], .greaterEqual),
    (['<'], .less), (['<', '='], .lessEqual)]

/-- One or more digits. -/
def IsDigits (text : List Char) : Prop := text ≠ [] ∧ ∀ c ∈ text, c.isDigit = true

/-- A letter or an underscore, and then letters, underscores and digits. -/
def IsWord (text : List Char) : Prop :=
  ∃ first more, text = first :: more ∧ isWordStart first = true ∧ ∀ c ∈ more, isWordPart c = true

/-- **The lexical grammar**: the text is a lexeme if `after` comes after it.  A comment makes no
token, any other lexeme one of the given kind and literal. -/
inductive IsLexeme : List Char → List Char → Option (TokenKind × Literal) → Prop where
  | symbol {text after : List Char} {kind : TokenKind} (h : (text, kind) ∈ symbolSpellings) :
      IsLexeme text after (some (kind, .absent))
  | slash {after : List Char} (h : ∀ c ∈ after.head?, c ≠ '/' ∧ c ≠ '*') :
      IsLexeme ['/'] after (some (.slash, .absent))
  | whole {digits after : List Char} (h : IsDigits digits) :
      IsLexeme digits after (some (.number, .number (Number.ofDecimal digits [] 0)))
  | decimal {digits fraction after : List Char} (h : IsDigits digits) (hf : IsDigits fraction) :
      IsLexeme (digits ++ '.' :: fraction) after
        (some (.number, .number (Number.ofDecimal digits fraction 0)))
  | reserved {text after : List Char} {kind : TokenKind} (h : IsWord text)
      (hk : (String.ofList text, kind) ∈ keywords) : IsLexeme text after (some (kind, .absent))
  | identifier {text after : List Char} (h : IsWord text)
      (hk : ∀ kind, (String.ofList text, kind) ∉ keywords) :
      IsLexeme text after (some (.identifier, .absent))
  | quoted {body after : List Char} (h : '"' ∉ body) :
      IsLexeme ('"' :: (body ++ ['"'])) after (some (.string, .string (String.ofList body)))
  | lineComment {body after : List Char} (h : '\n' ∉ body) (ha : ∀ c ∈ after.head?, c = '\n') :
      IsLexeme ('/' :: '/' :: body) after none
  | blockComment {body after : List Char} (h : ¬ ['*', '/'] <:+: body ++ ['*']) :
      IsLexeme ('/' :: '*' :: (body ++ ['*', '/'])) after none

/-- A character that begins no lexeme, and is no blank and no newline either. -/
def BeginsNothing (c : Char) : Prop :=
  (∀ entry ∈ symbolSpellings, entry.1.head? ≠ some c) ∧ c ≠ '/' ∧ c ≠ '"' ∧ c.isDigit = false ∧
    isWordStart c = false ∧ c ≠ '\n' ∧ isSpace c = false

/-- **What a text begins with**, by class. -/
inductive Piece : Shape → List Char → List Char → Prop where
  | lexeme {shape : Shape} {text after : List Char}
      (h : IsLexeme text after (shape.token? text (text.drop 1).dropLast))
      (he : ∀ first last, shape.error? first last = none) : Piece shape text after
  | newline {after : List Char} : Piece .newline ['\n'] after
  | blank {c : Char} {after : List Char} (h : isSpace c = true) : Piece .blank [c] after
  | unexpected {c : Char} {after : List Char} (h : BeginsNothing c) :
      Piece (.unexpected c) [c] after
  | openQuote {body : List Char} (h : '"' ∉ body) : Piece .openQuote ('"' :: body) []
  | openComment {body : List Char} (h : ¬ ['*', '/'] <:+: body) :
      Piece .openComment ('/' :: '*' :: body) []

/-! ## The scanner takes a piece -/

theorem singleKind?_spelled {c : Char} {kind : TokenKind} (h : singleKind? c = some kind) :
    ([c], kind) ∈ symbolSpellings := by
  unfold singleKind? at h
  split at h <;> cases h <;> decide

theorem doubleKinds?_spelled {c : Char} {single double : TokenKind}
    (h : doubleKinds? c = some (single, double)) :
    ([c], single) ∈ symbolSpellings ∧ ([c, '='], double) ∈ symbolSpellings := by
  unfold doubleKinds? at h
  split at h <;> cases h <;> decide

/-- No symbol begins with a character that is in neither table. -/
theorem head?_ne_of_mem_symbolSpellings {c : Char} (hs : singleKind? c = none)
    (hd : doubleKinds? c = none) : ∀ entry ∈ symbolSpellings, entry.1.head? ≠ some c := by
  intro entry he hc
  have hall : symbolSpellings.all (fun entry => entry.1.head?.all fun c =>
      (singleKind? c).isSome || (doubleKinds? c).isSome) = true := by decide
  have := List.all_eq_true.1 hall entry he
  simp [hc, hs, hd] at this

/-- A comment is closed at the first place where it can be. -/
theorem splitClose?_eq_some {chars body rest : List Char}
    (h : splitClose? chars = some (body, rest)) :
    ∃ inner, body = inner ++ ['*', '/'] ∧ ¬ ['*', '/'] <:+: inner ++ ['*'] := by
  fun_induction splitClose? chars generalizing body with
  | case1 => cases h
  | case2 more =>
    cases h
    exact ⟨[], rfl, by decide⟩
  | case3 c more hc ih =>
    obtain ⟨⟨b, r⟩, hb, hr⟩ := Option.map_eq_some_iff.1 h
    cases hr
    obtain ⟨inner, rfl, hi⟩ := ih hb
    have hm := splitClose?_append hb
    refine ⟨c :: inner, rfl, ?_⟩
    rw [List.cons_append, List.infix_cons_iff, not_or]
    refine ⟨fun hp => ?_, hi⟩
    obtain ⟨rfl, hd⟩ := List.cons_prefix_cons.1 hp
    cases inner with
    | nil => simp at hd
    | cons d inner =>
      obtain ⟨rfl, -⟩ := List.cons_prefix_cons.1 hd
      exact hc _ rfl hm.symm

/-- Where no end of a comment is found, there is none. -/
theorem splitClose?_eq_none {chars : List Char} (h : splitClose? chars = none) :
    ¬ ['*', '/'] <:+: chars := by
  fun_induction splitClose? chars with
  | case1 => decide
  | case2 => cases h
  | case3 c more hc ih =>
    rw [List.infix_cons_iff, not_or]
    refine ⟨fun hp => ?_, ih (Option.map_eq_none_iff.1 h)⟩
    obtain ⟨rfl, hd⟩ := List.cons_prefix_cons.1 hp
    cases more with
    | nil => simp at hd
    | cons d more =>
      obtain ⟨rfl, -⟩ := List.cons_prefix_cons.1 hd
      exact hc more rfl rfl

theorem head?_dropWhile_ne (stop : Char) (chars : List Char) :
    ∀ c ∈ (chars.dropWhile (· != stop)).head?, c = stop := by
  intro c hc
  have := List.head?_dropWhile_not (· != stop) chars
  rw [Option.mem_def.1 hc] at this
  simpa using this

theorem not_mem_takeWhile_ne (stop : Char) (chars : List Char) :
    stop ∉ chars.takeWhile (· != stop) := by
  intro h
  have := List.all_eq_true.1 List.all_takeWhile _ h
  simp at this

/-- What is cut off at a slash is a symbol or a comment. -/
theorem cutSlash_piece (chars : List Char) :
    Piece (cutSlash chars).shape ('/' :: (cutSlash chars).taken) (cutSlash chars).rest := by
  fun_cases cutSlash chars with
  | case1 rest =>
    have hb := not_mem_takeWhile_ne '\n' rest
    exact .lexeme (.lineComment hb (head?_dropWhile_ne _ _)) fun _ _ => rfl
  | case2 rest body more h =>
    obtain ⟨inner, rfl, hi⟩ := splitClose?_eq_some h
    exact .lexeme (.blockComment hi) fun _ _ => rfl
  | case3 rest h => exact .openComment (splitClose?_eq_none h)
  | case4 chars h1 h2 =>
    refine .lexeme (.slash fun c hc => ⟨?_, ?_⟩) fun _ _ => rfl <;> rintro rfl <;>
      obtain ⟨rest, rfl⟩ := List.head?_eq_some_iff.1 (Option.mem_def.1 hc)
    · exact h1 rest rfl
    · exact h2 rest rfl

/-- What is cut off at a quote is a string, or all that is left. -/
theorem cutQuoted_piece (chars : List Char) :
    Piece (cutQuoted chars).shape ('"' :: (cutQuoted chars).taken) (cutQuoted chars).rest := by
  have hb := not_mem_takeWhile_ne '"' chars
  have hh := head?_dropWhile_ne '"' chars
  unfold cutQuoted
  split
  · exact .openQuote hb
  · next quote rest hd =>
    obtain rfl : quote = '"' := hh quote (by rw [hd]; rfl)
    refine .lexeme ?_ fun _ _ => rfl
    have hq : IsLexeme _ rest _ := .quoted hb
    simpa [Shape.token?] using hq

/-- A fraction is empty, or a point with digits behind it. -/
theorem splitFraction_cases (chars : List Char) :
    (splitFraction chars).1 = [] ∨
      ∃ fraction, (splitFraction chars).1 = '.' :: fraction ∧ IsDigits fraction := by
  fun_cases splitFraction chars with
  | case1 digit rest hd =>
    refine .inr ⟨_, rfl, List.cons_ne_nil _ _, List.forall_mem_cons.2 ⟨hd, fun c hc => ?_⟩⟩
    exact List.all_eq_true.1 List.all_takeWhile _ hc
  | case2 | case3 => exact .inl rfl

theorem isDigits_cons_takeWhile {c : Char} (hc : c.isDigit = true) (chars : List Char) :
    IsDigits (c :: chars.takeWhile Char.isDigit) :=
  ⟨List.cons_ne_nil _ _,
    List.forall_mem_cons.2 ⟨hc, fun _ h => List.all_eq_true.1 List.all_takeWhile _ h⟩⟩

/-- The number that digits are read as. -/
theorem token?_numeral_whole {digits : List Char} (h : IsDigits digits) (inside : List Char) :
    Shape.numeral.token? digits inside =
      some (.number, .number (Number.ofDecimal digits [] 0)) := by
  have := Number.read_numeral h.1 h.2 (.inl rfl)
  rw [List.append_nil] at this
  rw [Shape.token?, this]
  rfl

/-- The number that digits with a fraction are read as. -/
theorem token?_numeral_decimal {digits fraction : List Char} (h : IsDigits digits)
    (hf : IsDigits fraction) (inside : List Char) :
    Shape.numeral.token? (digits ++ '.' :: fraction) inside =
      some (.number, .number (Number.ofDecimal digits fraction 0)) := by
  rw [Shape.token?, Number.read_numeral h.1 h.2 (.inr ⟨fraction, rfl, hf.2⟩)]
  rfl

/-- What is cut off at a digit is a number. -/
theorem cutNumeral_piece {c : Char} (hc : c.isDigit = true) (chars : List Char) :
    Piece (cutNumeral chars).shape (c :: (cutNumeral chars).taken) (cutNumeral chars).rest := by
  have hw := isDigits_cons_takeWhile hc chars
  refine .lexeme ?_ fun _ _ => rfl
  dsimp only [cutNumeral]
  rcases splitFraction_cases (chars.dropWhile Char.isDigit) with hf | ⟨fraction, hf, hd⟩
  · rw [hf, List.append_nil, token?_numeral_whole hw]
    exact .whole hw
  · rw [hf, ← List.cons_append, token?_numeral_decimal hw hd]
    exact .decimal hw hd

/-- The table of keywords is searched for the word. -/
theorem keyword?_eq_some_iff {word : String} {kind : TokenKind} :
    keyword? word = some kind ↔ (word, kind) ∈ keywords := by
  have hn : (keywords.map Prod.fst).Nodup := by decide
  unfold keyword?
  generalize keywords = table at hn ⊢
  induction table with
  | nil => simp
  | cons entry table ih =>
    obtain ⟨key, value⟩ := entry
    rw [List.map_cons, List.nodup_cons] at hn
    rw [List.lookup_cons, List.mem_cons, Prod.mk.injEq]
    by_cases h : word = key
    · have hk : ∀ kind, (key, kind) ∉ table := fun kind hm => hn.1 (List.mem_map.2 ⟨_, hm, rfl⟩)
      subst h
      simp [hk, eq_comm]
    · rw [beq_eq_false_iff_ne.2 h]
      simpa [h] using ih hn.2

/-- A word makes a token of the right kind. -/
theorem IsWord.isLexeme {text : List Char} (h : IsWord text) (after inside : List Char) :
    IsLexeme text after (Shape.word.token? text inside) := by
  rw [Shape.token?]
  cases hk : keyword? (String.ofList text) with
  | some kind => exact .reserved h (keyword?_eq_some_iff.1 hk)
  | none =>
    refine .identifier h fun kind hm => ?_
    rw [keyword?_eq_some_iff.2 hm] at hk
    cases hk

/-- **The scanner takes a piece** of the text. -/
theorem cut_piece (c : Char) (chars : List Char) :
    Piece (cut c chars).shape (c :: (cut c chars).taken) (cut c chars).rest := by
  cases hs : singleKind? c with
  | some kind =>
    simp only [cut, hs]
    exact .lexeme (.symbol (singleKind?_spelled hs)) fun _ _ => rfl
  | none =>
    cases hd : doubleKinds? c with
    | some kinds =>
      simp only [cut, hs, hd]
      split
      · exact .lexeme (.symbol (doubleKinds?_spelled hd).2) fun _ _ => rfl
      · exact .lexeme (.symbol (doubleKinds?_spelled hd).1) fun _ _ => rfl
    | none =>
      simp only [cut, hs, hd]
      by_cases h1 : c = '/'
      · subst h1
        exact cutSlash_piece chars
      rw [if_neg h1]
      by_cases h2 : c = '\n'
      · subst h2
        exact .newline
      rw [if_neg h2]
      by_cases h3 : isSpace c = true
      · rw [if_pos h3]
        exact .blank h3
      rw [if_neg h3]
      by_cases h4 : c = '"'
      · subst h4
        exact cutQuoted_piece chars
      rw [if_neg h4]
      by_cases h5 : c.isDigit = true
      · rw [if_pos h5]
        exact cutNumeral_piece h5 chars
      rw [if_neg h5]
      by_cases h6 : isWordStart c = true
      · rw [if_pos h6]
        have hw : IsWord (c :: chars.takeWhile isWordPart) :=
          ⟨c, _, rfl, h6, fun _ h => List.all_eq_true.1 List.all_takeWhile _ h⟩
        exact .lexeme (hw.isLexeme _ _) fun _ _ => rfl
      rw [if_neg h6]
      exact .unexpected ⟨head?_ne_of_mem_symbolSpellings hs hd, h1, h4, by simpa using h5,
        by simpa using h6, h2, by simpa using h3⟩

/-! ## The scanner takes no less than a lexeme -/

/-- A symbol is one character, or one with an equals sign that may also stand without it. -/
theorem mem_symbolSpellings_cons {c : Char} {more : List Char} {kind : TokenKind}
    (h : (c :: more, kind) ∈ symbolSpellings) :
    more = [] ∧ singleKind? c = some kind ∨
      singleKind? c = none ∧ ∃ single double, doubleKinds? c = some (single, double) ∧
        (more = [] ∧ kind = single ∨ more = ['='] ∧ kind = double) := by
  simp only [symbolSpellings, List.mem_cons, Prod.mk.injEq, List.cons.injEq, List.not_mem_nil,
    or_false] at h
  casesm* _ ∨ _
  all_goals obtain ⟨⟨rfl, rfl⟩, rfl⟩ := h
  all_goals first
    | exact .inl ⟨rfl, rfl⟩
    | exact .inr ⟨rfl, _, _, rfl, .inl ⟨rfl, rfl⟩⟩
    | exact .inr ⟨rfl, _, _, rfl, .inr ⟨rfl, rfl⟩⟩

theorem cut_slash (chars : List Char) : cut '/' chars = cutSlash chars := rfl

theorem cut_quote (chars : List Char) : cut '"' chars = cutQuoted chars := rfl

/-- At a digit a number is cut off, whatever is tried before. -/
theorem cut_of_isDigit {c : Char} (h : c.isDigit = true) (chars : List Char) :
    cut c chars = cutNumeral chars := by
  have hc := Number.mem_numeralChars (.inl h)
  simp only [Number.numeralChars, List.mem_cons, List.not_mem_nil, or_false] at hc
  casesm* _ ∨ _
  all_goals subst hc
  all_goals first | rfl | exact absurd h (by decide)

theorem not_isDigit_of_isWordStart {c : Char} (h : isWordStart c = true) : c.isDigit = false := by
  cases hd : c.isDigit with
  | false => rfl
  | true =>
    have hall : Number.numeralChars.all (!isWordStart ·) = true := by decide
    have := List.all_eq_true.1 hall c (Number.mem_numeralChars (.inl hd))
    simp [h] at this

/-- At a letter a word is cut off, whatever is tried before. -/
theorem cut_of_isWordStart {c : Char} (h : isWordStart c = true) (chars : List Char) :
    cut c chars = ⟨.word, chars.takeWhile isWordPart, chars.dropWhile isWordPart⟩ := by
  have hs : singleKind? c = none := by
    unfold singleKind?
    split <;> first | rfl | exact absurd h (by decide)
  have hd : doubleKinds? c = none := by
    unfold doubleKinds?
    split <;> first | rfl | exact absurd h (by decide)
  have hne : ∀ d, isWordStart d = false → c ≠ d := by
    rintro d hd rfl
    exact Bool.false_ne_true (hd.symm.trans h)
  have hspace : isSpace c = false := by
    simp [isSpace, hne ' ' (by decide), hne '\t' (by decide), hne '\r' (by decide)]
  simp only [cut, hs, hd]
  rw [if_neg (hne '/' (by decide)), if_neg (hne '\n' (by decide)), hspace,
    if_neg Bool.false_ne_true, if_neg (hne '"' (by decide)), not_isDigit_of_isWordStart h,
    if_neg Bool.false_ne_true, if_pos h]

/-- A run of characters ends where the next one is of another sort. -/
theorem takeWhile_append_stop {p : Char → Bool} {body : List Char} (after : List Char)
    (hb : ∀ c ∈ body, p c = true) (ha : ∀ c ∈ after.head?, p c = false) :
    (body ++ after).takeWhile p = body ∧ (body ++ after).dropWhile p = after := by
  rw [List.takeWhile_append_of_pos hb, List.dropWhile_append_of_pos hb]
  cases after with
  | nil => simp
  | cons c after => simp [ha c rfl]

theorem length_le_takeWhile_append {p : Char → Bool} {body : List Char}
    (hb : ∀ c ∈ body, p c = true) (after : List Char) :
    body.length ≤ ((body ++ after).takeWhile p).length := by
  rw [List.takeWhile_append_of_pos hb, List.length_append]
  exact Nat.le_add_right _ _

/-- A string is cut off at its closing quote, whatever comes after it. -/
theorem cutQuoted_closed {body : List Char} (h : '"' ∉ body) (after : List Char) :
    cutQuoted (body ++ ['"'] ++ after) = ⟨.quoted, body ++ ['"'], after⟩ := by
  have hb : ∀ c ∈ body, (c != '"') = true := by
    intro c hc
    simpa using fun he : c = '"' => h (he ▸ hc)
  obtain ⟨ht, hd⟩ := takeWhile_append_stop ('"' :: after) hb (by simp)
  rw [List.append_assoc, List.singleton_append]
  simp only [cutQuoted, ht, hd]

/-- A comment to the end of the line is cut off before the newline. -/
theorem cutSlash_line {body after : List Char} (h : '\n' ∉ body)
    (ha : ∀ c ∈ after.head?, c = '\n') :
    cutSlash ('/' :: body ++ after) = ⟨.comment, '/' :: body, after⟩ := by
  have hb : ∀ c ∈ body, (c != '\n') = true := by
    intro c hc
    simpa using fun he : c = '\n' => h (he ▸ hc)
  obtain ⟨ht, hd⟩ := takeWhile_append_stop after hb fun c hc => by simp [ha c hc]
  simp only [List.cons_append, cutSlash, ht, hd]

/-- A comment is cut off at the first end of one, whatever comes after it. -/
theorem splitClose?_closed {body : List Char} (h : ¬ ['*', '/'] <:+: body ++ ['*'])
    (after : List Char) :
    splitClose? (body ++ ['*', '/'] ++ after) = some (body ++ ['*', '/'], after) := by
  induction body with
  | nil => rfl
  | cons c body ih =>
    rw [List.cons_append, List.infix_cons_iff, not_or] at h
    rw [List.cons_append, List.cons_append, splitClose?, ih h.2]
    · rfl
    · rintro rest rfl hr
      cases body with
      | nil => simp at hr
      | cons d body =>
        obtain ⟨rfl, -⟩ := List.cons.inj hr
        exact h.1 ⟨body ++ ['*'], rfl⟩

theorem cutSlash_block {body : List Char} (h : ¬ ['*', '/'] <:+: body ++ ['*'])
    (after : List Char) :
    cutSlash ('*' :: (body ++ ['*', '/']) ++ after) =
      ⟨.comment, '*' :: (body ++ ['*', '/']), after⟩ := by
  simp only [List.cons_append, cutSlash, splitClose?_closed h]

/-- A slash that begins no comment stands alone. -/
theorem cutSlash_single {after : List Char} (h : ∀ c ∈ after.head?, c ≠ '/' ∧ c ≠ '*') :
    cutSlash after = ⟨.symbol .slash, [], after⟩ := by
  cases after with
  | nil => rfl
  | cons d after =>
    have hd := h d rfl
    simp [cutSlash, hd.1, hd.2]

/-- A word is taken with all its characters. -/
theorem IsWord.cut {c : Char} {more : List Char} (h : IsWord (c :: more)) (after : List Char) :
    more.length ≤ (cut c (more ++ after)).taken.length ∧
      (ScopedScript.cut c (more ++ after)).shape = .word := by
  obtain ⟨first, others, he, hf, hm⟩ := h
  obtain ⟨rfl, rfl⟩ := List.cons.inj he
  rw [cut_of_isWordStart hf]
  exact ⟨length_le_takeWhile_append hm after, rfl⟩

/-- A fraction part is taken with all its digits. -/
theorem length_le_splitFraction {fraction : List Char} (h : IsDigits fraction)
    (after : List Char) :
    ('.' :: fraction).length ≤ (splitFraction ('.' :: fraction ++ after)).1.length := by
  obtain ⟨d, more, rfl⟩ := List.exists_cons_of_ne_nil h.1
  obtain ⟨hd, hm⟩ := List.forall_mem_cons.1 h.2
  have := length_le_takeWhile_append hm after
  simp only [List.cons_append, splitFraction, hd, if_true, List.length_cons]
  omega

theorem length_le_cutNumeral {digits : List Char} (h : ∀ c ∈ digits, c.isDigit = true)
    (after : List Char) : digits.length ≤ (cutNumeral (digits ++ after)).taken.length := by
  have := length_le_takeWhile_append h after
  rw [cutNumeral, List.length_append]
  omega

theorem length_le_cutNumeral_decimal {digits fraction : List Char}
    (h : ∀ c ∈ digits, c.isDigit = true) (hf : IsDigits fraction) (after : List Char) :
    (digits ++ '.' :: fraction).length ≤
      (cutNumeral (digits ++ '.' :: fraction ++ after)).taken.length := by
  obtain ⟨ht, hd⟩ := takeWhile_append_stop ('.' :: fraction ++ after) h
    fun c hc => by cases hc; rfl
  have := length_le_splitFraction hf after
  rw [List.append_assoc, cutNumeral, ht, hd, List.length_append, List.length_append]
  omega

/-- Whether a class is one of lexemes, and not of what stands between them or of faults. -/
def Shape.isLexeme : Shape → Bool
  | .symbol _ | .quoted | .numeral | .word | .comment => true
  | _ => false

/-- **The scanner takes no less than any lexeme** that its text begins with, and it takes a lexeme.
When it takes this one, it makes the token of this one. -/
theorem IsLexeme.cut {c : Char} {more after : List Char} {made : Option (TokenKind × Literal)}
    (h : IsLexeme (c :: more) after made) :
    more.length ≤ (cut c (more ++ after)).taken.length ∧
      (ScopedScript.cut c (more ++ after)).shape.isLexeme = true ∧
      ((ScopedScript.cut c (more ++ after)).taken = more →
        (ScopedScript.cut c (more ++ after)).shape.token? (c :: more) more.dropLast = made) := by
  generalize ht : c :: more = text at h
  cases h with
  | symbol h =>
    subst ht
    rcases mem_symbolSpellings_cons h with ⟨rfl, hs⟩ | ⟨hs, single, double, hd, h⟩
    · simp [ScopedScript.cut, hs, Shape.token?, Shape.isLexeme]
    · rcases h with ⟨rfl, rfl⟩ | ⟨rfl, rfl⟩
      · simp only [ScopedScript.cut, hs, hd, List.nil_append]
        -- with an equals sign behind it the other symbol is taken
        split
        · exact ⟨Nat.zero_le _, rfl, nofun⟩
        · exact ⟨Nat.zero_le _, rfl, fun _ => rfl⟩
      · simp [ScopedScript.cut, hs, hd, Shape.token?, Shape.isLexeme]
  | slash h =>
    obtain ⟨rfl, rfl⟩ := List.cons.inj ht
    rw [List.nil_append, cut_slash, cutSlash_single h]
    exact ⟨Nat.le_refl _, rfl, fun _ => rfl⟩
  | whole h =>
    subst ht
    obtain ⟨hd, hm⟩ := List.forall_mem_cons.1 h.2
    rw [cut_of_isDigit hd]
    exact ⟨length_le_cutNumeral hm after, rfl, fun _ => token?_numeral_whole h _⟩
  | @decimal digits fraction _ h hf =>
    obtain ⟨d, digits, rfl⟩ := List.exists_cons_of_ne_nil h.1
    obtain ⟨rfl, rfl⟩ := List.cons.inj ht
    obtain ⟨hd, hm⟩ := List.forall_mem_cons.1 h.2
    rw [cut_of_isDigit hd]
    exact ⟨length_le_cutNumeral_decimal hm hf after, rfl, fun _ => token?_numeral_decimal h hf _⟩
  | reserved h hk =>
    subst ht
    obtain ⟨hl, hw⟩ := h.cut after
    refine ⟨hl, by rw [hw]; rfl, fun _ => ?_⟩
    rw [hw, Shape.token?, keyword?_eq_some_iff.2 hk]
    rfl
  | identifier h hk =>
    subst ht
    obtain ⟨hl, hw⟩ := h.cut after
    have hn : keyword? (String.ofList (c :: more)) = none :=
      Option.eq_none_iff_forall_ne_some.2 fun kind h => hk kind (keyword?_eq_some_iff.1 h)
    refine ⟨hl, by rw [hw]; rfl, fun _ => ?_⟩
    rw [hw, Shape.token?, hn]
    rfl
  | quoted h =>
    obtain ⟨rfl, rfl⟩ := List.cons.inj ht
    rw [cut_quote, cutQuoted_closed h]
    exact ⟨Nat.le_refl _, rfl, fun _ => by rw [Shape.token?, List.dropLast_concat]⟩
  | lineComment h ha =>
    obtain ⟨rfl, rfl⟩ := List.cons.inj ht
    rw [cut_slash, cutSlash_line h ha]
    exact ⟨Nat.le_refl _, rfl, fun _ => rfl⟩
  | blockComment h =>
    obtain ⟨rfl, rfl⟩ := List.cons.inj ht
    rw [cut_slash, cutSlash_block h]
    exact ⟨Nat.le_refl _, rfl, fun _ => rfl⟩

end ScopedScript

import ScopedScript.Number.Read
import ScopedScript.Token

/-!
# Lexemes

A source text is cut into lexemes from left to right, each as long as its class
allows.  Blanks, newlines and comments are lexemes too, and so is a character that
begins none, so that the lexemes of a source put together are the source.

## Main definitions

* `Shape`: the lexical classes.
* `cut`: the lexeme at the head of a text, and what is left.
* `lexemes`: all lexemes of a text.
* `Shape.token?`: the kind and literal of the token that a lexeme makes.

## Main results

* `cut_append`: a cut loses nothing.
* `lexemes_cons`: the lexemes of a text are its first cut and the lexemes of the rest.
-/

namespace ScopedScript

/-- **The lexical classes.**  The last three are faults: a character that begins no
lexeme, and a string or a block comment that the source ends in. -/
inductive Shape where
  | symbol (kind : TokenKind)
  | quoted
  | numeral
  | word
  | blank
  | newline
  | comment
  | unexpected (c : Char)
  | openQuote
  | openComment
deriving DecidableEq

/-- The kind of a character that is a token whatever follows it. -/
def singleKind? : Char → Option TokenKind
  | '(' => some .leftParen | ')' => some .rightParen
  | '\x7b' => some .leftBrace | '\x7d' => some .rightBrace
  | ',' => some .comma | '.' => some .dot | '-' => some .minus | '+' => some .plus
  | ';' => some .semicolon | '*' => some .star | '?' => some .question | ':' => some .colon
  | _ => none

/-- The kinds of a character alone and followed by an equals sign. -/
def doubleKinds? : Char → Option (TokenKind × TokenKind)
  | '!' => some (.bang, .bangEqual)
  | '=' => some (.equal, .equalEqual)
  | '>' => some (.greater, .greaterEqual)
  | '<' => some (.less, .lessEqual)
  | _ => none

/-- Whether a character is a blank inside a line. -/
def isSpace (c : Char) : Bool := c == ' ' || c == '\t' || c == '\r'

/-- Whether a character begins a word. -/
def isWordStart (c : Char) : Bool := c.isAlpha || c == '_'

/-- Whether a character continues a word. -/
def isWordPart (c : Char) : Bool := isWordStart c || c.isDigit

/-- **The head of a text cut off**: its class, the characters after the first that belong
to it, and what is left. -/
structure Cut where
  shape : Shape
  taken : List Char
  rest : List Char
deriving DecidableEq

/-- A text up to and including the first `*/`, and what follows. -/
def splitClose? : List Char → Option (List Char × List Char)
  | [] => none
  | '*' :: '/' :: rest => some (['*', '/'], rest)
  | c :: rest => (splitClose? rest).map fun parts => (c :: parts.1, parts.2)

/-- The cut after a slash: a line comment up to the newline, a block comment, or the
operator. -/
def cutSlash : List Char → Cut
  | '/' :: rest =>
    ⟨.comment, '/' :: rest.takeWhile (· != '\n'), rest.dropWhile (· != '\n')⟩
  | '*' :: rest =>
    match splitClose? rest with
    | some (body, rest) => ⟨.comment, '*' :: body, rest⟩
    | none => ⟨.openComment, '*' :: rest, []⟩
  | rest => ⟨.symbol .slash, [], rest⟩

/-- The cut after a quotation mark: up to and including the next one. -/
def cutQuoted (chars : List Char) : Cut :=
  let body := chars.takeWhile (· != '"')
  match chars.dropWhile (· != '"') with
  | [] => ⟨.openQuote, body, []⟩
  | quote :: rest => ⟨.quoted, body ++ [quote], rest⟩

/-- A text split after its fraction part: a point and digits, if it begins with a point
that a digit follows. -/
def splitFraction : List Char → List Char × List Char
  | '.' :: digit :: rest =>
    if digit.isDigit then
      ('.' :: digit :: rest.takeWhile Char.isDigit, rest.dropWhile Char.isDigit)
    else ([], '.' :: digit :: rest)
  | rest => ([], rest)

/-- The cut after a digit: more digits, then a fraction part. -/
def cutNumeral (chars : List Char) : Cut :=
  let parts := splitFraction (chars.dropWhile Char.isDigit)
  ⟨.numeral, chars.takeWhile Char.isDigit ++ parts.1, parts.2⟩

/-- **The lexeme at the head of a text** that begins with `c`. -/
def cut (c : Char) (chars : List Char) : Cut :=
  match singleKind? c with
  | some kind => ⟨.symbol kind, [], chars⟩
  | none =>
    match doubleKinds? c with
    | some (single, double) =>
      match chars with
      | '=' :: rest => ⟨.symbol double, ['='], rest⟩
      | rest => ⟨.symbol single, [], rest⟩
    | none =>
      if c = '/' then cutSlash chars
      else if c = '\n' then ⟨.newline, [], chars⟩
      else if isSpace c then ⟨.blank, [], chars⟩
      else if c = '"' then cutQuoted chars
      else if c.isDigit then cutNumeral chars
      else if isWordStart c then
        ⟨.word, chars.takeWhile isWordPart, chars.dropWhile isWordPart⟩
      else ⟨.unexpected c, [], chars⟩

/-- **A lexeme**: a class and the characters it was read from. -/
structure Lexeme where
  shape : Shape
  text : List Char
deriving DecidableEq

/-- The first lexemes of a text, at most as many as the bound. -/
def lexemesWithin : Nat → List Char → List Lexeme
  | _, [] => []
  | 0, _ :: _ => []
  | bound + 1, c :: chars =>
    let head := cut c chars
    ⟨head.shape, c :: head.taken⟩ :: lexemesWithin bound head.rest

/-- **The lexemes of a text.**  There are no more of them than characters. -/
def lexemes (chars : List Char) : List Lexeme := lexemesWithin chars.length chars

/-- The kind and the literal of the token that a lexeme of this class and text makes, if
it makes one; `inside` is the text without its first and last character. -/
def Shape.token? (shape : Shape) (text inside : List Char) : Option (TokenKind × Literal) :=
  match shape with
  | .symbol kind => some (kind, .absent)
  | .quoted => some (.string, .string (String.ofList inside))
  | .numeral => (Number.read? (String.ofList text)).map fun value => (.number, .number value)
  | .word => some ((keyword? (String.ofList text)).getD .identifier, .absent)
  | _ => none

/-! ## A cut loses nothing -/

theorem splitClose?_append {chars body rest : List Char}
    (h : splitClose? chars = some (body, rest)) : body ++ rest = chars := by
  fun_induction splitClose? chars generalizing body with
  | case1 => simp at h
  | case2 => grind
  | case3 c more _ ih =>
    obtain ⟨⟨b, r⟩, hb, hr⟩ := Option.map_eq_some_iff.1 h
    simp only [Prod.mk.injEq] at hr
    obtain ⟨rfl, rfl⟩ := hr
    simp [ih hb]

theorem cutSlash_append (chars : List Char) :
    (cutSlash chars).taken ++ (cutSlash chars).rest = chars := by
  fun_cases cutSlash chars with
  | case1 => simp
  | case2 rest body more h => simp [splitClose?_append h]
  | case3 => simp
  | case4 => simp

theorem cutQuoted_append (chars : List Char) :
    (cutQuoted chars).taken ++ (cutQuoted chars).rest = chars := by
  have h := List.takeWhile_append_dropWhile (p := (· != '"')) (l := chars)
  unfold cutQuoted
  split <;> rename_i hd <;> rw [hd] at h <;> simpa using h

theorem splitFraction_append (chars : List Char) :
    (splitFraction chars).1 ++ (splitFraction chars).2 = chars := by
  fun_cases splitFraction chars <;> simp

theorem cutNumeral_append (chars : List Char) :
    (cutNumeral chars).taken ++ (cutNumeral chars).rest = chars := by
  simp [cutNumeral, splitFraction_append]

/-- **A cut loses nothing**: what is taken and what is left are the text. -/
theorem cut_append (c : Char) (chars : List Char) :
    (cut c chars).taken ++ (cut c chars).rest = chars := by
  unfold cut
  split
  · rfl
  · split
    · split <;> rfl
    · split
      · exact cutSlash_append chars
      · split
        · rfl
        · split
          · rfl
          · split
            · exact cutQuoted_append chars
            · split
              · exact cutNumeral_append chars
              · split
                · simp
                · rfl

theorem length_cut_rest_le (c : Char) (chars : List Char) :
    (cut c chars).rest.length ≤ chars.length := by
  have h := congrArg List.length (cut_append c chars)
  simp only [List.length_append] at h
  omega

theorem lexemesWithin_eq {bound other : Nat} {chars : List Char} (h : chars.length ≤ bound)
    (h' : chars.length ≤ other) : lexemesWithin bound chars = lexemesWithin other chars := by
  induction bound generalizing other chars with
  | zero =>
    obtain rfl : chars = [] := List.length_eq_zero_iff.1 (Nat.le_zero.1 h)
    cases other <;> rfl
  | succ bound ih =>
    cases chars with
    | nil => cases other <;> rfl
    | cons c chars =>
      cases other with
      | zero => simp at h'
      | succ other =>
        have hr := length_cut_rest_le c chars
        simp only [List.length_cons, Nat.add_le_add_iff_right] at h h'
        simp only [lexemesWithin, ih (Nat.le_trans hr h) (Nat.le_trans hr h')]

@[simp]
theorem lexemes_nil : lexemes [] = [] := rfl

/-- The lexemes of a text are its first cut and the lexemes of the rest. -/
theorem lexemes_cons (c : Char) (chars : List Char) :
    lexemes (c :: chars) =
      ⟨(cut c chars).shape, c :: (cut c chars).taken⟩ :: lexemes (cut c chars).rest := by
  simp only [lexemes, List.length_cons, lexemesWithin]
  rw [lexemesWithin_eq (length_cut_rest_le c chars) (Nat.le_refl _)]

end ScopedScript

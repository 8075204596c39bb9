import ScopedScript.Proofs.Scan.Kinds
import ScopedScript.Proofs.Scan.Munch

/-!
# Tokens written out again

A blank ends every token: what stands before it is scanned as if nothing came after.  So the texts
of the tokens of a source, written one after the other with blanks between them, scan to the same
tokens again, whatever stood between them in the source.  Only their lines may be others.

## Main definitions

* `Token.content`: a token without its line.
* `respaced`: the texts of tokens with blanks between them.

## Main results

* `IsLexeme.cut_before_blank`: a blank ends every token.
* `scan_respaced`: the tokens of a source, written out again, are scanned again.
-/

namespace ScopedScript

/-- A token without its line. -/
def Token.content (t : Token) : TokenKind × String × Literal := (t.kind, t.lexeme, t.literal)

/-- The texts of tokens with blanks between them. -/
def respaced (tokens : List Token) : String := String.intercalate " " (tokens.map Token.lexeme)

/-! ## A blank ends every token -/

/-- Nothing follows, or a blank. -/
def BlankAhead (after : List Char) : Prop := ∀ c ∈ after.head?, c = ' '

namespace BlankAhead

variable {after : List Char}

theorem head_not {p : Char → Bool} (h : BlankAhead after) (hp : p ' ' = false) :
    ∀ c ∈ after.head?, p c = false := by
  intro c hc
  rw [h c hc, hp]

theorem splitFraction (h : BlankAhead after) : splitFraction after = ([], after) := by
  fun_cases ScopedScript.splitFraction after with
  | case1 digit rest => exact absurd (h '.' rfl) (by decide)
  | case2 digit rest hd => rfl
  | case3 rest => rfl

end BlankAhead

theorem splitFraction_before_blank {fraction after : List Char} (hf : IsDigits fraction)
    (ha : BlankAhead after) :
    splitFraction ('.' :: fraction ++ after) = ('.' :: fraction, after) := by
  obtain ⟨d, more, rfl⟩ := List.exists_cons_of_ne_nil hf.1
  obtain ⟨hd, hm⟩ := List.forall_mem_cons.1 hf.2
  obtain ⟨ht, hr⟩ := takeWhile_append_stop _ hm (ha.head_not (p := Char.isDigit) (by decide))
  simp only [List.cons_append, splitFraction, hd, if_true, ht, hr]

namespace IsLexeme

variable {text after after' : List Char} {made : TokenKind × Literal}

/-- Whatever stands behind a token may be replaced by a blank. -/
theorem before_blank (h : IsLexeme text after (some made)) (ha : BlankAhead after') :
    IsLexeme text after' (some made) := by
  cases h with
  | symbol h => exact .symbol h
  | slash => exact .slash fun c hc => by rw [ha c hc]; decide
  | whole h => exact .whole h
  | decimal h hf => exact .decimal h hf
  | reserved h hk => exact .reserved h hk
  | identifier h hk => exact .identifier h hk
  | quoted h => exact .quoted h

/-- **A blank ends every token.** -/
theorem cut_before_blank {c : Char} {more : List Char} (h : IsLexeme (c :: more) after (some made))
    (ha : BlankAhead after) : (ScopedScript.cut c (more ++ after)).taken = more := by
  generalize ht : c :: more = text at h
  cases h with
  | symbol h =>
    subst ht
    rcases mem_symbolSpellings_cons h with ⟨rfl, hs⟩ | ⟨hs, single, double, hd, h⟩
    · simp [ScopedScript.cut, hs]
    · rcases h with ⟨rfl, rfl⟩ | ⟨rfl, rfl⟩
      · simp only [ScopedScript.cut, hs, hd, List.nil_append]
        split
        · exact absurd (ha '=' rfl) (by decide)
        · rfl
      · simp [ScopedScript.cut, hs, hd]
  | slash h =>
    obtain ⟨rfl, rfl⟩ := List.cons.inj ht
    rw [List.nil_append, cut_slash, cutSlash_single h]
  | whole h =>
    subst ht
    obtain ⟨hd, hm⟩ := List.forall_mem_cons.1 h.2
    obtain ⟨ht, hr⟩ := takeWhile_append_stop _ hm (ha.head_not (p := Char.isDigit) (by decide))
    rw [cut_of_isDigit hd, cutNumeral, ht, hr, ha.splitFraction, List.append_nil]
  | @decimal digits fraction _ h hf =>
    obtain ⟨d, digits, rfl⟩ := List.exists_cons_of_ne_nil h.1
    rw [List.cons_append] at ht
    obtain ⟨rfl, rfl⟩ := List.cons.inj ht
    obtain ⟨hd, hm⟩ := List.forall_mem_cons.1 h.2
    obtain ⟨ht, hr⟩ := takeWhile_append_stop ('.' :: fraction ++ after) hm
      fun c hc => by cases hc; rfl
    rw [cut_of_isDigit hd, List.append_assoc, cutNumeral, ht, hr,
      splitFraction_before_blank hf ha]
  | reserved h | identifier h =>
    subst ht
    obtain ⟨first, others, he, hf, hm⟩ := h
    obtain ⟨rfl, rfl⟩ := List.cons.inj he
    rw [cut_of_isWordStart hf]
    exact (takeWhile_append_stop _ hm (ha.head_not (p := isWordPart) (by decide))).1
  | quoted h =>
    obtain ⟨rfl, rfl⟩ := List.cons.inj ht
    rw [cut_quote, cutQuoted_closed h]

end IsLexeme

/-! ## The tokens of a source, written out again -/

/-- What the token of a lexeme is, but for its line. -/
def Lexeme.content? (l : Lexeme) : Option (TokenKind × String × Literal) :=
  (l.shape.token? l.text (l.text.drop 1).dropLast).map fun made =>
    (made.1, String.ofList l.text, made.2)

/-- The lexeme is no fault. -/
def Lexeme.IsFine (l : Lexeme) : Prop := ∀ first last, l.shape.error? first last = none

theorem content_tokens_place (line : Nat) (ls : List Lexeme) :
    ((place line ls).filterMap Placed.token?).map Token.content = ls.filterMap Lexeme.content? := by
  induction ls generalizing line with
  | nil => rfl
  | cons l ls ih =>
    have hl : (Placed.token? ⟨l, line, line + newlines l.text⟩).map Token.content = l.content? :=
      Option.map_map ..
    rw [place, Scanning.filterMap_cons_toList, Scanning.filterMap_cons_toList, List.map_append, ih,
      ← hl, Option.toList_map]

theorem errors_place_eq_nil (line : Nat) {ls : List Lexeme} (h : ∀ l ∈ ls, l.IsFine) :
    (place line ls).filterMap Placed.error? = [] :=
  List.filterMap_eq_nil_iff.2 fun _ hp => h _ (lexeme_mem_of_mem_place hp) _ _

theorem Shape.error?_of_isLexeme {shape : Shape} (h : shape.isLexeme = true) (first last : Nat) :
    shape.error? first last = none := by
  cases shape <;> first | rfl | cases h

/-- A token's text is one lexeme, if a blank or nothing follows. -/
theorem IsLexeme.lexemes_append {text after : List Char} {made : TokenKind × Literal}
    (h : IsLexeme text after (some made)) (after' : List Char) (ha : BlankAhead after') :
    ∃ l, lexemes (text ++ after') = l :: lexemes after' ∧ l.IsFine ∧
      l.content? = some (made.1, String.ofList text, made.2) := by
  obtain ⟨c, more, rfl⟩ := List.exists_cons_of_ne_nil h.ne_nil
  have h := h.before_blank ha
  have htaken := h.cut_before_blank ha
  obtain ⟨-, hshape, htoken⟩ := h.cut
  have hrest : (ScopedScript.cut c (more ++ after')).rest = after' :=
    List.append_cancel_left (htaken ▸ cut_append c (more ++ after'))
  refine ⟨_, by rw [List.cons_append, lexemes_cons, hrest], Shape.error?_of_isLexeme hshape, ?_⟩
  rw [Lexeme.content?, htaken, List.drop_one, List.tail_cons, htoken htaken]
  rfl

/-- A token that the lexical grammar has. -/
def Token.IsSpelled (t : Token) : Prop :=
  ∃ after, IsLexeme t.lexeme.toList after (some (t.kind, t.literal))

theorem lexemes_intercalate {ts : List Token} (h : ∀ t ∈ ts, t.IsSpelled) :
    (lexemes ([' '].intercalate (ts.map (·.lexeme.toList)))).filterMap Lexeme.content? =
        ts.map Token.content ∧
      ∀ l ∈ lexemes ([' '].intercalate (ts.map (·.lexeme.toList))), l.IsFine := by
  induction ts with
  | nil => simp
  | cons t ts ih =>
    obtain ⟨⟨after, ht⟩, hts⟩ := List.forall_mem_cons.1 h
    cases ts with
    | nil =>
      obtain ⟨l, hl, hfine, hcontent⟩ := ht.lexemes_append [] nofun
      rw [List.append_nil] at hl
      simp [hl, hfine, hcontent, Token.content]
    | cons t' ts =>
      obtain ⟨ih, ihfine⟩ := ih hts
      have htext : [' '].intercalate ((t :: t' :: ts).map (·.lexeme.toList)) =
          t.lexeme.toList ++ ' ' :: [' '].intercalate ((t' :: ts).map (·.lexeme.toList)) := by
        simp only [List.map_cons, List.intercalate_cons_cons, List.append_assoc,
          List.singleton_append]
      rw [htext]
      generalize [' '].intercalate _ = rest at ih ihfine ⊢
      obtain ⟨l, hl, hfine, hcontent⟩ := ht.lexemes_append (' ' :: rest) (by
        intro c hc
        cases hc
        rfl)
      have hblank : lexemes (' ' :: rest) = ⟨.blank, [' ']⟩ :: lexemes rest := lexemes_cons ' ' rest
      rw [hl, hblank]
      constructor
      · rw [List.filterMap_cons_some hcontent, List.filterMap_cons_none rfl, ih,
          String.ofList_toList]
        rfl
      · exact List.forall_mem_cons.2 ⟨hfine, List.forall_mem_cons.2 ⟨fun _ _ => rfl, ihfine⟩⟩

/-- Every token of a source is one of the lexical grammar. -/
theorem scanned_isSpelled {source : String} {t : Token} (h : t ∈ (scan source).tokens) :
    t.IsSpelled := by
  obtain ⟨steps, last, -, hsteps, -, hmade, -⟩ := exists_scans [] source.toList []
  have h : t ∈ steps.filterMap ScanStep.made := by
    rw [hmade]
    exact h
  obtain ⟨s, hs, ht⟩ := List.mem_filterMap.1 h
  obtain ⟨-, ⟨c, rest, hcut⟩, -⟩ := hsteps s hs
  have hp := hcut.piece
  rw [hcut.made] at ht
  obtain ⟨made, hm, rfl⟩ := Option.map_eq_some_iff.1 ht
  generalize (cut c rest).shape = shape at hp hm
  generalize s.slice = slice at hp hm ⊢
  generalize s.rest = after at hp
  cases hp with
  | lexeme hl =>
    refine ⟨after, ?_⟩
    rw [hm] at hl
    rwa [String.toList_ofList]
  | _ => cases hm

/-- **The tokens of a source, written out again with single blanks between them**, are scanned
again: as many, of the same kinds, with the same texts and literals, in order, and there are no
faults, whatever faults the source had. -/
theorem scan_respaced (source : String) :
    (scan (respaced (scan source).tokens)).tokens.map Token.content =
        (scan source).tokens.map Token.content ∧
      (scan (respaced (scan source).tokens)).errors = [] := by
  have hspelled : ∀ t ∈ (scan source).tokens, t.IsSpelled := fun _ => scanned_isSpelled
  generalize (scan source).tokens = ts at hspelled ⊢
  have htext : (respaced ts).toList = [' '].intercalate (ts.map (·.lexeme.toList)) := by
    rw [respaced, String.toList_intercalate, List.map_map]
    rfl
  obtain ⟨hcontent, hfine⟩ := lexemes_intercalate hspelled
  rw [← htext] at hcontent hfine
  exact ⟨(content_tokens_place 1 _).trans hcontent, errors_place_eq_nil 1 hfine⟩

end ScopedScript

import ScopedScript.Proofs.Scan.Append
import ScopedScript.Proofs.Scan.Respacing

/-!
# Where tokens stand

Every token of a source comes from one lexeme there, and has its text.  Its line is the line of
the last character of the lexeme.  For no token is that character a newline.

## Main definitions

* `lineOf`: the line that a character of a text is on.
* `Token.StandsAt`: a token with the text before its lexeme and the text after it.
* `Token.lastPosition`: where its last character is.

## Main results

* `exists_standsAt`: every token of a source stands somewhere in it.
* `Token.StandsAt.line_eq`: its line is the one on which its lexeme ends.
-/

namespace ScopedScript

/-- The line that the character at a position is on, counted from one: only a newline ends a
line. -/
def lineOf (chars : List Char) (position : Nat) : Nat := 1 + newlines (chars.take position)

/-- The text of placed lexemes. -/
def Placed.texts (placed : List Placed) : List Char := placed.flatMap (·.lexeme.text)

/-- **Where a token stands** in a source: one of the lexemes makes it, `before` is the text up to
this lexeme, and `after` is the text that follows. -/
def Token.StandsAt (t : Token) (source : String) (before after : List Char) : Prop :=
  ∃ earlier p later, placedLexemes source = earlier ++ p :: later ∧ p.token? = some t ∧
    before = Placed.texts earlier ∧ after = Placed.texts later

/-- The position of a token's last character, if `before` is the text before the token. -/
def Token.lastPosition (t : Token) (before : List Char) : Nat :=
  before.length + t.lexeme.length - 1

/-! ## Placed lexemes -/

theorem texts_place (line : Nat) (ls : List Lexeme) :
    Placed.texts (place line ls) = ls.flatMap Lexeme.text := by
  induction ls generalizing line with
  | nil => rfl
  | cons l ls ih => exact congrArg (l.text ++ ·) (ih _)

/-- A lexeme ends as many lines down as there are newlines up to its end. -/
theorem lastLine_eq {line : Nat} {ls : List Lexeme} {earlier later : List Placed} {p : Placed}
    (h : place line ls = earlier ++ p :: later) :
    p.lastLine = line + newlines (Placed.texts earlier ++ p.lexeme.text) := by
  induction ls generalizing line earlier with
  | nil => exact absurd h (List.append_ne_nil_of_right_ne_nil _ (List.cons_ne_nil _ _)).symm
  | cons l ls ih =>
    cases earlier with
    | nil =>
      obtain ⟨rfl, -⟩ := List.cons.inj h
      rfl
    | cons q earlier =>
      obtain ⟨rfl, hrest⟩ := List.cons.inj h
      rw [ih hrest]
      simp only [Placed.texts, List.flatMap_cons, List.append_assoc, newlines, List.count_append,
        Nat.add_assoc]

theorem Placed.lexeme_of_token? {p : Placed} {t : Token} (h : p.token? = some t) :
    t.lexeme = String.ofList p.lexeme.text ∧ t.line = p.lastLine := by
  obtain ⟨made, -, rfl⟩ := Option.map_eq_some_iff.1 h
  exact ⟨rfl, rfl⟩

/-! ## Tokens -/

/-- No token ends with a newline. -/
theorem IsLexeme.exists_last {text after : List Char} {made : TokenKind × Literal}
    (h : IsLexeme text after (some made)) : ∃ body c, text = body ++ [c] ∧ c ≠ '\n' := by
  have hlast : ∀ {chars : List Char}, chars ≠ [] → '\n' ∉ chars →
      ∃ body c, chars = body ++ [c] ∧ c ≠ '\n' := by
    intro chars hne hn
    refine ⟨chars.dropLast, chars.getLast hne, (List.dropLast_concat_getLast hne).symm, ?_⟩
    exact fun he => hn (he ▸ List.getLast_mem hne)
  have hdigit : ∀ {chars : List Char}, IsDigits chars → '\n' ∉ chars :=
    fun h hn => absurd (h.2 _ hn) (by decide)
  have hword : ∀ {chars : List Char}, IsWord chars → '\n' ∉ chars := by
    rintro chars ⟨first, more, rfl, hf, hm⟩ hn
    rcases List.mem_cons.1 hn with rfl | hn
    · exact absurd hf (by decide)
    · exact absurd (hm _ hn) (by decide)
  have hne := h.ne_nil
  cases h with
  | symbol h =>
    refine hlast hne fun hn => ?_
    have hall : symbolSpellings.all (fun entry => !entry.1.contains '\n') = true := by decide
    have := List.all_eq_true.1 hall _ h
    simp [hn] at this
  | slash => exact ⟨[], '/', rfl, by decide⟩
  | whole h => exact hlast hne (hdigit h)
  | decimal h hf =>
    refine hlast hne fun hn => ?_
    rcases List.mem_append.1 hn with hn | hn
    · exact hdigit h hn
    · exact hdigit hf ((List.mem_cons.1 hn).resolve_left (by decide))
  | reserved h | identifier h => exact hlast hne (hword h)
  | @quoted body => exact ⟨'"' :: body, '"', rfl, by decide⟩

/-- **Every token of a source stands somewhere in it.** -/
theorem exists_standsAt {source : String} {t : Token} (h : t ∈ (scan source).tokens) :
    ∃ before after, t.StandsAt source before after := by
  obtain ⟨p, hp, ht⟩ := List.mem_filterMap.1 h
  obtain ⟨earlier, later, hsplit⟩ := List.append_of_mem hp
  exact ⟨_, _, earlier, p, later, hsplit, ht, rfl, rfl⟩

namespace Token.StandsAt

variable {source : String} {t : Token} {before after : List Char}

/-- What stands somewhere in a source is a token of it. -/
theorem mem (h : t.StandsAt source before after) : t ∈ (scan source).tokens := by
  obtain ⟨earlier, p, later, hsplit, ht, -⟩ := h
  refine List.mem_filterMap.2 ⟨p, ?_, ht⟩
  rw [hsplit]
  exact List.mem_append_right _ List.mem_cons_self

/-- The token's text stands between the text before it and the text after it. -/
theorem source_eq (h : t.StandsAt source before after) :
    before ++ t.lexeme.toList ++ after = source.toList := by
  obtain ⟨earlier, p, later, hsplit, ht, rfl, rfl⟩ := h
  have htexts := (texts_place 1 _).trans (flatMap_lexemes source.toList)
  rw [show place 1 (lexemes source.toList) = _ from hsplit] at htexts
  rw [(Placed.lexeme_of_token? ht).1, String.toList_ofList, ← htexts]
  simp [Placed.texts]

/-- The text up to the token's last character, which is no newline. -/
theorem exists_take (h : t.StandsAt source before after) :
    ∃ body c, t.lexeme.toList = body ++ [c] ∧ c ≠ '\n' ∧
      source.toList.take (t.lastPosition before) = before ++ body ∧
      source.toList[t.lastPosition before]? = some c := by
  obtain ⟨_, hspelled⟩ := scanned_isSpelled h.mem
  obtain ⟨body, c, hbody, hc⟩ := hspelled.exists_last
  have hlast : t.lastPosition before = (before ++ body).length := by
    rw [lastPosition, ← String.length_toList, hbody]
    simp only [List.length_append, List.length_singleton]
    omega
  have hsource : source.toList = (before ++ body) ++ c :: after := by
    rw [← h.source_eq, hbody]
    simp
  refine ⟨body, c, hbody, hc, ?_, ?_⟩
  · rw [hlast, hsource, List.take_left]
  · rw [hlast, hsource, List.getElem?_append_right (Nat.le_refl _), Nat.sub_self]
    rfl

/-- **The line of a token is the line on which its lexeme ends.** -/
theorem line_eq (h : t.StandsAt source before after) :
    t.line = lineOf source.toList (t.lastPosition before) := by
  obtain ⟨body, c, hbody, hc, htake, -⟩ := h.exists_take
  obtain ⟨earlier, p, later, hsplit, ht, rfl, rfl⟩ := h
  obtain ⟨hlexeme, hline⟩ := Placed.lexeme_of_token? ht
  have htext : p.lexeme.text = body ++ [c] := by
    rw [← hbody, hlexeme, String.toList_ofList]
  rw [lineOf, htake, hline, lastLine_eq hsplit, htext]
  simp [newlines, hc]

end Token.StandsAt

end ScopedScript

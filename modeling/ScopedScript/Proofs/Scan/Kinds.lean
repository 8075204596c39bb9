import ScopedScript.Token.Scan

/-!
# The kinds of scanned tokens

A token that is scanned from a source is a symbol, a string, a number or a word; a word has
the kind of the reserved word it spells, and else is an identifier.  So no scanned token
marks the end of the input, and a token of the kind of a reserved word spells that word.

## Main results

* `scanned_kind`, `scanned_reserved`: what kind a scanned token has.
* `scanned_ne_eof`, `scanned_this`: no end-of-input token is scanned, and `this` is spelled
  as it should be.
-/

namespace ScopedScript

/-- The kinds of the tokens that are spelled with symbols. -/
def symbolKinds : List TokenKind :=
  [.leftParen, .rightParen, .leftBrace, .rightBrace, .comma, .dot, .minus, .plus, .semicolon,
    .star, .question, .colon, .bang, .bangEqual, .equal, .equalEqual, .greater, .greaterEqual,
    .less, .lessEqual, .slash]

theorem singleKind?_mem {c : Char} {kind : TokenKind} (h : singleKind? c = some kind) :
    kind ∈ symbolKinds := by
  unfold singleKind? at h
  split at h <;> cases h <;> decide

theorem doubleKinds?_mem {c : Char} {single double : TokenKind}
    (h : doubleKinds? c = some (single, double)) :
    single ∈ symbolKinds ∧ double ∈ symbolKinds := by
  unfold doubleKinds? at h
  split at h <;> cases h <;> decide

theorem cutSlash_symbol {chars : List Char} {kind : TokenKind}
    (h : (cutSlash chars).shape = .symbol kind) : kind = .slash := by
  fun_cases cutSlash chars <;> simp_all [cutSlash]

theorem cutQuoted_ne_symbol (chars : List Char) (kind : TokenKind) :
    (cutQuoted chars).shape ≠ .symbol kind := by
  unfold cutQuoted
  split <;> simp

/-- A symbol has the kind of a symbol. -/
theorem cut_symbol {c : Char} {chars : List Char} {kind : TokenKind}
    (h : (cut c chars).shape = .symbol kind) : kind ∈ symbolKinds := by
  unfold cut at h
  split at h
  · rename_i hs
    cases h
    exact singleKind?_mem hs
  · split at h
    · rename_i hd
      split at h <;> cases h
      · exact (doubleKinds?_mem hd).2
      · exact (doubleKinds?_mem hd).1
    · split at h
      · rw [cutSlash_symbol h]
        decide
      · split at h
        · cases h
        · split at h
          · cases h
          · split at h
            · exact absurd h (cutQuoted_ne_symbol _ _)
            · split at h
              · simp [cutNumeral] at h
              · split at h <;> cases h

theorem lexemes_symbol {bound : Nat} {chars : List Char} {lexeme : Lexeme} {kind : TokenKind}
    (hl : lexeme ∈ lexemesWithin bound chars) (h : lexeme.shape = .symbol kind) :
    kind ∈ symbolKinds := by
  fun_induction lexemesWithin bound chars with
  | case1 | case2 => simp at hl
  | case3 bound c chars head ih =>
    rcases List.mem_cons.1 hl with rfl | hl
    · exact cut_symbol h
    · exact ih hl

theorem lexeme_mem_of_mem_place {line : Nat} {lexemes : List Lexeme} {p : Placed}
    (h : p ∈ place line lexemes) : p.lexeme ∈ lexemes := by
  induction lexemes generalizing line with
  | nil => simp [place] at h
  | cons lexeme rest ih =>
    rcases List.mem_cons.1 h with rfl | h
    · exact List.mem_cons_self
    · exact List.mem_cons_of_mem _ (ih h)

/-- **What kind a scanned token has.** -/
theorem scanned_kind {source : String} {t : Token} (h : t ∈ (scan source).tokens) :
    t.kind ∈ symbolKinds ∨ t.kind = .string ∨ t.kind = .number ∨
      t.kind = (keyword? t.lexeme).getD .identifier := by
  obtain ⟨p, hp, ht⟩ := List.mem_filterMap.1 h
  have hl := lexeme_mem_of_mem_place hp
  obtain ⟨⟨kind, literal⟩, hm, rfl⟩ := Option.map_eq_some_iff.1 ht
  unfold Shape.token? at hm
  split at hm
  · rename_i hs
    cases hm
    exact .inl (lexemes_symbol hl hs)
  · cases hm
    exact .inr (.inl rfl)
  · obtain ⟨value, -, hv⟩ := Option.map_eq_some_iff.1 hm
    cases hv
    exact .inr (.inr (.inl rfl))
  · cases hm
    exact .inr (.inr (.inr rfl))
  · cases hm

theorem keyword?_mem {word : String} {kind : TokenKind} (h : keyword? word = some kind) :
    (word, kind) ∈ keywords := by
  unfold keyword? at h
  obtain ⟨l₁, l₂, hl, -⟩ := List.lookup_eq_some_iff.1 h
  rw [hl]
  simp

/-- A token of another kind spells the reserved word of that kind. -/
theorem scanned_reserved {source : String} {t : Token} {kind : TokenKind}
    (h : t ∈ (scan source).tokens) (ht : t.kind = kind)
    (hk : kind ∉ .string :: .number :: .identifier :: symbolKinds) :
    (t.lexeme, kind) ∈ keywords := by
  -- of the kinds a scanned token may have, only that of its word is left
  simp only [List.mem_cons, not_or] at hk
  obtain ⟨hs, hn, hi, hk⟩ := hk
  rcases scanned_kind h with h | h | h | h <;> rw [ht] at h
  · exact absurd h hk
  · exact absurd h hs
  · exact absurd h hn
  · cases hw : keyword? t.lexeme with
    | none =>
      rw [hw] at h
      exact absurd h hi
    | some word =>
      rw [hw] at h
      exact h ▸ keyword?_mem hw

/-- No token that marks the end of the input is scanned. -/
theorem scanned_ne_eof {source : String} {t : Token} (h : t ∈ (scan source).tokens) :
    t.kind ≠ .eof := by
  intro he
  have hm := scanned_reserved h he (by decide)
  simp [keywords] at hm

/-- The reserved word `this` is spelled so. -/
theorem scanned_this {source : String} {t : Token} (h : t ∈ (scan source).tokens)
    (ht : t.kind = .this) : t.lexeme = "this" := by
  have hm := scanned_reserved h ht (by decide)
  simpa [keywords] using hm

end ScopedScript

import ScopedScript.Proofs.Grammar.Complete
import ScopedScript.Proofs.Grammar.NearestElse
import ScopedScript.Token.Scan

/-!
# The readers accept exactly the grammar

A program is read without an error exactly when its tokens are a program of the grammar as
it is written, and the statements are then those that the grammar assigns where each `else`
belongs to the nearest open `if`.  The same holds of an expression that is the whole input.

Both are about token lists without an end-of-input token, at which the readers would stop.

## Main definitions

* `Reading.Accepts`: a program was read without an error, with these statements.

## Main results

* `readProgram_accepts_iff`, `readExpression_eq_ok_iff`: which trees are read.
* `exists_nearest_iff_exists_derives`: giving each `else` to the nearest `if` loses no token
  list.
* `readers_recognize_grammar`: the readers accept exactly the grammar.
-/

namespace ScopedScript

/-- A program was read without an error, and these are its statements. -/
def Reading.Accepts (reading : Reading) (statements : List Stmt) : Prop :=
  reading.halt = none ∧ reading.errors = [] ∧ reading.statements = statements

variable {tokens : List Token}

theorem eq_nil_of_atEnd {ts : List Token} (ht : ∀ t ∈ ts, t.kind ≠ .eof)
    (h : atEnd ts = true) : ts = [] := by
  cases ts with
  | nil => rfl
  | cons t ts => exact absurd (beq_iff_eq.1 h) (ht t List.mem_cons_self)

/-! ## Programs -/

/-- A program that is read without an error is read to its end: each declaration takes a
token, so the bound on their number is not reached before. -/
theorem rest_readProgramWithin {depth bound : Nat} (ht : ∀ t ∈ tokens, t.kind ≠ .eof)
    (hb : tokens.length ≤ bound) (hh : (readProgramWithin depth bound tokens).halt = none)
    (he : (readProgramWithin depth bound tokens).errors = []) :
    (readProgramWithin depth bound tokens).rest = [] := by
  induction bound generalizing tokens with
  | zero =>
    rw [readProgramWithin]
    exact List.length_eq_zero_iff.1 (Nat.le_zero.1 hb)
  | succ bound ih =>
    rw [readProgramWithin] at hh he ⊢
    by_cases ha : atEnd tokens = true
    · rw [if_pos ha]
      exact eq_nil_of_atEnd ht ha
    · rw [if_neg ha] at hh he ⊢
      cases hd : Reader.declaration depth tokens with
      | ok s mid =>
        rw [hd] at hh he
        obtain ⟨us, rfl, d, hu, -⟩ := (Reader.sound depth).declaration hd
        have hp : 0 < us.length := Begins.length_pos hu.starts
        rw [List.length_append] at hb
        exact ih (fun t hm => ht t (List.mem_append_right us hm)) (by omega) hh he
      | error failure mid =>
        rw [hd] at hh he
        cases failure with
        | error e => simp at he
        | halt h => simp at hh

/-- **Which programs are read, and as what.** -/
theorem readProgram_accepts_iff (ht : ∀ t ∈ tokens, t.kind ≠ .eof) {ss : List Stmt} :
    (readProgram tokens).Accepts ss ↔ Derives true (.declarations ss) tokens := by
  constructor
  · rintro ⟨hh, he, rfl⟩
    obtain ⟨used, hu, hd⟩ := readProgramWithin_sound hh he
    rw [rest_readProgramWithin ht (Nat.le_refl _) hh he, List.append_nil] at hu
    rwa [← hu] at hd
  · intro h
    rw [readProgram_complete h]
    exact ⟨rfl, rfl, rfl⟩

/-- **Which expressions are read, and as what.** -/
theorem readExpression_eq_ok_iff (ht : ∀ t ∈ tokens, t.kind ≠ .eof) {e : Expr} :
    (∃ rest, readExpression tokens = .ok e rest) ↔ Derives true (.expression e) tokens := by
  constructor
  · rintro ⟨rest, h⟩
    obtain ⟨used, rfl, ha, hd⟩ := readExpression_sound h
    obtain rfl := eq_nil_of_atEnd (fun t hm => ht t (List.mem_append_right used hm)) ha
    rwa [List.append_nil]
  · exact fun h => ⟨[], readExpression_complete h⟩

/-! ## The grammar as it is written -/

/-- A derivation in which each `else` belongs to the nearest `if` is a derivation. -/
theorem Derives.plain {p : Phrase} {ts : List Token} (h : Derives true p ts) :
    Derives false p ts := by
  induction h with
  -- the rule for `else` is the only one that asks for more
  | ifElse hk hl _ hr _ _ he _ ihc iha ihb => exact .ifElse hk hl ihc hr iha (by simp) he ihb
  | _ => grind [Derives]

theorem exists_nearest_iff_exists_derives :
    (∃ ss, Derives true (.declarations ss) tokens) ↔
      ∃ ss, Derives false (.declarations ss) tokens :=
  ⟨fun ⟨ss, h⟩ => ⟨ss, h.plain⟩, fun ⟨_, h⟩ => h.regroups⟩

theorem exists_nearest_expression_iff_exists_derives :
    (∃ e, Derives true (.expression e) tokens) ↔ ∃ e, Derives false (.expression e) tokens :=
  ⟨fun ⟨e, h⟩ => ⟨e, h.plain⟩, fun ⟨_, h⟩ => h.regroups⟩

/-- **The readers accept exactly the grammar.**  A program is read without an error exactly
when the grammar as it is written derives its tokens, and its statements are then the ones
derived where each `else` belongs to the nearest open `if`; an expression likewise. -/
theorem readers_recognize_grammar (tokens : List Token) (ht : ∀ t ∈ tokens, t.kind ≠ .eof) :
    ((∃ ss, (readProgram tokens).Accepts ss) ↔
        ∃ ss, Derives false (.declarations ss) tokens) ∧
      (∀ ss, (readProgram tokens).Accepts ss ↔ Derives true (.declarations ss) tokens) ∧
      ((∃ e rest, readExpression tokens = .ok e rest) ↔
        ∃ e, Derives false (.expression e) tokens) ∧
      ∀ e, (∃ rest, readExpression tokens = .ok e rest) ↔
        Derives true (.expression e) tokens := by
  refine ⟨?_, fun ss => readProgram_accepts_iff ht, ?_, fun e => readExpression_eq_ok_iff ht⟩
  · simp only [readProgram_accepts_iff ht]
    exact exists_nearest_iff_exists_derives
  · simp only [readExpression_eq_ok_iff ht]
    exact exists_nearest_expression_iff_exists_derives

/-- An `else` after two open `if`s belongs to the second. -/
theorem readers_recognize_second_if :
    (∀ t ∈ (scan "if (a) if (b) print a; else print b;").tokens, t.kind ≠ .eof) ∧
      ∃ a b : Expr, Derives true
        (.declarations [.branch a (.branch b (.print a) (some (.print b))) none])
        (scan "if (a) if (b) print a; else print b;").tokens := by
  have hs : (scan "if (a) if (b) print a; else print b;").tokens =
      [⟨.if, "if", .absent, 1⟩, ⟨.leftParen, "(", .absent, 1⟩, .ident "a" 1,
        ⟨.rightParen, ")", .absent, 1⟩, ⟨.if, "if", .absent, 1⟩, ⟨.leftParen, "(", .absent, 1⟩,
        .ident "b" 1, ⟨.rightParen, ")", .absent, 1⟩, ⟨.print, "print", .absent, 1⟩,
        .ident "a" 1, ⟨.semicolon, ";", .absent, 1⟩, ⟨.else, "else", .absent, 1⟩,
        ⟨.print, "print", .absent, 1⟩, .ident "b" 1, ⟨.semicolon, ";", .absent, 1⟩] := by
    decide +kernel
  have ht : ∀ t ∈ (scan "if (a) if (b) print a; else print b;").tokens, t.kind ≠ .eof := by
    rw [hs]
    decide
  refine ⟨ht, .variable (.ident "a" 1) none, .variable (.ident "b" 1) none, ?_⟩
  refine ((readers_recognize_grammar _ ht).2.1 _).1 ?_
  rw [hs]
  exact ⟨rfl, rfl, rfl⟩

end ScopedScript

import ScopedScript.Proofs.Grammar.Recognition
import ScopedScript.Proofs.Grammar.Stops

/-!
# Where the statements of a program begin

A program is read declaration by declaration, and after an error reading goes on at the next
statement.  How much comes after a statement makes no difference to the statement: the bounds with
which a program is read are there only so that reading ends, and no reader looks past the end of
its own phrase but for an `else`.  So a program that is read without an error may have any tokens
after it, right or wrong, that do not begin with `else`: its statements are the same, and what comes
after is read as it would be by itself.

## Main results

* `readProgram_of_ok`, `readProgram_of_error`, `readProgram_of_halt`, `readProgram_of_atEnd`: a
  program in terms of its first declaration and the program after it, without the bounds.
* `readProgram_append`: boundaries of statements are stable under concatenation.
-/

namespace ScopedScript

variable {tokens rest left : List Token}

/-! ## Going on after an error -/

theorem leads_nextStatement (previous : Token) (tokens : List Token) :
    Leads tokens (nextStatement previous tokens) := by
  induction tokens generalizing previous with
  | nil => exact .refl []
  | cons t tokens ih =>
    rw [nextStatement]
    split
    · exact .refl _
    · next h => exact .trans (.cons (fun ht => h (.inl ht)) tokens) (ih t)

theorem leads_synchronize (tokens : List Token) : Leads tokens (synchronize tokens) := by
  cases tokens with
  | nil => exact .refl []
  | cons t tokens =>
    rw [synchronize]
    split
    · exact .refl _
    · next h => exact .trans (.cons h tokens) (leads_nextStatement t tokens)

/-- **At least one token is passed over** after a declaration that was not read, by the declaration
or after it. -/
theorem length_synchronize_lt (ha : atEnd tokens = false) (h : Leads tokens left) :
    (synchronize left).length < tokens.length := by
  obtain ⟨passed, rfl, -⟩ := h
  cases passed with
  | cons t passed =>
    have hl := (leads_synchronize left).length_le
    simp only [List.length_append, List.length_cons]
    omega
  -- the declaration took nothing, but then the next token is passed over
  | nil =>
    cases left with
    | nil => cases ha
    | cons t left =>
      have hl := (leads_nextStatement t left).length_le
      have ht : t.kind ≠ .eof := by simpa [atEnd] using ha
      rw [synchronize, if_neg ht, List.nil_append, List.length_cons]
      omega

/-! ## Programs without bounds -/

/-- A declaration takes a token. -/
theorem length_lt_of_readDeclaration {s : Stmt} (h : readDeclaration tokens = .ok s rest) :
    rest.length < tokens.length := by
  obtain ⟨used, rfl, d, hd, -⟩ := (Reader.sound _).declaration h
  have hp : 0 < used.length := Begins.length_pos hd.starts
  rw [List.length_append]
  omega

theorem readProgramWithin_of_atEnd (h : atEnd tokens = true) (depth bound : Nat) :
    readProgramWithin depth bound tokens = ⟨[], [], tokens, none⟩ := by
  cases bound with
  | zero => rfl
  | succ bound => rw [readProgramWithin, if_pos h]

/-- **The bounds make no difference**, if they go with the number of tokens. -/
theorem readProgramWithin_congr {depth depth' bound bound' : Nat}
    (hd : 8 * tokens.length + 6 ≤ depth) (hd' : 8 * tokens.length + 6 ≤ depth')
    (hb : tokens.length ≤ bound) (hb' : tokens.length ≤ bound') :
    readProgramWithin depth bound tokens = readProgramWithin depth' bound' tokens := by
  induction bound generalizing bound' tokens with
  | zero =>
    obtain rfl := List.length_eq_zero_iff.1 (Nat.le_zero.1 hb)
    rw [readProgramWithin_of_atEnd rfl, readProgramWithin_of_atEnd rfl]
  | succ bound ih =>
    cases ha : atEnd tokens with
    | true => rw [readProgramWithin_of_atEnd ha, readProgramWithin_of_atEnd ha]
    | false =>
      have hp : 0 < tokens.length := by cases tokens <;> simp_all [atEnd]
      obtain ⟨bound', rfl⟩ := Nat.exists_eq_succ_of_ne_zero (n := bound') (by omega)
      have ih {more : List Token} (hm : more.length < tokens.length) :
          readProgramWithin depth bound more = readProgramWithin depth' bound' more :=
        ih (by omega) (by omega) (by omega) (by omega)
      rw [readProgramWithin, readProgramWithin, readDeclaration_eq hd, readDeclaration_eq hd', ha,
        if_neg Bool.false_ne_true, if_neg Bool.false_ne_true]
      cases hr : readDeclaration tokens with
      | ok s rest =>
        dsimp only
        rw [ih (length_lt_of_readDeclaration hr)]
      | error failure left =>
        cases failure with
        | halt h => rfl
        | error e =>
          obtain ⟨hs, hl, -⟩ := readDeclaration_blames hr
          dsimp only
          rw [ih (length_synchronize_lt ha (hs.trans hl))]

/-- What is left of a program after its first declaration is a program. -/
theorem readProgramWithin_rest (h : rest.length < tokens.length) :
    readProgramWithin (depthBound tokens) (tokens.length - 1) rest = readProgram rest :=
  readProgramWithin_congr (by unfold depthBound; omega) (by unfold depthBound; omega) (by omega)
    (Nat.le_refl _)

theorem readProgram_unfold (ha : atEnd tokens = false) :
    readProgram tokens = readProgramWithin (depthBound tokens) (tokens.length - 1 + 1) tokens := by
  cases tokens with
  | nil => cases ha
  | cons t tokens => rfl

/-- At the end of the input there is no more of a program. -/
theorem readProgram_of_atEnd (h : atEnd tokens = true) :
    readProgram tokens = ⟨[], [], tokens, none⟩ := readProgramWithin_of_atEnd h _ _

/-- **A declaration and the program after it.** -/
theorem readProgram_of_ok {s : Stmt} (ha : atEnd tokens = false)
    (h : readDeclaration tokens = .ok s rest) :
    readProgram tokens =
      { readProgram rest with statements := s :: (readProgram rest).statements } := by
  change Reader.declaration (depthBound tokens) tokens = _ at h
  rw [readProgram_unfold ha, readProgramWithin, ha, if_neg Bool.false_ne_true, h]
  dsimp only
  rw [readProgramWithin_rest (length_lt_of_readDeclaration h)]

/-- **A declaration that is not read and the program from the next statement on.** -/
theorem readProgram_of_error {e : ParseError} (ha : atEnd tokens = false)
    (h : readDeclaration tokens = .error (.error e) left) :
    readProgram tokens = { readProgram (synchronize left) with
      errors := e :: (readProgram (synchronize left)).errors } := by
  obtain ⟨hs, hl, -⟩ := readDeclaration_blames h
  change Reader.declaration (depthBound tokens) tokens = _ at h
  rw [readProgram_unfold ha, readProgramWithin, ha, if_neg Bool.false_ne_true, h]
  dsimp only
  rw [readProgramWithin_rest (length_synchronize_lt ha (hs.trans hl))]

theorem readProgram_of_halt {halt : ParseHalt} (ha : atEnd tokens = false)
    (h : readDeclaration tokens = .error (.halt halt) left) :
    readProgram tokens = ⟨[], [], left, some halt⟩ := by
  change Reader.declaration (depthBound tokens) tokens = _ at h
  rw [readProgram_unfold ha, readProgramWithin, ha, if_neg Bool.false_ne_true, h]

/-! ## Programs one after the other -/

variable {p q : List Token} {ss : List Stmt}

/-- A program that is derived, with any tokens after it that do not begin with `else`. -/
theorem Derives.readProgram_eq (h : Derives true (.declarations ss) p)
    (hq : ¬ Begins [.else] q) :
    readProgram (p ++ q) =
      { readProgram q with statements := ss ++ (readProgram q).statements } := by
  induction ss generalizing p with
  | nil =>
    cases h
    rfl
  | cons s ss ih =>
    cases h with
    | @moreDeclarations d _ _ ts us hd hs =>
      rw [List.append_assoc]
      -- neither the next declaration nor what comes after the program continues this one
      have hf := Phrase.IsRead.not_begins_followers d hs.starts hq
      have hr : readDeclaration (ts ++ (us ++ q)) = .ok s (us ++ q) :=
        @Derives.isRead _ _ hd (depthBound _) (by simp [depthBound]; omega) (us ++ q) hf
      have hb : Begins declarationStarts ts := hd.starts
      have ha := not_atEnd_of_begins (hb.append (us ++ q)) (by decide)
      rw [readProgram_of_ok ha hr, ih hs]
      rfl

/-- The token that is blamed for an error is the same with tokens before it. -/
theorem ParseError.diagnostic_append (e : ParseError) (p : List Token) (t : Token)
    (q : List Token) : e.diagnostic (p ++ t :: q) = e.diagnostic (t :: q) := by
  have ht : e.token? (p ++ t :: q) = e.token? (t :: q) := by
    unfold token?
    rw [List.getLast?_append, List.getLast?_cons, Option.some_or]
  unfold diagnostic
  rw [ht]

/-- **Boundaries of statements are stable under concatenation.**  A program that is read without
an error may be followed by any tokens that do not begin with `else`, whether they are a program
or not: its statements come first, and then what comes after is read as it would be by itself, with
the same errors at the same tokens. -/
theorem readProgram_append (hp : ∀ t ∈ p, t.kind ≠ .eof) (h : (readProgram p).Accepts ss)
    (hq : ¬ Begins [.else] q) :
    readProgram (p ++ q) =
        { readProgram q with statements := ss ++ (readProgram q).statements } ∧
      (readProgram (p ++ q)).errors.map (·.diagnostic (p ++ q)) =
        (readProgram q).errors.map (·.diagnostic q) := by
  have hd := ((readProgram_accepts_iff hp).1 h).readProgram_eq hq
  refine ⟨hd, ?_⟩
  rw [hd]
  cases q with
  | nil => rfl
  | cons t q =>
    exact List.map_congr_left fun e _ => e.diagnostic_append p t q

/-- After an `if` without `else`, tokens that are no statement: the input ends too early, and the
last token is blamed as it is without the `if`. -/
theorem readProgram_append_print :
    (∀ t ∈ (scan "if (a) print a;").tokens, t.kind ≠ .eof) ∧
      (readProgram (scan "if (a) print a;").tokens).Accepts
        [.branch (.variable (.ident "a" 1) none) (.print (.variable (.ident "a" 1) none)) none] ∧
      ¬ Begins [.else] (scan ") print b").tokens ∧
      (readProgram ((scan "if (a) print a;").tokens ++ (scan ") print b").tokens)).errors.map
          (·.diagnostic ((scan "if (a) print a;").tokens ++ (scan ") print b").tokens)) =
        [.located .parse "Expect expression" 1 ")",
          .located .parse "Expect ';' after value, reached end of input" 1 "b"] := by
  have hp : (scan "if (a) print a;").tokens =
      [⟨.if, "if", .absent, 1⟩, ⟨.leftParen, "(", .absent, 1⟩, .ident "a" 1,
        ⟨.rightParen, ")", .absent, 1⟩, ⟨.print, "print", .absent, 1⟩, .ident "a" 1,
        ⟨.semicolon, ";", .absent, 1⟩] := by
    decide +kernel
  have hq : (scan ") print b").tokens =
      [⟨.rightParen, ")", .absent, 1⟩, ⟨.print, "print", .absent, 1⟩, .ident "b" 1] := by
    decide +kernel
  have ht : ∀ t ∈ (scan "if (a) print a;").tokens, t.kind ≠ .eof := by
    rw [hp]
    decide
  have ha : (readProgram (scan "if (a) print a;").tokens).Accepts
      [.branch (.variable (.ident "a" 1) none) (.print (.variable (.ident "a" 1) none)) none] := by
    rw [hp]
    exact ⟨rfl, rfl, rfl⟩
  have he : ¬ Begins [.else] (scan ") print b").tokens := by
    rw [hq, begins_cons]
    decide
  refine ⟨ht, ha, he, (readProgram_append ht ha he).2.trans ?_⟩
  rw [hq]
  rfl

end ScopedScript

import ScopedScript.Prompt
import ScopedScript.Proofs.Grammar.Following
import ScopedScript.Proofs.Scan.Characters
import ScopedScript.Proofs.Showing

/-!
# The front end looks only at what is there

A parser may be asked for expressions, declarations and programs one after the other, on any token
list and also after it has failed.  Its position never goes back and stays within the list, and
each call ends in a tree or a parse error, with one exception: where the input ends right after a
full parameter list and a comma, the parser asks for a token that is not there.  A scanner never
asks for a character that is not there.  So a run ends for this reason only on a source that ends
in such a parameter list, and so does a line at the prompt whose trouble is passed on.

The exception is real.  It comes up with every source that consists of declarations and the
beginning of a function with such a parameter list.

## Main definitions

* `Parser.Moves`, `Parser.Call.Comes`: how a parser moves, and what a call comes to.
* `EndsUnfinished`: a source that ends in the parameter list of a function.

## Main results

* `Parser.Call.comes`, `Parser.moves_after`: calls one after the other.
* `readProgram_halt`, `Session.respond_passedOn`: when reading halts, and what is then passed on.
* `EndsUnfinished.readSource`: where it does halt.
* `front_end_looks_within`: the front end as a whole.
-/

namespace ScopedScript

namespace Parser

/-! ## Calls of a parser -/

/-- The tokens that a parser has left. -/
def left (p : Parser) : List Token := p.tokens.drop p.current

/-- **How a parser moves**: on the same tokens, not backwards, and not past their end. -/
structure Moves (p q : Parser) : Prop where
  tokens : q.tokens = p.tokens
  forward : p.current ≤ q.current
  within : q.current ≤ q.tokens.length

/-- A parser that moves on twice has moved on. -/
theorem Moves.trans {p q r : Parser} (h : p.Moves q) (h' : q.Moves r) : p.Moves r :=
  ⟨h'.tokens.trans h.tokens, Nat.le_trans h.forward h'.forward, h'.within⟩

/-- **What a call comes to**: an answer or a parse error, as the reader of the tokens left has it.
In a full parameter list at the end of the tokens it may ask for one more token. -/
inductive Call.Comes (call : Call) (p : Parser) : Prop
  | answer {a : Answer} {q : Parser} (hr : call.run p = .ok a q)
    (hread : call.read p.left = .ok a q.left) (hm : p.Moves q)
  | error {e : ParseError} {q : Parser} (hr : call.run p = .error (.error e) q)
    (hread : call.read p.left = .error (.error e) q.left) (hm : p.Moves q)
  | pastEnd {q : Parser} (hr : call.run p = .error .pastEnd q)
    (hread : call.read p.left = .error (.halt .pastEnd) q.left) (hm : p.Moves q)
    (full : InParameters maxArity p.tokens)

theorem between_take_drop {p : Parser} (h : p.current ≤ p.tokens.length) :
    between (p.tokens.take p.current) p.left = p := by
  simp [between, left, Nat.min_eq_left h]

theorem left_between (before rest : List Token) : (between before rest).left = rest := by
  simp [left, between]

theorem moves_between (before used rest : List Token) :
    (between before (used ++ rest)).Moves (between (before ++ used) rest) :=
  ⟨by simp [between], by simp [between], by simp [between]⟩

/-- **One call.** -/
theorem Call.comes (call : Call) {p : Parser} (h : p.current ≤ p.tokens.length) :
    call.Comes p := by
  obtain ⟨before, rest, rfl⟩ : ∃ before rest, p = between before rest :=
    ⟨_, _, (between_take_drop h).symm⟩
  have hf := call.tracks before rest (Nat.le_refl _) trivial
  generalize hp : call.run (between before rest) = x, hr : call.read rest = r at hf
  rw [← left_between before rest] at hr
  cases hf with
  | ok a used left hu _ =>
    subst hu
    exact .answer hp (by rw [hr, left_between]) (moves_between before used left)
  | error e used left hu =>
    subst hu
    exact .error hp (by rw [hr, left_between]) (moves_between before used left)
  | pastEnd hf =>
    refine .pastEnd hp (by rw [hr, left_between]) ?_ hf
    simpa using moves_between before rest []

/-- Whatever is asked of a parser, it moves on. -/
theorem Call.Comes.moves {call : Call} {p : Parser} (h : call.Comes p) :
    p.Moves (p.called call) := by
  unfold called
  cases h with
  | answer hr _ hm | error hr _ hm | pastEnd hr _ hm _ =>
    rw [hr]
    exact hm

/-- **Calls one after the other**, whether they fail or not. -/
theorem moves_after {p : Parser} (h : p.current ≤ p.tokens.length) (calls : List Call) :
    p.Moves (p.after calls) := by
  induction calls generalizing p with
  | nil => exact ⟨rfl, Nat.le_refl _, h⟩
  | cons call calls ih =>
    have hm := (call.comes h).moves
    exact hm.trans (ih hm.within)

end Parser

/-! ## Where reading halts -/

/-- Reading a program halts only where a full parameter list is not finished. -/
theorem readProgram_halt {tokens : List Token} {halt : ParseHalt}
    (h : (readProgram tokens).halt = some halt) :
    halt = .pastEnd ∧ InParameters maxArity tokens := by
  have hd : 8 * tokens.length + 6 ≤ depthBound tokens := by
    unfold depthBound
    omega
  have hf := Parsing.programWithin_tracks hd tokens.length [] tokens (Nat.le_refl _) trivial
  have hr : (readProgram tokens).result = .error (.halt halt) (readProgram tokens).rest := by
    rw [Reading.result, h]
  change Parser.Follow [] tokens _ _ (readProgram tokens).result at hf
  rw [hr] at hf
  generalize Parsing.programWithin (depthBound tokens) tokens.length _ = x,
    (readProgram tokens).rest = rest at hf
  cases hf with
  | pastEnd hf => exact ⟨rfl, hf⟩

variable {source : String}

/-- Loading halts exactly if reading does. -/
theorem loadStatements_eq_halt_iff {tokens : List Token} {halt : ParseHalt} :
    loadStatements tokens = .error (.halt halt) ↔ (readProgram tokens).halt = some halt := by
  unfold loadStatements
  dsimp only
  cases (readProgram tokens).halt with
  | some h => simp
  | none => cases (readProgram tokens).errors <;> simp

/-- **When reading a source halts.** -/
theorem readSource_eq_halt_iff {halt : ParseHalt} :
    readSource source = .error (.halt halt) ↔
      (scan source).errors = [] ∧ (readProgram (scan source).tokens).halt = some halt := by
  cases hs : (scan source).errors.isEmpty with
  | false =>
    have he : (scan source).errors ≠ [] := fun he => by simp [he] at hs
    rw [readSource_of_errors hs]
    simp [he]
  | true =>
    rw [readSource_of_scanned hs, loadStatements_eq_halt_iff]
    simp [List.isEmpty_iff.1 hs]

/-- A run that halts has not got beyond reading. -/
theorem readSource_of_run {limits : Limits} {machine machine' : Machine} {halt : ParseHalt}
    (h : run limits source machine = .error (.halt halt) machine') :
    readSource source = .error (.halt halt) := by
  rw [run_eq] at h
  cases hr : readSource source with
  | error failure =>
    rw [show loadTokens source >>= loadStatements = _ from hr] at h
    cases h
    rfl
  | ok statements =>
    rw [show loadTokens source >>= loadStatements = _ from hr] at h
    dsimp only at h
    split at h
    · cases h
    · change EStateM.adaptExcept RunFailure.stop _ machine = _ at h
      unfold EStateM.adaptExcept at h
      split at h <;> cases h

namespace Session

/-- A session halts only if reading the source does. -/
theorem readSource_of_run {session session' : Session} {halt : ParseHalt}
    (h : session.run source = .error (.halt halt) session') :
    readSource source = .error (.halt halt) := by
  unfold run at h
  dsimp only at h
  split at h
  · cases h
  · next failure machine hs =>
    cases h
    rcases dump_cases session.showTokens session.showTrees source with ⟨halt', hr, hd⟩ | hd
    · rw [bind_eq_error_iff.2 (.inl (hd _))] at hs
      cases hs
      exact hr
    · rw [bind_of_ok (hd _)] at hs
      exact ScopedScript.readSource_of_run hs

/-- Only what is unknown to a reporter is raised. -/
theorem handle_raised {reporter : Reporter} {trouble : Trouble}
    (h : (reporter.handle trouble).2 = .raised) :
    ∃ description, trouble = .unknown description := by
  unfold Reporter.handle at h
  dsimp only at h
  split at h
  · cases h
  · split at h
    · exact ⟨_, rfl⟩
    · cases h

/-- Only a halt past the last token is unknown to a reporter. -/
theorem trouble_unknown {failure : RunFailure} {description : String}
    (h : failure.trouble = .unknown description) : failure = .halt .pastEnd := by
  unfold RunFailure.trouble at h
  split at h
  · cases h
  · split at h
    · rfl
    · cases h
    · cases h

/-- **What is passed on at the prompt** comes from a line of code whose reading halts. -/
theorem respond_passedOn {session : Session} {line : String} {trouble : Trouble}
    (h : (session.respond line).1.passedOn = some trouble) :
    ∃ source, Command.ofLine line = .code source ∧
      readSource source = .error (.halt .pastEnd) := by
  unfold respond at h
  cases hc : Command.ofLine line with
  | code source =>
    refine ⟨source, rfl, ?_⟩
    rw [hc] at h
    dsimp only at h
    unfold respondTo at h
    split at h
    · cases h
    · next failure session' hr =>
      dsimp only at h
      split at h
      · next he =>
        obtain ⟨description, hd⟩ := handle_raised he
        obtain rfl := trouble_unknown hd
        exact readSource_of_run hr
      · cases h
  | _ =>
    rw [hc] at h
    cases h

end Session

/-! ## Where reading does halt -/

/-- **The beginning of a function**, up to the comma after the last parameter that it may have. -/
def UnfinishedFunction (tokens : List Token) : Prop :=
  ∃ keyword name opening pairs, tokens = keyword :: name :: opening :: namesWithCommas pairs ∧
    keyword.kind = .fun ∧ name.kind = .identifier ∧ opening.kind = .leftParen ∧ AreNames pairs ∧
      pairs.length = maxArity

/-- **A source that ends in the beginning of a function**, after declarations. -/
def EndsUnfinished (source : String) : Prop :=
  (scan source).errors = [] ∧ ∃ statements before rest,
    (scan source).tokens = before ++ rest ∧ Derives true (.declarations statements) before ∧
      UnfinishedFunction rest

/-- As many parameters as there is room for, and nothing after the last comma. -/
theorem parameterNames_halts (owner : Owner) {pairs : List (Token × Token)} (hp : AreNames pairs) :
    Reader.parameterNames owner pairs.length (namesWithCommas pairs) =
      .error (.halt .pastEnd) [] := by
  induction pairs with
  | nil => rfl
  | cons pair pairs ih =>
    obtain ⟨hn, hc⟩ := hp pair List.mem_cons_self
    have ih := ih fun p hm => hp p (List.mem_cons_of_mem _ hm)
    change Reader.parameterNames owner (pairs.length + 1)
      (pair.1 :: pair.2 :: namesWithCommas pairs) = _
    rw [Reader.parameterNames, bind_of_ok (Reader.expect_cons hn (by decide)),
      bind_of_ok (Reader.accept_cons hc (by decide)), if_pos rfl, bind_eq_error_iff.2 (.inl ih)]

/-- Parameters that go on past the last one allowed, and then end, halt the reader. -/
theorem parameters_halts (owner : Owner) {opening : Token} {pairs : List (Token × Token)}
    (ho : opening.kind = .leftParen) (hp : AreNames pairs) (hl : pairs.length = maxArity) :
    Reader.parameters owner (opening :: namesWithCommas pairs) = .error (.halt .pastEnd) [] := by
  have hb : ¬ Begins [.rightParen] (namesWithCommas pairs) := by
    cases pairs with
    | nil => exact id
    | cons pair pairs => simp [namesWithCommas, (hp pair List.mem_cons_self).1]
  have hx := parameterNames_halts owner hp
  rw [hl] at hx
  rw [Reader.parameters, bind_of_ok (Reader.expect_cons ho (by decide)),
    bind_of_ok (Reader.nextIs_of_not_begins hb (by decide)), if_neg Bool.false_ne_true,
    bind_eq_error_iff.2 (.inl hx)]

namespace UnfinishedFunction

variable {tokens : List Token}

theorem begins (h : UnfinishedFunction tokens) : Begins [.fun] tokens := by
  obtain ⟨keyword, name, opening, pairs, rfl, hk, -⟩ := h
  simp [hk]

/-- A function that ends there halts the reader of declarations. -/
theorem declaration_halts (h : UnfinishedFunction tokens) (depth : Nat) :
    Reader.declaration (depth + 1) tokens = .error (.halt .pastEnd) [] := by
  have hc : ¬ Begins [.class] tokens := not_begins_of_begins h.begins (by decide)
  obtain ⟨keyword, name, opening, pairs, rfl, hk, hn, ho, hp, hl⟩ := h
  have hf : Reader.startsFunction (keyword :: name :: opening :: namesWithCommas pairs) = true := by
    simp [Reader.startsFunction, hk, hn]
  have hx : Reader.function (Reader.declaration depth) .function
      (name :: opening :: namesWithCommas pairs) = .error (.halt .pastEnd) [] := by
    rw [Reader.function, bind_of_ok (Reader.expect_cons hn (by decide)),
      bind_eq_error_iff.2 (.inl (parameters_halts _ ho hp hl))]
  rw [Reader.declaration, bind_of_ok (Reader.accept_of_not_begins hc (by decide)),
    if_neg Bool.false_ne_true, bind_of_ok (get_eq_ok_iff.2 ⟨rfl, rfl⟩), if_pos hf,
    bind_of_ok Reader.skip_cons, bind_eq_error_iff.2 (.inl hx)]

/-- Declarations before it are read first. -/
theorem readProgramWithin_halts (h : UnfinishedFunction tokens) {before : List Token}
    {ss : List Stmt} (hs : Derives true (.declarations ss) before) {depth bound : Nat}
    (hd : 8 * before.length < depth) (hb : before.length < bound) :
    (readProgramWithin depth bound (before ++ tokens)).halt = some .pastEnd := by
  induction ss generalizing before bound with
  | nil =>
    cases hs
    obtain ⟨depth, rfl⟩ := Nat.exists_eq_succ_of_ne_zero (n := depth) (by omega)
    obtain ⟨bound, rfl⟩ := Nat.exists_eq_succ_of_ne_zero (n := bound) (by omega)
    rw [List.nil_append, readProgramWithin, not_atEnd_of_begins h.begins (by decide),
      if_neg Bool.false_ne_true, h.declaration_halts]
  | cons s ss ih =>
    cases hs with
    | @moreDeclarations d _ _ ts us hdecl hrest =>
      simp only [List.length_append] at hd hb
      have he : ¬ Begins [.else] tokens := not_begins_of_begins h.begins (by decide)
      have hf := Phrase.IsRead.not_begins_followers d hrest.starts he
      have hm := @Derives.isRead _ _ hdecl depth (by omega) (us ++ tokens) hf
      have hstart : Begins declarationStarts ts := hdecl.starts
      have hp := hstart.length_pos
      obtain ⟨bound, rfl⟩ := Nat.exists_eq_succ_of_ne_zero (n := bound) (by omega)
      rw [List.append_assoc, readProgramWithin,
        not_atEnd_of_begins (hstart.append _) (by decide), if_neg Bool.false_ne_true, hm]
      exact ih hrest (by omega) (by omega)

end UnfinishedFunction

/-- **A source that ends in the beginning of a function is read until it halts.** -/
theorem EndsUnfinished.readSource (h : EndsUnfinished source) :
    readSource source = .error (.halt .pastEnd) := by
  obtain ⟨hs, ss, before, rest, ht, hd, hu⟩ := h
  refine readSource_eq_halt_iff.2 ⟨hs, ?_⟩
  have hp := hu.begins.length_pos
  rw [ht, readProgram]
  refine hu.readProgramWithin_halts hd ?_ ?_
  · unfold depthBound
    simp only [List.length_append]
    omega
  · simp only [List.length_append]
    omega

/-- A session halts if reading the source does. -/
theorem Session.run_of_halt {halt : ParseHalt}
    (h : ScopedScript.readSource source = .error (.halt halt)) (session : Session) :
    ∃ machine, session.run source = .error (.halt halt)
      { session with
        machine := machine
        reporter := session.reporter.register (some session.path) source } := by
  have hs : ∃ machine, (dump session.showTokens session.showTrees source >>= fun _ =>
      ScopedScript.run session.limits source) session.machine = .error (.halt halt) machine := by
    rcases dump_cases session.showTokens session.showTrees source with ⟨halt', hr, hd⟩ | hd
    · obtain rfl : halt' = halt := by simpa [hr] using h
      exact ⟨_, bind_eq_error_iff.2 (.inl (hd _))⟩
    · exact ⟨_, (bind_of_ok (hd _)).trans (run_of_readSource_error h)⟩
  obtain ⟨machine, hs⟩ := hs
  refine ⟨machine, ?_⟩
  unfold Session.run
  dsimp only
  rw [hs]

/-- At the prompt the trouble is passed on. -/
theorem EndsUnfinished.respond (h : EndsUnfinished source) {session : Session} {line : String}
    (hf : session.reporter.fatal = false) (hc : Command.ofLine line = .code source) :
    (session.respond line).1.passedOn = some (RunFailure.halt .pastEnd).trouble := by
  obtain ⟨machine, hr⟩ := session.run_of_halt h.readSource
  have he (reporter : Reporter) (hf : reporter.fatal = false) :
      (reporter.handle (RunFailure.halt .pastEnd).trouble).2 = .raised := by
    unfold Reporter.handle
    dsimp only
    rw [hf]
    rfl
  unfold Session.respond
  rw [hc]
  dsimp only
  unfold Session.respondTo
  rw [hr]
  exact if_pos (he _ hf)

/-- The text of `count` names, each with a comma. -/
def openNames (count : Nat) : List Char := (List.replicate count ['a', ',']).flatten

/-- A function that ends after `count` parameters, each with a comma. -/
def openFunction (count : Nat) : String :=
  .ofList ('f' :: 'u' :: 'n' :: ' ' :: 'f' :: '(' :: openNames count)

/-- The tokens of one of the names and of its comma. -/
def openPair : Token × Token := (.ident "a" 1, ⟨.comma, ",", .absent, 1⟩)

/-- The lexemes of a source are the piece cut off first and the lexemes of the rest. -/
theorem lexemes_of_cut {c : Char} {chars taken rest : List Char} {shape : Shape}
    (h : cut c chars = ⟨shape, taken, rest⟩) :
    lexemes (c :: chars) = ⟨shape, c :: taken⟩ :: lexemes rest := by
  rw [lexemes_cons, h]

theorem lexemes_openNames_succ (count : Nat) :
    lexemes (openNames (count + 1)) =
      ⟨.word, ['a']⟩ :: ⟨.symbol .comma, [',']⟩ :: lexemes (openNames count) := by
  calc lexemes ('a' :: ',' :: openNames count)
      = ⟨.word, ['a']⟩ :: lexemes (',' :: openNames count) := lexemes_of_cut rfl
    _ = _ := congrArg _ (lexemes_of_cut rfl)

theorem lexemes_openFunction (count : Nat) :
    lexemes (openFunction count).toList =
      ⟨.word, ['f', 'u', 'n']⟩ :: ⟨.blank, [' ']⟩ :: ⟨.word, ['f']⟩ ::
        ⟨.symbol .leftParen, ['(']⟩ :: lexemes (openNames count) := by
  rw [openFunction, String.toList_ofList]
  calc lexemes ('f' :: 'u' :: 'n' :: ' ' :: 'f' :: '(' :: openNames count)
      = ⟨.word, ['f', 'u', 'n']⟩ :: lexemes (' ' :: 'f' :: '(' :: openNames count) :=
        lexemes_of_cut rfl
    _ = _ :: ⟨.blank, [' ']⟩ :: lexemes ('f' :: '(' :: openNames count) :=
        congrArg _ (lexemes_of_cut rfl)
    _ = _ :: _ :: ⟨.word, ['f']⟩ :: lexemes ('(' :: openNames count) :=
        congrArg (_ :: _ :: ·) (lexemes_of_cut rfl)
    _ = _ := congrArg (_ :: _ :: _ :: ·) (lexemes_of_cut rfl)

theorem tokens_openNames (count : Nat) :
    (place 1 (lexemes (openNames count))).filterMap Placed.token? =
      namesWithCommas (.replicate count openPair) := by
  have ha : Placed.token? ⟨⟨.word, ['a']⟩, 1, 1⟩ = some openPair.1 := by decide +kernel
  have hc : Placed.token? ⟨⟨.symbol .comma, [',']⟩, 1, 1⟩ = some openPair.2 := by decide +kernel
  induction count with
  | zero => rfl
  | succ count ih =>
    rw [lexemes_openNames_succ]
    change List.filterMap Placed.token? (⟨⟨.word, ['a']⟩, 1, 1⟩ ::
      ⟨⟨.symbol .comma, [',']⟩, 1, 1⟩ :: place 1 (lexemes (openNames count))) = _
    rw [List.filterMap_cons_some ha, List.filterMap_cons_some hc, ih]
    rfl

theorem errors_openNames (count : Nat) :
    (place 1 (lexemes (openNames count))).filterMap Placed.error? = [] := by
  induction count with
  | zero => rfl
  | succ count ih =>
    rw [lexemes_openNames_succ]
    exact ih

/-- The tokens of a function that ends after `count` parameters. -/
theorem scan_openFunction (count : Nat) :
    scan (openFunction count) =
      ⟨⟨.fun, "fun", .absent, 1⟩ :: .ident "f" 1 :: ⟨.leftParen, "(", .absent, 1⟩ ::
        namesWithCommas (.replicate count openPair), []⟩ := by
  have hf : Placed.token? ⟨⟨.word, ['f', 'u', 'n']⟩, 1, 1⟩ = some ⟨.fun, "fun", .absent, 1⟩ := by
    decide +kernel
  have hb : Placed.token? ⟨⟨.blank, [' ']⟩, 1, 1⟩ = none := by decide +kernel
  have hn : Placed.token? ⟨⟨.word, ['f']⟩, 1, 1⟩ = some (.ident "f" 1) := by decide +kernel
  have ho : Placed.token? ⟨⟨.symbol .leftParen, ['(']⟩, 1, 1⟩ =
      some ⟨.leftParen, "(", .absent, 1⟩ := by
    decide +kernel
  have hp : placedLexemes (openFunction count) =
      ⟨⟨.word, ['f', 'u', 'n']⟩, 1, 1⟩ :: ⟨⟨.blank, [' ']⟩, 1, 1⟩ :: ⟨⟨.word, ['f']⟩, 1, 1⟩ ::
        ⟨⟨.symbol .leftParen, ['(']⟩, 1, 1⟩ :: place 1 (lexemes (openNames count)) := by
    rw [placedLexemes, lexemes_openFunction]
    rfl
  unfold scan
  dsimp only
  rw [hp, List.filterMap_cons_some hf, List.filterMap_cons_none hb, List.filterMap_cons_some hn,
    List.filterMap_cons_some ho, tokens_openNames]
  exact congrArg _ (errors_openNames count)

/-- Its beginning is all that it is. -/
theorem unfinishedFunction_openFunction :
    UnfinishedFunction (scan (openFunction maxArity)).tokens := by
  rw [scan_openFunction]
  refine ⟨_, _, _, _, rfl, rfl, rfl, rfl, fun pair hm => ?_, List.length_replicate⟩
  rw [List.eq_of_mem_replicate hm]
  exact ⟨rfl, rfl⟩

theorem endsUnfinished_openFunction : EndsUnfinished (openFunction maxArity) := by
  refine ⟨?_, [], [], _, (List.nil_append _).symm, .noDeclarations,
    unfinishedFunction_openFunction⟩
  rw [scan_openFunction]

theorem trim_openFunction (count : Nat) :
    Text.trim (openFunction (count + 1)) = openFunction (count + 1) := by
  have hl : (openFunction (count + 1)).toList =
      'f' :: ('u' :: 'n' :: ' ' :: 'f' :: '(' :: openNames count ++ ['a'] ++ [',']) := by
    rw [openFunction, String.toList_ofList, openNames, List.replicate_succ', List.flatten_concat]
    simp [openNames]
  have hf : Text.isBlank 'f' = false := by decide
  have hc : Text.isBlank ',' = false := by decide
  rw [Text.trim, hl, List.dropWhile_cons_of_neg (by simp [hf]), ← List.cons_append,
    List.reverse_append, List.reverse_singleton, List.singleton_append,
    List.dropWhile_cons_of_neg (by simp [hc]), List.reverse_cons, List.reverse_reverse,
    List.cons_append, ← hl, String.ofList_toList]

/-- It is code at the prompt. -/
theorem ofLine_openFunction (count : Nat) :
    Command.ofLine (openFunction (count + 1)) = .code (openFunction (count + 1)) := by
  unfold Command.ofLine
  rw [trim_openFunction]
  dsimp only
  rw [openFunction, String.toList_ofList]
  rfl

/-! ## The front end as a whole -/

/-- **The front end looks only at what is there.**  Calls on one parser, one after the other, move
it forward within its tokens, and each comes to an answer or a parse error outside a full parameter
list at the end.  A scanner reads every source to its end and no further.  So only a full parameter
list at the end of a source halts a run, or is the trouble that a prompt passes on; and after
declarations, in a function, it does. -/
theorem front_end_looks_within (tokens : List Token) (calls : List Parser.Call)
    (call : Parser.Call) (source : String) (session : Session) (line : String) :
    ((Parser.start tokens).Moves ((Parser.start tokens).after calls) ∧
        call.Comes ((Parser.start tokens).after calls)) ∧
      Scanning.tokens (.ofSource source) =
        .ok (scan source).tokens
          ⟨source.toList, source.toList.length, source.toList.length, 1 + newlines source.toList,
            (scan source).errors⟩ ∧
      (∀ limits machine halt machine', run limits source machine = .error (.halt halt) machine' →
        halt = .pastEnd ∧ InParameters maxArity (scan source).tokens) ∧
      (∀ trouble, (session.respond line).1.passedOn = some trouble →
        ∃ code, Command.ofLine line = .code code ∧ InParameters maxArity (scan code).tokens) ∧
      (EndsUnfinished source →
        (∀ limits machine, run limits source machine = .error (.halt .pastEnd) machine) ∧
          (session.reporter.fatal = false → Command.ofLine line = .code source →
            (session.respond line).1.passedOn = some (RunFailure.halt .pastEnd).trouble)) := by
  refine ⟨?_, ?_, fun limits machine halt machine' h => ?_, fun trouble h => ?_,
    fun h => ⟨fun limits machine => ?_, h.respond⟩⟩
  · have hm := Parser.moves_after (p := .start tokens) (Nat.zero_le _) calls
    exact ⟨hm, call.comes hm.within⟩
  · simpa [Cursor.reading] using Scanning.tokens_ofSource source
  · exact readProgram_halt (readSource_eq_halt_iff.1 (readSource_of_run h)).2
  · obtain ⟨code, hc, hr⟩ := Session.respond_passedOn h
    exact ⟨code, hc, (readProgram_halt (readSource_eq_halt_iff.1 hr).2).2⟩
  · exact run_of_readSource_error h.readSource

/-- Where the names fill the parameter list, the run halts and the prompt passes that on. -/
theorem openFunction_front_end :
    EndsUnfinished (openFunction maxArity) ∧
      Command.ofLine (openFunction maxArity) = .code (openFunction maxArity) ∧
      run .standard (openFunction maxArity) (.initial (.starting 0)) =
        .error (.halt .pastEnd) (.initial (.starting 0)) ∧
      ((Session.new (.new false false) none false false (.starting 0)).respond
          (openFunction maxArity)).1.passedOn = some (RunFailure.halt .pastEnd).trouble ∧
      InParameters maxArity (scan (openFunction maxArity)).tokens := by
  obtain ⟨-, -, hrun, -, hends⟩ := front_end_looks_within (scan (openFunction maxArity)).tokens
    [.program] .statement (openFunction maxArity)
    (.new (.new false false) none false false (.starting 0)) (openFunction maxArity)
  obtain ⟨hr, hp⟩ := hends endsUnfinished_openFunction
  have hr := hr .standard (.initial (.starting 0))
  have hc := ofLine_openFunction 254
  exact ⟨endsUnfinished_openFunction, hc, hr, hp rfl hc, (hrun _ _ _ _ hr).2⟩

/-- **A run can end past the last token**, and no error is reported then. -/
theorem openFunction_halts :
    run .standard (openFunction maxArity) (.initial (.starting 0)) =
      .error (.halt .pastEnd) (.initial (.starting 0)) :=
  run_of_readSource_error endsUnfinished_openFunction.readSource

end ScopedScript

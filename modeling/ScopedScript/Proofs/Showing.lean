import ScopedScript.Proofs.Distances.Interpreter
import ScopedScript.Proofs.Output
import ScopedScript.Session

/-!
# Showing sources

A session can show the tokens and the trees of each line before it runs the line.  To show trees
it reads the line for a second time.  All that follows from this is that lines are printed first:
running a line does not look at what has been printed, and if reading the line ends in a halt, it
would have ended in the same halt when the line is run.

## Main definitions

* `shown`: what is shown of a source.
* `Seen`, `Session.transcript`: what is seen of lines, one after the other.

## Main results

* `dump_cases`: what showing a source does.
* `dump_then_run`: showing a source before running it only prints lines before those of the run.
* `Session.transcript_showing`: so it is line by line in a session.
-/

namespace ScopedScript

/-! ## What is shown of a source -/

/-- The statements of a source as they are read, if it has no scan or parse error. -/
def readSource (source : String) : Except RunFailure (List Stmt) :=
  loadTokens source >>= loadStatements

/-- The texts of the trees of a source: one for each statement, if it has no scan or parse
error. -/
def treeTexts (source : String) : List String :=
  match readSource source with
  | .ok statements => statements.map Stmt.text
  | .error _ => []

/-- **What is shown of a source**: the texts of its tokens, and those of its trees. -/
def shown (showTokens showTrees : Bool) (source : String) : List String :=
  (if showTokens then (scan source).tokens.map Token.text else []) ++
    if showTrees then treeTexts source else []

/-- The machine, with more lines printed. -/
def Machine.printed (lines : List String) (machine : Machine) : Machine :=
  { machine with output := machine.output ++ lines.toArray }

@[simp]
theorem Machine.printed_nil (machine : Machine) : machine.printed [] = machine := by
  simp [Machine.printed]

@[simp]
theorem Machine.printed_printed (machine : Machine) (lines more : List String) :
    (machine.printed lines).printed more = machine.printed (lines ++ more) := by
  simp [Machine.printed]

/-- Printing texts one after the other. -/
theorem ofEval_forM_print {α : Type} (text : α → String) (xs : List α) (machine : Machine) :
    Run.ofEval (xs.forM fun x => Eval.print (text x)) machine =
      .ok () (machine.printed (xs.map text)) := by
  have hprint : xs.forM (fun x => Eval.print (text x)) machine =
      .ok () (machine.printed (xs.map text)) := by
    induction xs generalizing machine with
    | nil => rw [List.map_nil, Machine.printed_nil]; rfl
    | cons x xs ih =>
      have hfirst : Eval.print (text x) machine = .ok () (machine.printed [text x]) := by
        simp [Eval.print, Machine.printed]
      change (Eval.print (text x) >>= fun _ => xs.forM fun x => Eval.print (text x)) machine = _
      rw [bind_of_ok hfirst, ih, Machine.printed_printed]
      rfl
  change EStateM.adaptExcept RunFailure.stop _ machine = _
  rw [EStateM.adaptExcept, hprint]

variable {source : String} {machine : Machine}

/-- Tokens are shown first. -/
theorem dump_tokens (showTrees : Bool) (source : String) (machine : Machine) :
    dump true showTrees source machine =
      dump false showTrees source (machine.printed ((scan source).tokens.map Token.text)) := by
  unfold dump
  dsimp only
  rw [if_pos rfl, if_neg Bool.false_ne_true, dumpTokens, bind_of_ok (ofEval_forM_print _ _ _)]

theorem dump_nothing (source : String) (machine : Machine) :
    dump false false source machine = .ok () machine := rfl

theorem readSource_of_scanned (h : (scan source).errors.isEmpty = true) :
    readSource source = loadStatements (scan source).tokens := by
  unfold readSource loadTokens
  dsimp only
  rw [h]
  rfl

theorem readSource_of_errors (h : (scan source).errors.isEmpty = false) :
    readSource source = .error (.scan (scan source).errors) := by
  unfold readSource loadTokens
  dsimp only
  rw [h]
  rfl

theorem treeTexts_of_error {failure : RunFailure} (h : readSource source = .error failure) :
    treeTexts source = [] := by
  rw [treeTexts, h]

/-- Shows what was read.  Errors are not shown, and a halt is raised. -/
def showRead : Except RunFailure (List Stmt) → Run Unit
  | .ok statements => Run.ofEval (statements.forM fun statement => Eval.print statement.text)
  | .error (.halt halt) => throw (.halt halt)
  | .error _ => return ()

/-- **Showing trees** is reading the source and showing what was read. -/
theorem dump_trees (source : String) : dump false true source = showRead (readSource source) := by
  cases hs : (scan source).errors.isEmpty with
  | false =>
    rw [readSource_of_errors hs]
    unfold dump
    dsimp only
    rw [hs]
    rfl
  | true =>
    rw [readSource_of_scanned hs]
    unfold dump loadStatements
    dsimp only
    rw [hs, if_neg Bool.false_ne_true, Bool.true_and, if_pos rfl]
    cases (readProgram (scan source).tokens).halt with
    | some halt => rfl
    | none =>
      dsimp only
      cases (readProgram (scan source).tokens).errors.isEmpty <;> rfl

/-- **What showing a source does**: it prints what is shown; and if reading the source ends in a
halt, the halt may be raised then. -/
theorem dump_cases (showTokens showTrees : Bool) (source : String) :
    (∃ halt, readSource source = .error (.halt halt) ∧
        ∀ machine, dump showTokens showTrees source machine =
          .error (.halt halt) (machine.printed (shown showTokens showTrees source))) ∨
      ∀ machine, dump showTokens showTrees source machine =
        .ok () (machine.printed (shown showTokens showTrees source)) := by
  obtain ⟨tokens, htokens⟩ : ∃ tokens : List String,
      tokens = if showTokens then (scan source).tokens.map Token.text else [] := ⟨_, rfl⟩
  have hdump : ∀ machine, dump showTokens showTrees source machine =
      dump false showTrees source (machine.printed tokens) := by
    intro machine
    cases showTokens with
    | false => rw [htokens, if_neg Bool.false_ne_true, Machine.printed_nil]
    | true => rw [htokens, if_pos rfl, dump_tokens]
  rw [shown, ← htokens]
  cases showTrees with
  | false =>
    refine .inr fun machine => ?_
    rw [hdump, dump_nothing, if_neg Bool.false_ne_true, List.append_nil]
  | true =>
    rw [if_pos rfl]
    cases hread : readSource source with
    | ok statements =>
      refine .inr fun machine => ?_
      rw [hdump, dump_trees, treeTexts, hread, ← Machine.printed_printed]
      exact ofEval_forM_print _ _ _
    | error failure =>
      rw [treeTexts_of_error hread, List.append_nil]
      cases failure with
      | halt halt =>
        refine .inl ⟨halt, rfl, fun machine => ?_⟩
        rw [hdump, dump_trees, hread]
        rfl
      | _ =>
        refine .inr fun machine => ?_
        rw [hdump, dump_trees, hread]
        rfl

/-! ## Showing and running -/

/-- What a machine that has printed nothing has when it has printed some lines. -/
theorem Machine.preceded_eq_printed (h : machine.output = #[]) (lines : List String) :
    machine.preceded lines.toArray = machine.printed lines := by
  simp [Machine.preceded, Machine.printed, h]

/-- A source that cannot be read is not run. -/
theorem run_of_readSource_error {limits : Limits} {failure : RunFailure}
    (h : readSource source = .error failure) :
    run limits source machine = .error failure machine := by
  rw [run_eq, show loadTokens source >>= loadStatements = _ from h]

/-- **Showing a source before running it** only prints lines before those of the run. -/
theorem dump_then_run (showTokens showTrees : Bool) (limits : Limits) (h : machine.output = #[]) :
    (dump showTokens showTrees source >>= fun _ => run limits source) machine =
      precededResult (shown showTokens showTrees source).toArray (run limits source machine) := by
  rcases dump_cases showTokens showTrees source with ⟨halt, hread, hdump⟩ | hdump
  · rw [bind_eq_error_iff.2 (.inl (hdump machine)), run_of_readSource_error hread, precededResult,
      Machine.preceded_eq_printed h]
  · rw [bind_of_ok (hdump machine), ← Machine.preceded_eq_printed h]
    exact run_oblivious limits source _ machine

/-! ## What is seen of a session -/

/-- **What is seen of a line**: what it prints, and its result or why it failed. -/
structure Seen where
  printed : List String
  result : Except RunFailure Value

/-- The same, with lines printed before. -/
def Seen.preceded (lines : List String) (seen : Seen) : Seen :=
  { seen with printed := lines ++ seen.printed }

/-- The machine, with what it printed taken away. -/
def Machine.cleared (machine : Machine) : Machine := { machine with output := #[] }

namespace Session

/-- Runs a line, and takes away what it printed. -/
def see (session : Session) (line : String) : Seen × Session :=
  match run line session with
  | .ok value session => (⟨session.takeOutput.1, .ok value⟩, session.takeOutput.2)
  | .error failure session => (⟨session.takeOutput.1, .error failure⟩, session.takeOutput.2)

/-- **What is seen of lines**, one after the other. -/
def transcript : Session → List String → List Seen
  | _, [] => []
  | session, line :: lines => (session.see line).1 :: (session.see line).2.transcript lines

/-- The session with other limits. -/
def withLimits (session : Session) (limits : Limits) : Session := { session with limits := limits }

/-- The session with other settings. -/
def showing (session : Session) (showTokens showTrees : Bool) : Session :=
  { session with showTokens := showTokens, showTrees := showTrees }

end Session

/-- What is seen of a line, and the machine it leaves behind. -/
def seenOf : EStateM.Result RunFailure Machine Value → Seen × Machine
  | .ok value machine => (⟨machine.output.toList, .ok value⟩, machine.cleared)
  | .error failure machine => (⟨machine.output.toList, .error failure⟩, machine.cleared)

theorem seenOf_precededResult (lines : List String) (r : EStateM.Result RunFailure Machine Value) :
    seenOf (precededResult lines.toArray r) = ((seenOf r).1.preceded lines, (seenOf r).2) := by
  cases r <;> simp [seenOf, precededResult, Machine.preceded, Seen.preceded, Machine.cleared]

theorem output_seenOf (r : EStateM.Result RunFailure Machine Value) :
    (seenOf r).2.output = #[] := by
  cases r <;> rfl

namespace Session

variable {session : Session} {line : String}

theorem see_eq (session : Session) (line : String) :
    session.see line =
      let r := (dump session.showTokens session.showTrees line >>= fun _ =>
        ScopedScript.run session.limits line) session.machine
      ((seenOf r).1,
        { session with
          machine := (seenOf r).2
          reporter := session.reporter.register (some session.path) line }) := by
  unfold see run
  dsimp only
  generalize (dump session.showTokens session.showTrees line >>= fun _ =>
    ScopedScript.run session.limits line) session.machine = r
  cases r <;> rfl

/-- **What is shown of a line comes before what the line prints**, and that is all. -/
theorem see_showing (showTokens showTrees : Bool) (h : session.machine.output = #[]) :
    (session.showing showTokens showTrees).see line =
      (((session.showing false false).see line).1.preceded (shown showTokens showTrees line),
        ((session.showing false false).see line).2.showing showTokens showTrees) := by
  have hoff : (dump false false line >>= fun _ => ScopedScript.run session.limits line)
      session.machine = ScopedScript.run session.limits line session.machine := rfl
  simp only [see_eq, showing, hoff, dump_then_run showTokens showTrees session.limits h,
    seenOf_precededResult]

/-- What is seen of lines with and without what is shown of them. -/
theorem transcript_showing (session : Session) (h : session.machine.output = #[])
    (showTokens showTrees : Bool) (lines : List String) :
    (session.showing showTokens showTrees).transcript lines =
      List.zipWith (fun line seen => seen.preceded (shown showTokens showTrees line)) lines
        ((session.showing false false).transcript lines) := by
  induction lines generalizing session with
  | nil => rfl
  | cons line lines ih =>
    have hnext : ((session.showing false false).see line).2.machine.output = #[] := by
      rw [see_eq]
      exact output_seenOf _
    have hoff : ((session.showing false false).see line).2.showing false false =
        ((session.showing false false).see line).2 := by
      rw [see_eq]
      rfl
    simp only [transcript, List.zipWith_cons_cons, see_showing showTokens showTrees h,
      ih _ hnext, hoff]

end Session

end ScopedScript

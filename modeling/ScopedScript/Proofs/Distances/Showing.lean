import ScopedScript.Proofs.Showing

/-!
# Showing numbered trees

An interpreter with a table numbers the nodes of every tree that it reads.  If it shows trees, it
reads each line twice, and the numbers of the trees that are shown are used up.  So from the first
line that is shown on, its numbers are others than they would have been.  Nothing of this is seen:
the text of a tree has no numbers, and an interpreter that has used up more numbers stands for the
same machine.

## Main definitions

* `Interpreter.dump`: what showing a source does to an interpreter.
* `Interpreter.transcript`: what is seen of lines that an interpreter shows and runs.

## Main results

* `Relabel.text_stmt`: the text of a tree has no labels.
* `Interpreter.Refines.transcript`: what is seen of an interpreter is what is seen of a session.
* `showing_only_observes`: showing lines changes nothing else.
-/

namespace ScopedScript

/-! ## The text of a tree -/

namespace Relabel

variable (F : Relabel)

theorem parameterText_tokens (params : List Token) :
    parameterText (params.map F.token) = parameterText params := by
  rw [parameterText, parameterText, List.map_map]
  rfl

mutual

theorem text_expr (e : Expr) : (F.expr e).text = e.text := by
  cases e with
  | literal | «variable» | this => rfl
  | assign name value hops scopes => simp only [expr, Expr.text, text_expr value, token_lexeme]
  | group inner => simp only [expr, Expr.text, text_expr inner]
  | unary op operand => simp only [expr, Expr.text, text_expr operand, token_lexeme]
  | binary left op right | logical left op right =>
    simp only [expr, Expr.text, text_expr left, text_expr right, token_lexeme]
  | conditional condition whenTrue whenFalse =>
    simp only [expr, Expr.text, text_expr condition, text_expr whenTrue, text_expr whenFalse]
  | sequence items => simp only [expr, Expr.text, text_exprs items]
  | call callee paren args => simp only [expr, Expr.text, text_expr callee, text_exprs args]
  | lambda keyword params body =>
    simp only [expr, Expr.text, parameterText_tokens, text_stmts body]
  | get object name => simp only [expr, Expr.text, text_expr object, token_lexeme]
  | set object name value =>
    simp only [expr, Expr.text, text_expr object, text_expr value, token_lexeme]

theorem text_exprs (es : List Expr) : exprTexts (F.exprs es) = exprTexts es := by
  cases es with
  | nil => rfl
  | cons e es => simp only [exprs, exprTexts, text_expr e, text_exprs es]

theorem text_expr? (o : Option Expr) : optionalExprTexts (F.expr? o) = optionalExprTexts o := by
  cases o with
  | none => rfl
  | some e => simp only [expr?, optionalExprTexts, text_expr e]

/-- **The text of a tree has no labels.** -/
theorem text_stmt (s : Stmt) : (F.stmt s).text = s.text := by
  cases s with
  | expression inner | print inner => simp only [stmt, Stmt.text, text_expr inner]
  | var name initializer => simp only [stmt, Stmt.text, text_expr? initializer, token_lexeme]
  | block ss => simp only [stmt, Stmt.text, text_stmts ss]
  | branch condition whenTrue whenFalse =>
    simp only [stmt, Stmt.text, text_expr condition, text_stmt whenTrue, text_stmt? whenFalse]
  | loop condition body => simp only [stmt, Stmt.text, text_expr condition, text_stmt body]
  | function f => simp only [stmt, Stmt.text, text_decl f]
  | «return» keyword value => simp only [stmt, Stmt.text, text_expr? value]
  | «class» name methods => simp only [stmt, Stmt.text, text_decls methods, token_lexeme]

theorem text_stmts (ss : List Stmt) : stmtTexts (F.stmts ss) = stmtTexts ss := by
  cases ss with
  | nil => rfl
  | cons s ss => simp only [stmts, stmtTexts, text_stmt s, text_stmts ss]

theorem text_stmt? (o : Option Stmt) : optionalStmtTexts (F.stmt? o) = optionalStmtTexts o := by
  cases o with
  | none => rfl
  | some s => simp only [stmt?, optionalStmtTexts, text_stmt s]

theorem text_decl (f : FunctionDecl) : (F.decl f).text = f.text := by
  cases f with
  | mk name params body =>
    simp only [decl, FunctionDecl.text, parameterText_tokens, text_stmts body, token_lexeme]

theorem text_decls (fs : List FunctionDecl) : methodTexts (F.decls fs) = methodTexts fs := by
  cases fs with
  | nil => rfl
  | cons f fs => simp only [decls, methodTexts, text_decl f, text_decls fs]

end

end Relabel

/-- Numbered trees are shown as they would be without numbers. -/
theorem Numbering.texts_stmts (N : Numbering) (start : Int) (ss : List Stmt) :
    (N.stmts start ss).1.map Stmt.text = ss.map Stmt.text := by
  rw [← stmtTexts_eq_map, ← stmtTexts_eq_map, ← Relabel.plain.text_stmts, N.stmts_plain,
    Relabel.plain.text_stmts]

/-! ## Showing -/

namespace Interpreter

/-- Prints lines. -/
def print (lines : List String) (i : Interpreter) : Interpreter :=
  { i with machine := i.machine.printed lines }

/-- **Shows a source.**  If trees are to be shown, the source is read, which takes numbers, also if
nothing comes of it. -/
def dump (N : Numbering) (showTokens showTrees : Bool) (source : String) (i : Interpreter) :
    EStateM.Result RunFailure Interpreter Unit :=
  let i := if showTokens then i.print ((scan source).tokens.map Token.text) else i
  if showTrees && (scan source).errors.isEmpty then
    let start := i.next + N.spent source
    match loadStatements (scan source).tokens with
    | .ok statements =>
      let numbered := N.stmts start statements
      .ok () { i.print (numbered.1.map Stmt.text) with next := numbered.2 }
    | .error (.halt h) => .error (.halt h) { i with next := start }
    | .error _ => .ok () { i with next := start }
  else .ok () i

/-- Shows a source and runs it. -/
def showAndRun (N : Numbering) (limits : Limits) (showTokens showTrees : Bool) (source : String)
    (i : Interpreter) : EStateM.Result RunFailure Interpreter Value :=
  match i.dump N showTokens showTrees source with
  | .ok _ i => i.run N limits source
  | .error failure i => .error failure i

/-- What is seen of a line, and the interpreter it leaves behind, with what was printed taken
away. -/
def seenOf : EStateM.Result RunFailure Interpreter Value → Seen × Interpreter
  | .ok value i =>
    (⟨i.machine.output.toList, .ok value⟩, { i with machine := i.machine.cleared })
  | .error failure i =>
    (⟨i.machine.output.toList, .error failure⟩, { i with machine := i.machine.cleared })

/-- **What is seen of lines that are shown and run**, one after the other. -/
def transcript (N : Numbering) (limits : Limits) (showTokens showTrees : Bool) :
    Interpreter → List String → List Seen
  | _, [] => []
  | i, line :: lines =>
    let seen := seenOf (i.showAndRun N limits showTokens showTrees line)
    seen.1 :: transcript N limits showTokens showTrees seen.2 lines

namespace Refines

variable {i : Interpreter} {m : Machine}

/-- What is printed is the same on both sides. -/
theorem print (h : i.Refines m) (lines : List String) :
    (i.print lines).Refines (m.printed lines) where
  machine := congrArg (Machine.printed lines) h.machine
  numbers := congrArg (Machine.printed lines) h.numbers
  unread := h.unread

theorem cleared (h : i.Refines m) : Refines { i with machine := i.machine.cleared } m.cleared where
  machine := congrArg Machine.cleared h.machine
  numbers := congrArg Machine.cleared h.numbers
  unread := h.unread

theorem output_eq (h : i.Refines m) : i.machine.output = m.output :=
  (congrArg Machine.output h.machine :)

/-- Showing ends in the same way on both sides, and the interpreter still stands for the machine. -/
inductive Shows : EStateM.Result RunFailure Interpreter Unit →
    EStateM.Result RunFailure Machine Unit → Prop where
  | ok {i : Interpreter} {m : Machine} (h : i.Refines m) : Shows (.ok () i) (.ok () m)
  | error (failure : RunFailure) {i : Interpreter} {m : Machine} (h : i.Refines m) :
      Shows (.error failure i) (.error failure m)

/-- Trees are shown on both sides, and numbers are used up on one. -/
theorem dump_trees (h : i.Refines m) (N : Numbering) (source : String) :
    Shows (i.dump N false true source) (ScopedScript.dump false true source m) := by
  have hstart : i.next ≤ i.next + N.spent source := by omega
  unfold Interpreter.dump
  dsimp only
  rw [if_neg Bool.false_ne_true, Bool.true_and]
  rw [ScopedScript.dump_trees]
  cases hs : (scan source).errors.isEmpty with
  | false =>
    rw [if_neg Bool.false_ne_true, readSource_of_errors hs]
    exact .ok h
  | true =>
    rw [if_pos rfl, readSource_of_scanned hs]
    cases loadStatements (scan source).tokens with
    | ok statements =>
      dsimp only [showRead]
      rw [N.texts_stmts, ofEval_forM_print]
      exact .ok ((h.print _).spend
        (Int.le_trans hstart (N.stmts_fresh (i.next + N.spent source) statements).le))
    | error failure =>
      cases failure with
      | halt halt => exact .error _ (h.spend hstart)
      | _ => exact .ok (h.spend hstart)

/-- **Showing a source on both sides.** -/
theorem dump (h : i.Refines m) (N : Numbering) (showTokens showTrees : Bool) (source : String) :
    Shows (i.dump N showTokens showTrees source)
      (ScopedScript.dump showTokens showTrees source m) := by
  have hrest : ∀ {i : Interpreter} {m : Machine}, i.Refines m →
      Shows (i.dump N false showTrees source) (ScopedScript.dump false showTrees source m) := by
    intro i m h
    cases showTrees with
    | false => exact .ok h
    | true => exact h.dump_trees N source
  cases showTokens with
  | false => exact hrest h
  | true =>
    rw [dump_tokens]
    exact hrest (h.print _)

/-- **Showing and running a line on both sides.** -/
theorem showAndRun (h : i.Refines m) (N : Numbering) (limits : Limits) (showTokens showTrees : Bool)
    (source : String) :
    Matches (i.showAndRun N limits showTokens showTrees source)
      ((ScopedScript.dump showTokens showTrees source >>= fun _ =>
        ScopedScript.run limits source) m) := by
  have hdump : Shows (i.dump N showTokens showTrees source)
      (ScopedScript.dump showTokens showTrees source m) := h.dump N showTokens showTrees source
  change Matches _ (EStateM.bind (ScopedScript.dump showTokens showTrees source)
    (fun _ => ScopedScript.run limits source) m)
  unfold Interpreter.showAndRun EStateM.bind
  generalize i.dump N showTokens showTrees source = r,
    ScopedScript.dump showTokens showTrees source m = r' at hdump ⊢
  cases hdump with
  | ok h => exact h.run N source
  | error failure h => exact .error failure h

/-- What is seen of a line is the same on both sides. -/
theorem seenOf {r : EStateM.Result RunFailure Interpreter Value}
    {r' : EStateM.Result RunFailure Machine Value} (h : Matches r r') :
    (seenOf r).1 = (ScopedScript.seenOf r').1 ∧
      (seenOf r).2.Refines (ScopedScript.seenOf r').2 := by
  cases h with
  | @ok value i m h | @error failure i m h =>
    refine ⟨?_, h.cleared⟩
    rw [Interpreter.seenOf, ScopedScript.seenOf, h.output_eq]

/-- **What is seen of an interpreter is what is seen of a session** whose machine it stands for. -/
theorem transcript (session : Session) (h : i.Refines session.machine) (N : Numbering)
    (lines : List String) :
    i.transcript N session.limits session.showTokens session.showTrees lines =
      session.transcript lines := by
  induction lines generalizing i session with
  | nil => rfl
  | cons line lines ih =>
    obtain ⟨hseen, hnext⟩ := seenOf
      (h.showAndRun N session.limits session.showTokens session.showTrees line)
    rw [Interpreter.transcript, Session.transcript, Session.see_eq]
    dsimp only
    rw [hseen, ← ih _ hnext]

end Refines

end Interpreter

/-- **Showing lines changes nothing else.**  Take a new session and give it any lines.  With any
setting of what is to be shown, each line prints the texts of its tokens and of its trees, and then
what it prints in a session that shows nothing; and it has the same result, or fails in the same
way.  The same is seen of an interpreter that numbers the trees it reads, also those it reads only
to show them, however the numbers are handed out. -/
theorem showing_only_observes (N : Numbering) (limits : Limits) (reporter : Reporter)
    (path : Option String) (clock : Clock) (showTokens showTrees : Bool) (lines : List String) :
    ((Session.new reporter path showTokens showTrees clock).withLimits limits).transcript lines =
        List.zipWith (fun line seen => seen.preceded (shown showTokens showTrees line)) lines
          (((Session.new reporter path false false clock).withLimits limits).transcript lines) ∧
      (Interpreter.initial clock).transcript N limits showTokens showTrees lines =
        List.zipWith (fun line seen => seen.preceded (shown showTokens showTrees line)) lines
          ((Interpreter.initial clock).transcript N limits false false lines) ∧
      (Interpreter.initial clock).transcript N limits showTokens showTrees lines =
        ((Session.new reporter path showTokens showTrees clock).withLimits limits).transcript
          lines := by
  have hsessions := Session.transcript_showing
    ((Session.new reporter path false false clock).withLimits limits) rfl showTokens showTrees lines
  have hsame : ∀ showTokens showTrees,
      (Interpreter.initial clock).transcript N limits showTokens showTrees lines =
        ((Session.new reporter path showTokens showTrees clock).withLimits limits).transcript
          lines :=
    fun showTokens showTrees =>
      Interpreter.Refines.transcript
        ((Session.new reporter path showTokens showTrees clock).withLimits limits)
        (Interpreter.Refines.initial clock) N lines
  refine ⟨hsessions, ?_, hsame showTokens showTrees⟩
  rw [hsame, hsame]
  exact hsessions

end ScopedScript

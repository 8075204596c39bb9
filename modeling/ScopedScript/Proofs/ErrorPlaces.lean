import ScopedScript.Proofs.Pointing
import ScopedScript.Proofs.Scan.Places
import ScopedScript.Proofs.Scope.Accused
import ScopedScript.Proofs.Scope.KeptCode

/-!
# Errors point into the sources

Whatever sources a machine has run, each error of the next run is about a token of the sources: it
has the text of the token, and its line is the line on which the token ends.  Parse errors and scope
errors are about tokens of the source that is run.  So are run-time errors, unless they come up in
code that earlier sources left on the heap, in functions or in classes.  Then they are about tokens
of these sources.  The one error without a place is about a condition that has no truth.

## Main definitions

* `Diagnostic.PointsAt`: a diagnostic is about a token of a source.

## Main results

* `load_error_points`: errors that are found before a program runs.
* `run_error_points`: errors that are found while it runs.
* `errors_point_into_sources`: all errors of a run that are no lexical faults.
-/

namespace ScopedScript

/-- **A diagnostic is about a token of a source**: it has the text of the token and its line, which
is the line of the source on which the token ends. -/
structure Diagnostic.PointsAt (d : Diagnostic) (source : String) (t : Token) : Prop where
  line : d.line = some t.line
  subject : d.subject = t.lexeme
  ends : ∃ before after, t.StandsAt source before after ∧
    t.line = lineOf source.toList (t.lastPosition before)

theorem Diagnostic.PointsAt.of_mem {d : Diagnostic} {source : String} {t : Token}
    (ht : t ∈ (scan source).tokens) (hl : d.line = some t.line) (hs : d.subject = t.lexeme) :
    d.PointsAt source t := by
  obtain ⟨before, after, h⟩ := exists_standsAt ht
  exact ⟨hl, hs, before, after, h, h.line_eq⟩

/-! ## Before a program runs -/

section Load

variable {source : String}

/-- **The ways in which loading fails**, stage by stage. -/
theorem load_error_cases {failure : RunFailure} (h : load source = .error failure) :
    failure = .scan (scan source).errors ∨ (∃ halt, failure = .halt halt) ∨
      failure = .parse (scan source).tokens (readProgram (scan source).tokens).errors ∨
      ∃ read e, (readProgram (scan source).tokens).Accepts read ∧ analyze read = .error e ∧
        failure = .resolve e := by
  have hload : load source =
      (loadTokens source).bind fun tokens => (loadStatements tokens).bind fun read =>
        (analyze read).mapError .resolve := rfl
  rw [hload] at h
  cases ht : loadTokens source with
  | error failure' =>
    rw [ht] at h
    cases h
    unfold loadTokens at ht
    dsimp only at ht
    split at ht <;> cases ht
    exact .inl rfl
  | ok tokens =>
    obtain ⟨-, rfl⟩ := loadTokens_eq_ok_iff.1 ht
    rw [ht, Except.bind] at h
    cases hr : loadStatements (scan source).tokens with
    | error failure' =>
      rw [hr] at h
      cases h
      unfold loadStatements at hr
      dsimp only at hr
      split at hr
      · cases hr
        exact .inr (.inl ⟨_, rfl⟩)
      · split at hr <;> cases hr
        exact .inr (.inr (.inl rfl))
    | ok read =>
      rw [hr, Except.bind] at h
      cases ha : analyze read with
      | ok resolved =>
        rw [ha] at h
        cases h
      | error e =>
        rw [ha] at h
        cases h
        exact .inr (.inr (.inr ⟨read, e, loadStatements_eq_ok_iff.1 hr, ha, rfl⟩))

/-- A parse error blames one of the tokens. -/
theorem readProgram_error_token {tokens : List Token} {e : ParseError}
    (h : e ∈ (readProgram tokens).errors) : ∃ t ∈ tokens, e.token? tokens = some t := by
  obtain ⟨segments, rest, hs, -, he, -⟩ := readProgram_splits tokens
  rw [he] at h
  obtain ⟨-, hlt, htoken⟩ := (hs.positions (.refl tokens)).1 e h
  exact ⟨_, List.getElem_mem hlt, htoken.trans (List.getElem?_eq_getElem hlt)⟩

/-- A program that was read without an error is well formed over the tokens. -/
theorem Reading.Accepts.wellFormed {tokens : List Token} {read : List Stmt}
    (h : (readProgram tokens).Accepts read) : Stmt.AllWellFormed (· ∈ tokens) read := by
  refine Stmt.allWellFormed_iff.2 fun s hs => ?_
  have hread : Task.ReadFrom tokens (.stmt s) := .program (h.2.2 ▸ hs)
  exact hread.wellFormed fun _ ht => ht

/-- **Errors that are found before a program runs** are about tokens of its source, if they are no
lexical faults. -/
theorem load_error_points {failure : RunFailure} (h : load source = .error failure)
    {report : Report} (hr : failure.report? = some report) {d : Diagnostic}
    (hd : d ∈ report.diagnostics) (hs : d.category ≠ .scan) : ∃ t, d.PointsAt source t := by
  rcases load_error_cases h with rfl | ⟨halt, rfl⟩ | rfl | ⟨read, e, hread, ha, rfl⟩
  · cases hr
    obtain ⟨e, -, rfl⟩ := List.mem_map.1 hd
    exact absurd rfl hs
  · cases hr
  · cases hr
    obtain ⟨e, he, rfl⟩ := List.mem_map.1 hd
    obtain ⟨t, ht, htoken⟩ := readProgram_error_token he
    refine ⟨t, .of_mem ht ?_ ?_⟩ <;> rw [ParseError.diagnostic, htoken] <;> rfl
  · cases hr
    obtain rfl := List.mem_singleton.1 hd
    exact ⟨e.token, .of_mem (analyze_accuses hread.wellFormed ha) rfl rfl⟩

end Load

/-! ## While a program runs -/

namespace Task.WellFormed

variable {task : Task}

/-- The token of a well-formed node is one of those it is made over. -/
theorem token {P : Token → Prop} (h : task.WellFormed P) {t : Token} (ht : task.token? = some t) :
    P t := by
  unfold Task.token? at ht
  split at ht <;> cases ht
  · exact h.1
  · exact h.1.1
  · exact h.1
  · exact h.2.1
  · exact h.2.1
  · exact h.2.1
  · exact h.2.1
  · exact h.2.1.1
  · exact h.1
  · exact h.1.1

theorem thisSpelled {source : String} (h : task.WellFormed (· ∈ (scan source).tokens)) :
    task.ThisSpelled := by
  rintro keyword hops seen rfl
  exact scanned_this h.1 h.2

end Task.WellFormed

section Run

variable {limits : Limits} {machine : Machine} {source : String} {earlier : List String}

/-- **Where a node that a run evaluates was read**: in the source that is run, or in an earlier one
that left the node on the heap. -/
theorem Evaluated.readFrom {mo : Moment} (h : Evaluated limits machine source mo)
    (hm : machine.StandsIn (Occurs earlier) []) :
    ∃ origin, mo.task.WellFormed (· ∈ (scan origin).tokens) ∧
      (origin = source ∨ origin ∈ earlier ∧ machine.heap.HasCode mo.task) := by
  rcases h.comesFrom hm with hs | hc
  · obtain ⟨origin, ho, hw⟩ := hs.wellFormed
    exact ⟨origin, hw, .inl (List.mem_singleton.1 ho)⟩
  · have hk : Occurs earlier mo.task := hm.sound.known_of_hasCode (Occurs.closed earlier) hc
    obtain ⟨origin, ho, hw⟩ := hk.wellFormed
    exact ⟨origin, hw, .inr ⟨ho, hc⟩⟩

/-- **The node that is to blame for a run-time error.**  Defects are about a variable that is not
ready, and other errors are raised by an action of the node. -/
theorem exists_evaluated_pointsTo {e : RuntimeError} (hm : machine.StandsIn (Occurs earlier) [])
    (hf : (run limits source).failure? machine = some (.stop (.error e))) :
    ∃ mo, Evaluated limits machine source mo ∧ e.PointsTo mo.task.token? := by
  cases hd : e.fault.isDefect with
  | true =>
    have hm' : machine.StandsIn (Occurs (earlier ++ [source])) [] :=
      hm.of_imp (Occurs.closed earlier) fun _ ⟨origin, ho, h⟩ =>
        ⟨origin, List.mem_append_left _ ho, h⟩
    obtain ⟨mo, r, -, distance, he, hr, -, -, -, rfl⟩ :=
      missed_of_defect (List.mem_append_right _ List.mem_cons_self) hm' hf hd
    obtain ⟨origin, hw, -⟩ := he.readFrom hm
    exact ⟨mo, he, .inl (Access.missing_isAt hr hw.thisSpelled distance)⟩
  | false =>
    obtain ⟨mo, he, hraise⟩ := run_stops_iff.1 (Run.failure?_eq_some_iff.1 hf)
    obtain ⟨origin, hw, -⟩ := he.readFrom hm
    refine ⟨mo, he, (hraise.pointsTo hw.thisSpelled).resolve_left ?_⟩
    rw [hd]
    exact Bool.false_ne_true

/-- **Errors that are found while a program runs** are about tokens of its source, or about tokens
of code that earlier sources left on the heap.  The error about a condition is about no token. -/
theorem run_error_points {e : RuntimeError} (hm : machine.StandsIn (Occurs earlier) [])
    (hf : (run limits source).failure? machine = some (.stop (.error e))) :
    (∃ shown, e = ⟨.noTruth shown, none, ""⟩) ∨ (∃ t, e.diagnostic.PointsAt source t) ∨
      ∃ origin ∈ earlier, ∃ t node, e.diagnostic.PointsAt origin t ∧
        machine.heap.HasCode node ∧ node.token? = some t := by
  obtain ⟨mo, he, ⟨t, ht, hl, hs⟩ | hcondition⟩ := exists_evaluated_pointsTo hm hf
  · obtain ⟨origin, hw, horigin⟩ := he.readFrom hm
    have hpoints : e.diagnostic.PointsAt origin t := .of_mem (hw.token ht) hl hs
    rcases horigin with rfl | ⟨ho, hc⟩
    · exact .inr (.inl ⟨t, hpoints⟩)
    · exact .inr (.inr ⟨origin, ho, t, mo.task, hpoints, hc, ht⟩)
  · exact .inl hcondition

/-- A run fails while its source is loaded, or it stops. -/
theorem run_failure_cases {failure : RunFailure}
    (hf : (run limits source).failure? machine = some failure) :
    load source = .error failure ∨ ∃ stop, failure = .stop stop := by
  obtain ⟨machine', h⟩ := Run.failure?_eq_some_iff.1 hf
  cases hl : load source with
  | error failure' =>
    rw [run, hl] at h
    cases h
    exact .inl rfl
  | ok statements =>
    rw [run, hl] at h
    change EStateM.adaptExcept RunFailure.stop (execAll limits .nil statements) machine = _ at h
    unfold EStateM.adaptExcept at h
    split at h <;> cases h
    exact .inr ⟨_, rfl⟩

end Run

/-- **The errors of a run point into the sources.**  Take a machine that has run any sources, and
any error of the next run that is no lexical fault.  If it has no line, it is about a condition that
has no truth.  Otherwise it has the text and the line of a token of the source that is run; or it is
a run-time error at a token of an earlier source, from code that is kept on the heap in a function
or a class.  The line is that of the source on which the token ends. -/
theorem errors_point_into_sources (limits : Limits) (clock : Clock) (earlier : List String)
    (source : String) (failure : RunFailure) (report : Report) (d : Diagnostic)
    (hf : (run limits source).failure?
      ((Machine.initial clock).serve limits (earlier.map .program)) = some failure)
    (hr : failure.report? = some report) (hd : d ∈ report.diagnostics) (hs : d.category ≠ .scan) :
    (∃ shown, d = .plain .runtime (RuntimeFault.noTruth shown).message) ∨
      (∃ t, d.PointsAt source t) ∨
      (d.category = .runtime ∨ d.category = .defect) ∧
        ∃ origin ∈ earlier, ∃ t node, d.PointsAt origin t ∧ node.token? = some t ∧
          ((Machine.initial clock).serve limits (earlier.map .program)).heap.HasCode node := by
  rcases run_failure_cases hf with hl | ⟨stop, rfl⟩
  · exact .inr (.inl (load_error_points hl hr hd hs))
  cases stop with
  | error e =>
    cases hr
    obtain rfl := List.mem_singleton.1 hd
    have hm : ((Machine.initial clock).serve limits (earlier.map .program)).StandsIn
        (Occurs earlier) [] := served_standsIn (fun _ h => h) (initial_standsIn _ clock)
    rcases run_error_points hm hf with ⟨shown, rfl⟩ | hown | ⟨origin, ho, t, node, hp, hc, ht⟩
    · exact .inl ⟨shown, rfl⟩
    · exact .inr (.inl hown)
    · have hcategory : e.diagnostic.category = .runtime ∨ e.diagnostic.category = .defect := by
        cases hdefect : e.fault.isDefect <;> simp [RuntimeError.diagnostic, hdefect]
      exact .inr (.inr ⟨hcategory, origin, ho, t, node, hp, ht, hc⟩)
  | _ => cases hr

/-- A call comes to a name that the function, from another source, looks up on its second line. -/
theorem errors_point_into_sources_kept :
    (run .standard "f();").failure? ((Machine.initial (.starting 0)).serve .standard
        [.program "fun f() \x7b\n  return a;\n\x7d"]) =
      some (.stop (.error ⟨.undefinedVariable "a", some 2, "a"⟩)) ∧
    ∃ t node, (RuntimeError.mk (.undefinedVariable "a") (some 2) "a").diagnostic.PointsAt
        "fun f() \x7b\n  return a;\n\x7d" t ∧ node.token? = some t ∧
      ((Machine.initial (.starting 0)).serve .standard
        [.program "fun f() \x7b\n  return a;\n\x7d"]).heap.HasCode node := by
  have hf : (run .standard "f();").failure? ((Machine.initial (.starting 0)).serve .standard
        [.program "fun f() \x7b\n  return a;\n\x7d"]) =
      some (.stop (.error ⟨.undefinedVariable "a", some 2, "a"⟩)) := by decide +kernel
  refine ⟨hf, ?_⟩
  rcases errors_point_into_sources .standard (.starting 0) ["fun f() \x7b\n  return a;\n\x7d"]
      "f();" _ _ _ hf rfl (List.mem_singleton.2 rfl) (by decide)
    with ⟨shown, h⟩ | ⟨t, h⟩ | ⟨-, origin, ho, t, node, h⟩
  · cases h
  · obtain ⟨before, after, hstands, -⟩ := h.ends
    have hlines : ∀ t ∈ (scan "f();").tokens, (some 2 : Option Int) ≠ some t.line := by
      decide +kernel
    exact absurd h.line (hlines t hstands.mem)
  · obtain rfl := List.mem_singleton.1 ho
    exact ⟨t, node, h⟩

end ScopedScript

import ScopedScript.Proofs.Relabel.Analysis
import ScopedScript.Proofs.Relabel.Evaluation
import ScopedScript.Proofs.Relabel.Grammar
import ScopedScript.Proofs.Scan.Append

/-!
# One source after another

A source can be run in one piece or in two, cut at the end of a line.  The tokens of the second
piece are then on other lines, and with them its trees and the errors that are reported at
them.  Nothing else depends on the lines.  So the two ways print the same and end in the same
way, up to the line of an error.

Each piece has to load by itself.  An `else` cannot be moved to the next piece, for instance.

## Main definitions

* `Run.seen`: what is seen of a run apart from lines.

## Main results

* `load_append_newline`: what two sources with a newline between them load as.
* `run_append_newline`: running them in one piece is running one after the other.
-/

namespace ScopedScript

/-! ## Loading -/

/-- **What two sources with a newline between them load as**: the statements of the first, and
those of the second further down. -/
theorem load_append_newline {first second : String} {ss ss' : List Stmt}
    (h : load first = .ok ss) (h' : load second = .ok ss') :
    load (first ++ "\n" ++ second) =
      .ok (ss ++ (Relabel.down (newlines first.toList + 1)).stmts ss') := by
  obtain ⟨hfaults, read, hread, hanalyze⟩ := load_eq_ok_iff.1 h
  obtain ⟨hfaults', read', hread', hanalyze'⟩ := load_eq_ok_iff.1 h'
  obtain ⟨htokens, herrors⟩ := scan_append_newline second hfaults
  have hderives := (readProgram_accepts_iff fun t => scanned_ne_eof).1 hread
  have hderives' := (readProgram_accepts_iff fun t => scanned_ne_eof).1 hread'
  have hwellFormed : Stmt.AllWellFormed Analyze.Spelled read :=
    hderives.wellFormed fun t ht => scanned_this ht
  refine load_eq_ok_iff.2 ⟨herrors hfaults', _, ?_,
    analyze_append hwellFormed hanalyze hanalyze' (· + (newlines first.toList + 1 : Nat))⟩
  refine (readProgram_accepts_iff fun t => scanned_ne_eof).2 ?_
  rw [htokens]
  exact hderives.declarations_append (hderives'.relabel rfl rfl)

/-! ## Running -/

/-- The failure without the line of its error. -/
def RunFailure.unplaced : RunFailure → RunFailure
  | .stop (.error e) => .stop (.error { e with line := none })
  | failure => failure

/-- **What is seen of a run**: what was printed, and the text of its result or why it failed,
without the line. -/
def Run.seen : EStateM.Result RunFailure Machine Value → Array String × Except RunFailure String
  | .ok value machine => (machine.output, .ok value.text)
  | .error failure machine => (machine.output, .error failure.unplaced)

variable {limits : Limits}

theorem execAll_append (value : Value) (ss ss' : List Stmt) :
    execAll limits value (ss ++ ss') =
      execAll limits value ss >>= fun value => execAll limits value ss' := by
  induction ss generalizing value with
  | nil => simp [execAll]
  | cons s ss ih => simp [execAll, ih]

/-- The value before the first statement is forgotten. -/
theorem execAll_of_ne_nil {ss : List Stmt} (h : ss ≠ []) (value value' : Value) :
    execAll limits value ss = execAll limits value' ss := by
  cases ss with
  | nil => exact absurd rfl h
  | cons s ss => rfl

/-- Everything on line zero. -/
def Relabel.lineless : Relabel := .onLines fun _ => 0

/-- Further down or not, without lines it is the same. -/
theorem Relabel.lineless_down (lines : Nat) (ss : List Stmt) :
    lineless.stmts ((down lines).stmts ss) = lineless.stmts ss :=
  (stmts_comp (down lines) lineless ss).symm

/-- Execution in order carries over to statements without lines. -/
theorem carries_execAll (value : Value) (ss : List Stmt) :
    Relabel.lineless.Carries id (execAll limits value ss)
      (execAll limits value (Relabel.lineless.stmts ss)) := by
  have h : Relabel.lineless.Carries id (execAllBy id limits value ss)
      (execAllBy id limits value (Relabel.lineless.stmts ss)) :=
    Relabel.carries_execAllBy rfl id value ss
  rwa [execAllBy_id, execAllBy_id] at h

/-- Errors that are the same without lines differ in the line at most. -/
theorem Relabel.unplaced_of_lineless {s s' : Stop} (h : lineless.stop s = lineless.stop s') :
    (RunFailure.stop s).unplaced = (RunFailure.stop s').unplaced := by
  cases s with
  | error e =>
    cases s' with
    | error e' =>
      have he : lineless.error e = lineless.error e' := Stop.error.inj h
      have hfault : e.fault = e'.fault := (congrArg RuntimeError.fault he :)
      have hsubject : e.subject = e'.subject := (congrArg RuntimeError.subject he :)
      rw [RunFailure.unplaced, RunFailure.unplaced, hfault, hsubject]
    | _ => cases h
  | tooDeep =>
    cases s' with
    | tooDeep => rfl
    | _ => cases h
  | tooLong =>
    cases s' with
    | tooLong => rfl
    | _ => cases h

/-- Steps that end in the same way without lines look the same. -/
theorem seen_of_lineless {step step' : Eval Value} {machine : Machine}
    (h : Relabel.lineless.result id (step machine) = Relabel.lineless.result id (step' machine)) :
    Run.seen (Run.ofEval step machine) = Run.seen (Run.ofEval step' machine) := by
  unfold Run.ofEval EStateM.adaptExcept
  cases hs : step machine with
  | ok value last =>
    cases hs' : step' machine with
    | ok value' last' =>
      rw [hs, hs'] at h
      obtain ⟨rfl, hm⟩ := EStateM.Result.ok.inj h
      have houtput : last.output = last'.output := (congrArg Machine.output hm :)
      simp only [Run.seen, id, houtput]
    | error stop last' =>
      rw [hs, hs'] at h
      cases h
  | error stop last =>
    cases hs' : step' machine with
    | ok value' last' =>
      rw [hs, hs'] at h
      cases h
    | error stop' last' =>
      rw [hs, hs'] at h
      obtain ⟨hstop, hm⟩ := EStateM.Result.error.inj h
      have houtput : last.output = last'.output := (congrArg Machine.output hm :)
      simp only [Run.seen, houtput, Relabel.unplaced_of_lineless hstop]

/-- **Statements further down are executed to the same end**, up to the line of an error. -/
theorem seen_execAll_down (lines : Nat) (value : Value) (ss : List Stmt) (machine : Machine) :
    Run.seen (Run.ofEval (execAll limits value ss) machine) =
      Run.seen (Run.ofEval (execAll limits value ((Relabel.down lines).stmts ss)) machine) := by
  refine seen_of_lineless ?_
  -- both are what the statements without lines come to
  have hhere : execAll limits value (Relabel.lineless.stmts ss) (Relabel.lineless.machine machine) =
      _ := carries_execAll value ss machine
  have hdown :
      execAll limits value (Relabel.lineless.stmts ((Relabel.down lines).stmts ss)) _ = _ :=
    carries_execAll value ((Relabel.down lines).stmts ss) machine
  rw [Relabel.lineless_down] at hdown
  exact hhere.symm.trans hdown

theorem Run.ofEval_bind_of_ok {α β : Type} {step : Eval α} {next : α → Eval β} {a : α}
    {machine machine' : Machine} (h : step machine = .ok a machine') :
    Run.ofEval (step >>= next) machine = Run.ofEval (next a) machine' := by
  simp only [Run.ofEval, EStateM.adaptExcept, bind_of_ok h]

theorem run_of_load {source : String} {ss : List Stmt} (h : load source = .ok ss) :
    run limits source = Run.ofEval (execAll limits .nil ss) := by
  rw [run, h]
  rfl

/-- **Running two sources in one piece is running one after the other.**  If the first runs to
its end, the second then prints the same and ends in the same way as both do in one piece, up to
the line of an error. -/
theorem run_append_newline (limits : Limits) (first second : String) (ss : List Stmt)
    (start machine : Machine) (value : Value) (hl : load second = .ok ss) (hs : ss ≠ [])
    (hr : run limits first start = .ok value machine) :
    Run.seen (run limits second machine) =
      Run.seen (run limits (first ++ "\n" ++ second) start) := by
  obtain ⟨before, hload⟩ : ∃ before, load first = .ok before := by
    cases h : load first with
    | ok before => exact ⟨before, rfl⟩
    | error failure =>
      rw [run, h] at hr
      cases hr
  have hbefore : execAll limits .nil before start = .ok value machine := by
    rw [run_of_load hload, Run.ofEval, EStateM.adaptExcept] at hr
    cases h : execAll limits .nil before start with
    | ok value' machine' =>
      rw [h] at hr
      cases hr
      rfl
    | error stop machine' =>
      rw [h] at hr
      cases hr
  rw [run_of_load hl, run_of_load (load_append_newline hload hl), execAll_append,
    Run.ofEval_bind_of_ok hbefore, execAll_of_ne_nil hs .nil value]
  exact seen_execAll_down _ value ss machine

/-- The second source prints what the first has defined, and fails in its own second line: the
same is seen in one piece, where that is the third. -/
theorem run_append_newline_undefined :
    ∃ ss value machine, load "print a;\nprint b;" = .ok ss ∧ ss ≠ [] ∧
      run .standard "var a = nil;" (.initial (.starting 0)) = .ok value machine ∧
      Run.seen (run .standard ("var a = nil;" ++ "\n" ++ "print a;\nprint b;")
          (.initial (.starting 0))) =
        (#["nil"], .error (.stop (.error ⟨.undefinedVariable "b", none, "b"⟩))) := by
  have hload : (load "print a;\nprint b;").toOption.map List.isEmpty = some false := by
    decide +kernel
  have hfirst : (run .standard "var a = nil;").failure? (.initial (.starting 0)) = none := by
    decide +kernel
  have houtput : (Run.seen (run .standard "print a;\nprint b;"
      ((run .standard "var a = nil;").after (.initial (.starting 0))))).1 = #["nil"] := by
    decide +kernel
  have hfailure : ((run .standard "print a;\nprint b;").failure?
      ((run .standard "var a = nil;").after (.initial (.starting 0)))).map RunFailure.unplaced =
        some (.stop (.error ⟨.undefinedVariable "b", none, "b"⟩)) := by
    decide +kernel
  cases hl : load "print a;\nprint b;" with
  | error failure =>
    rw [hl] at hload
    cases hload
  | ok ss =>
    rw [hl] at hload
    have hne : ss ≠ [] := by
      rintro rfl
      cases hload
    unfold Run.failure? at hfirst hfailure
    unfold Run.after at houtput hfailure
    cases hr : run .standard "var a = nil;" (.initial (.starting 0)) with
    | error failure machine =>
      rw [hr] at hfirst
      cases hfirst
    | ok value machine =>
      rw [hr] at houtput hfailure
      refine ⟨ss, value, machine, rfl, hne, rfl, ?_⟩
      rw [← run_append_newline .standard _ _ ss _ machine value hl hne hr]
      dsimp only at houtput hfailure
      cases hs : run .standard "print a;\nprint b;" machine with
      | ok value last =>
        rw [hs] at hfailure
        cases hfailure
      | error failure last =>
        rw [hs] at houtput hfailure
        have hunplaced := Option.some.inj hfailure
        rw [Run.seen, ← hunplaced]
        exact congrArg (·, Except.error failure.unplaced) houtput

end ScopedScript

import ScopedScript.Proofs.Distances.Interpreter

/-!
# Refused sources leave no trace

A source that is refused before anything is executed leaves the machine as it was, so a machine
cannot tell later that it was tried.  An interpreter with a table can be told apart from one that
has not tried the source: numbers are used up, and the table may have entries that were made before
the source was refused.  But it stands for the same machine, so its answers are the same.

## Main definitions

* `RunFailure.isStatic`: a source was refused before anything was executed.

## Main results

* `refused_run_leaves_no_trace`: after a refused source everything goes on as if it had not been
  tried.
-/

namespace ScopedScript

/-- Whether a source was refused before anything was executed. -/
def RunFailure.isStatic : RunFailure → Bool
  | scan _ | parse _ _ | resolve _ => true
  | _ => false

/-- A source that is refused leaves the machine as it was. -/
theorem machine_of_isStatic {limits : Limits} {source : String} {failure : RunFailure}
    {m m' : Machine} (h : run limits source m = .error failure m') (hf : failure.isStatic = true) :
    m' = m := by
  rw [run_eq] at h
  cases hl : loadTokens source >>= loadStatements with
  | error failure' =>
    rw [hl] at h
    cases h
    rfl
  | ok read =>
    rw [hl] at h
    dsimp only at h
    cases ha : Analyze.stmts read .initial with
    | error e state =>
      rw [ha] at h
      cases h
      rfl
    | ok located state =>
      rw [ha] at h
      dsimp only [Run.ofEval, EStateM.adaptExcept] at h
      cases hs : execAll limits .nil located m with
      | ok value last =>
        rw [hs] at h
        cases h
      | error stop last =>
        rw [hs] at h
        cases h
        cases hf

/-- An interpreter keeps its machine if a source is refused. -/
theorem Interpreter.machine_of_isStatic {N : Numbering} {limits : Limits} {source : String}
    {failure : RunFailure} {i i' : Interpreter} (h : i.run N limits source = .error failure i')
    (hf : failure.isStatic = true) : i'.machine = i.machine := by
  unfold Interpreter.run at h
  dsimp only at h
  split at h
  · cases h
    rfl
  · split at h
    · cases h
      rfl
    · unfold Interpreter.evaluate at h
      split at h
      · cases h
      · cases h
        cases hf

/-- **A refused source leaves no trace.**  On a machine that any requests have been made of, a
source that is refused prints nothing and changes nothing.  An interpreter with a table and a
counter refuses it in the same way and keeps its machine, and whatever it leaves behind in the
table and uses up of the numbers, every later request is answered as if the source had not been
tried, and as the machine answers it. -/
theorem refused_run_leaves_no_trace (N : Numbering) (limits : Limits) (clock : Clock)
    (earlier later : List Request) (source : String) (failure : RunFailure) (last : Machine)
    (hr : run limits source ((Machine.initial clock).serve limits earlier) = .error failure last)
    (hf : failure.isStatic = true) :
    let m := (Machine.initial clock).serve limits earlier
    let i := (Interpreter.initial clock).serve N limits earlier
    last = m ∧ ∃ distances next,
      i.perform N limits (.program source) =
        .error failure { i with distances := distances, next := next } ∧
      { i with distances := distances, next := next }.answers N limits later =
        i.answers N limits later ∧
      i.answers N limits later = m.answers limits later := by
  intro m i
  have hi : i.Refines m := (Interpreter.Refines.initial clock).serve N earlier
  obtain rfl : last = m := machine_of_isStatic hr hf
  have hstep : Interpreter.Matches (i.run N limits source) (run limits source m) := hi.run N source
  rw [hr] at hstep
  -- the interpreter refuses the source as well, and what it is then stands for the same machine
  cases hrun : i.run N limits source with
  | ok value i' =>
    rw [hrun] at hstep
    cases hstep
  | error failure' i' =>
    rw [hrun] at hstep
    cases hstep with
    | error _ hi' =>
      have hmachine := Interpreter.machine_of_isStatic hrun hf
      obtain ⟨machine, distances, next⟩ := i'
      obtain rfl : machine = i.machine := hmachine
      refine ⟨rfl, distances, next, hrun, ?_, hi.answers N later⟩
      rw [hi'.answers N later, hi.answers N later]

/-- A function that was declared before still finds its parameter, after a source that was refused
at its `return`, when it had already made an entry in the table. -/
theorem refused_run_leaves_no_trace_entry :
    ∃ failure distances next,
      let earlier := [Request.program "fun f(b) { return b; }"]
      let m := (Machine.initial (.starting 0)).serve .standard earlier
      let i := (Interpreter.initial (.starting 0)).serve .inOrder .standard earlier
      run .standard "{ var a; print a; return; }" m = .error failure m ∧ failure.isStatic = true ∧
      i.perform .inOrder .standard (.program "{ var a; print a; return; }") =
        .error failure { i with distances := distances, next := next } ∧
      i.distances.read (some i.next) = none ∧ distances.read (some i.next) = some 0 ∧
      { i with distances := distances, next := next }.answers .inOrder .standard
          [.program "print f(true);"] = m.answers .standard [.program "print f(true);"] ∧
      (m.answers .standard [.program "print f(true);"]).map Prod.fst = [#["true"]] := by
  have hrun : (match run .standard "{ var a; print a; return; }"
        ((Machine.initial (.starting 0)).serve .standard [.program "fun f(b) { return b; }"]) with
      | .error failure _ => failure.isStatic
      | .ok _ _ => false) = true := by
    decide +kernel
  have hentry : (match ((Interpreter.initial (.starting 0)).serve .inOrder .standard
        [.program "fun f(b) { return b; }"]).perform .inOrder .standard
          (.program "{ var a; print a; return; }") with
      | .error _ i => i.distances.read (some 1) == some 0
      | .ok _ _ => false) = true := by
    decide +kernel
  have hbefore : ((Interpreter.initial (.starting 0)).serve .inOrder .standard
        [.program "fun f(b) { return b; }"]).distances.read (some 1) = none ∧
      ((Interpreter.initial (.starting 0)).serve .inOrder .standard
        [.program "fun f(b) { return b; }"]).next = 1 := by
    decide +kernel
  have hanswers : (((Machine.initial (.starting 0)).serve .standard
        [.program "fun f(b) { return b; }"]).answers .standard
          [.program "print f(true);"]).map Prod.fst = [#["true"]] := by
    decide +kernel
  have htrace := refused_run_leaves_no_trace .inOrder .standard (.starting 0)
    [.program "fun f(b) { return b; }"] [.program "print f(true);"] "{ var a; print a; return; }"
  dsimp only at htrace ⊢
  generalize (Machine.initial (.starting 0)).serve .standard [.program "fun f(b) { return b; }"] = m
    at hrun hanswers htrace ⊢
  generalize (Interpreter.initial (.starting 0)).serve .inOrder .standard
    [.program "fun f(b) { return b; }"] = i at hentry hbefore htrace ⊢
  split at hrun
  · rename_i failure last hr
    obtain ⟨rfl, distances, next, hperform, hsame, hmachine⟩ := htrace failure last hr hrun
    rw [hperform] at hentry
    rw [hbefore.2]
    exact ⟨failure, distances, next, hr, hrun, hperform, hbefore.1, beq_iff_eq.1 hentry,
      hsame.trans hmachine, hanswers⟩
  · cases hrun

end ScopedScript

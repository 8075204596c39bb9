import ScopedScript.Proofs.Calls
import ScopedScript.Proofs.Concatenation

/-!
# Where the value of a run comes from

A run gives the value of its last statement.  An expression statement gives the value of its
expression.  An `if` passes on what the branch that it takes gives, so it gives the value of an
expression too if an expression statement is found by going from branch to branch.  Every other
statement gives nil, whatever is in it.

## Main definitions

* `Stmt.PassesOn`: the statement gives the value of an expression, and where it evaluates it.
* `Stmt.isBranch`: the statements that pass on the value of another.

## Main results

* `exec_of_passesOn`, `exec_value`: the value of a statement.
* `run_eq_ok_iff`: what a run does.
* `run_gives_final_expression`: the value of a run.
-/

namespace ScopedScript

variable {rounds : Nat}

/-! ## Statements -/

/-- **The statement gives the value of an expression**: it is an expression statement, or an `if`
whose condition comes out so that the branch it takes gives the value.  The expression is evaluated
on the machine `there`, with `left` levels of nesting left. -/
inductive Stmt.PassesOn (rounds : Nat) : Nat → Stmt → Machine → Nat → Expr → Machine → Prop
  | expression {depth : Nat} {e : Expr} {machine : Machine} :
    PassesOn rounds (depth + 1) (.expression e) machine depth e machine
  | whenTrue {depth left : Nat} {c e : Expr} {a : Stmt} {b? : Option Stmt} {value : Value}
    {machine mid there : Machine} (hc : eval rounds depth c machine = .ok value mid)
    (ht : value.truth? = some true) (h : PassesOn rounds depth a mid left e there) :
    PassesOn rounds (depth + 1) (.branch c a b?) machine left e there
  | whenFalse {depth left : Nat} {c e : Expr} {a b : Stmt} {value : Value}
    {machine mid there : Machine} (hc : eval rounds depth c machine = .ok value mid)
    (ht : value.truth? = some false) (h : PassesOn rounds depth b mid left e there) :
    PassesOn rounds (depth + 1) (.branch c a (some b)) machine left e there

/-- Whether the statement is an `if`. -/
def Stmt.isBranch : Stmt → Bool
  | .branch .. => true
  | _ => false

/-- What an `if` does once its condition has come out. -/
theorem exec_branch {depth : Nat} {c : Expr} {a : Stmt} {b? : Option Stmt} {value : Value}
    {machine mid : Machine} {holds : Bool} (hc : eval rounds depth c machine = .ok value mid)
    (ht : value.truth? = some holds) :
    exec rounds (depth + 1) (.branch c a b?) machine =
      (if holds then exec rounds depth a else b?.elim (pure .done) (exec rounds depth)) mid := by
  have htruth : Eval.ofExcept (value.truth none) mid = .ok holds mid := by
    rw [Value.truth, ht]
    rfl
  refine (bind_of_ok hc).trans ((bind_of_ok htruth).trans ?_)
  cases holds with
  | true => rfl
  | false => cases b? <;> rfl

/-- **A statement that gives the value of an expression evaluates it last.** -/
theorem exec_of_passesOn {depth left : Nat} {s : Stmt} {e : Expr} {machine there : Machine}
    (h : s.PassesOn rounds depth machine left e there) :
    exec rounds depth s machine = (Outcome.normal <$> eval rounds left e) there := by
  induction h with
  | expression => rfl
  | whenTrue hc ht _ ih => rw [exec_branch hc ht, if_pos rfl, ih]
  | whenFalse hc ht _ ih => rw [exec_branch hc ht, if_neg Bool.false_ne_true, Option.elim_some, ih]

/-- A condition that is tested has a truth. -/
theorem truth?_of_truth {value : Value} {holds : Bool} {machine machine' : Machine}
    (h : Eval.ofExcept (value.truth none) machine = .ok holds machine') :
    value.truth? = some holds := by
  unfold Value.truth at h
  cases ht : value.truth? with
  | some b =>
    rw [ht] at h
    rw [(pure_eq_ok_iff.1 h).1]
  | none =>
    rw [ht] at h
    cases h

/-- A step after which a statement is done gives no value. -/
theorem done_value {α : Type} {step : Eval α} {value : Value} {machine machine' : Machine}
    (h : (step >>= fun _ => pure Outcome.done) machine = .ok (.normal value) machine') :
    value = .nil := by
  obtain ⟨_, _, -, h⟩ := bind_eq_ok_iff.1 h
  cases (pure_eq_ok_iff.1 h).1
  rfl

/-- Statements in a row that complete normally give nil, and not the value of the last one. -/
theorem runStatements_value {exec : Stmt → Eval Outcome} {ss : List Stmt} {value : Value}
    {machine machine' : Machine}
    (h : Eval.runStatements exec ss machine = .ok (.normal value) machine') : value = .nil := by
  induction ss generalizing machine with
  | nil =>
    obtain ⟨hv, -⟩ := pure_eq_ok_iff.1 h
    cases hv
    rfl
  | cons s ss ih =>
    obtain ⟨outcome, mid, -, h⟩ := bind_eq_ok_iff.1 h
    cases outcome with
    | returned v => cases (pure_eq_ok_iff.1 h).1
    | normal v => exact ih h

/-- A loop that completes normally gives nil, and not a value of its body. -/
theorem iterate_value {condition : Eval Bool} {body : Eval Outcome} {n : Nat} {value : Value}
    {machine machine' : Machine}
    (h : Eval.iterate condition body n machine = .ok (.normal value) machine') :
    value = .nil := by
  induction n generalizing machine with
  | zero => cases h
  | succ n ih =>
    obtain ⟨holds, mid, -, h⟩ := bind_eq_ok_iff.1 h
    cases holds with
    | false =>
      cases (pure_eq_ok_iff.1 h).1
      rfl
    | true =>
      obtain ⟨outcome, last, -, h⟩ := bind_eq_ok_iff.1 h
      cases outcome with
      | returned v => cases (pure_eq_ok_iff.1 h).1
      | normal v => exact ih h

/-- **The value of a statement** that completes normally: that of an expression that it passes on,
or nil. -/
theorem exec_value {depth : Nat} {s : Stmt} {value : Value} {machine machine' : Machine}
    (h : exec rounds depth s machine = .ok (.normal value) machine') :
    (∃ left e there, s.PassesOn rounds depth machine left e there ∧
        eval rounds left e there = .ok value machine') ∨ value = .nil := by
  induction depth generalizing s machine with
  | zero => cases h
  | succ depth ih =>
    cases s with
    | expression e =>
      obtain ⟨v, mid, he, h⟩ := bind_eq_ok_iff.1 h
      obtain ⟨hv, rfl⟩ := pure_eq_ok_iff.1 h
      cases hv
      exact .inl ⟨depth, e, machine, .expression, he⟩
    | branch c a b? =>
      obtain ⟨v, mid, hc, hrest⟩ := bind_eq_ok_iff.1 h
      obtain ⟨holds, _, htruth, -⟩ := bind_eq_ok_iff.1 hrest
      have ht := truth?_of_truth htruth
      rw [exec_branch hc ht] at h
      cases holds with
      | true =>
        refine (ih h).imp_left ?_
        rintro ⟨left, e, there, hp, he⟩
        exact ⟨left, e, there, .whenTrue hc ht hp, he⟩
      | false =>
        cases b? with
        | none =>
          cases (pure_eq_ok_iff.1 h).1
          exact .inr rfl
        | some b =>
          refine (ih h).imp_left ?_
          rintro ⟨left, e, there, hp, he⟩
          exact ⟨left, e, there, .whenFalse hc ht hp, he⟩
    | block ss =>
      obtain ⟨_, _, -, h⟩ := bind_eq_ok_iff.1 h
      obtain ⟨env, mid, -, h⟩ := bind_eq_ok_iff.1 h
      obtain ⟨last, h⟩ := Eval.endsWith_inEnvironment_iff.1 ⟨machine', h⟩
      exact .inr (runStatements_value h)
    | loop c body => exact .inr (iterate_value h)
    | print e =>
      obtain ⟨_, _, -, h⟩ := bind_eq_ok_iff.1 h
      exact .inr (done_value h)
    | var name initializer =>
      cases initializer with
      | none => exact .inr (done_value h)
      | some e =>
        obtain ⟨_, _, -, h⟩ := bind_eq_ok_iff.1 h
        exact .inr (done_value h)
    | function decl =>
      obtain ⟨name, params, body⟩ := decl
      obtain ⟨_, _, -, h⟩ := bind_eq_ok_iff.1 h
      exact .inr (done_value h)
    | «return» keyword value? =>
      cases value? with
      | none => cases (pure_eq_ok_iff.1 h).1
      | some e =>
        obtain ⟨_, _, -, h⟩ := bind_eq_ok_iff.1 h
        cases (pure_eq_ok_iff.1 h).1
    | «class» name methods => exact .inr (done_value h)

/-! ## Runs -/

variable {limits : Limits}

/-- **What a run does**: it executes the statements of a source that loads. -/
theorem run_eq_ok_iff {source : String} {value : Value} {machine machine' : Machine} :
    run limits source machine = .ok value machine' ↔
      ∃ statements, load source = .ok statements ∧
        execAll limits .nil statements machine = .ok value machine' := by
  cases hl : load source with
  | error failure =>
    rw [run, hl]
    constructor
    · intro h
      cases h
    · rintro ⟨_, h, -⟩
      cases h
  | ok statements =>
    rw [run_of_load hl, Run.ofEval, EStateM.adaptExcept]
    cases h : execAll limits .nil statements machine <;> simp [h]

/-- The value that statements are executed to is that of the last one. -/
theorem execAll_last {before : List Stmt} {last : Stmt} {first value : Value}
    {machine machine' : Machine}
    (h : execAll limits first (before ++ [last]) machine = .ok value machine') :
    ∃ prior mid outcome, execAll limits first before machine = .ok prior mid ∧
      exec limits.rounds limits.depth last mid = .ok outcome machine' ∧ outcome.value = value := by
  rw [execAll_append] at h
  obtain ⟨prior, mid, hb, h⟩ := bind_eq_ok_iff.1 h
  obtain ⟨outcome, mid', hl, h⟩ := bind_eq_ok_iff.1 h
  obtain ⟨hv, rfl⟩ := pure_eq_ok_iff.1 h
  exact ⟨prior, mid, outcome, hb, hl, hv⟩

/-- **The value of a run comes from its last statement**, and only if that is an expression
statement or an `if`.  If a source runs to its end on any machine and the value is not nil, then it
is the value of an expression that the last statement passes on, and to execute this statement is
to evaluate that expression.  If the last statement is no `if`, it is an expression statement, and
the value is that of its expression. -/
theorem run_gives_final_expression (limits : Limits) (machine : Machine) (source : String)
    (value : Value) (machine' : Machine)
    (h : run limits source machine = .ok value machine') (hv : value ≠ .nil) :
    ∃ before last prior mid, load source = .ok (before ++ [last]) ∧
      execAll limits .nil before machine = .ok prior mid ∧
      (∃ left e there, last.PassesOn limits.rounds limits.depth mid left e there ∧
        exec limits.rounds limits.depth last mid =
          (Outcome.normal <$> eval limits.rounds left e) there ∧
        eval limits.rounds left e there = .ok value machine') ∧
      (last.isBranch = false → ∃ e left, last = .expression e ∧ limits.depth = left + 1 ∧
        eval limits.rounds left e mid = .ok value machine') := by
  obtain ⟨statements, hl, h⟩ := run_eq_ok_iff.1 h
  rcases List.eq_nil_or_concat statements with rfl | ⟨before, last, rfl⟩
  · exact absurd (pure_eq_ok_iff.1 h).1.symm hv
  rw [List.concat_eq_append] at hl h
  obtain ⟨prior, mid, outcome, hb, hx, rfl⟩ := execAll_last h
  have hn := exec_loaded_normal hl (List.mem_append_right before List.mem_cons_self) hx
  cases outcome with
  | returned value => cases hn
  | normal value =>
    obtain ⟨left, e, there, hp, he⟩ := (exec_value hx).resolve_right hv
    refine ⟨before, last, prior, mid, hl, hb, ⟨left, e, there, hp, exec_of_passesOn hp, he⟩,
      fun hi => ?_⟩
    generalize limits.depth = depth at hp
    cases hp with
    | expression => exact ⟨e, left, rfl, rfl, he⟩
    | whenTrue | whenFalse => cases hi

/-- A branch has the value of the statement that it executed. -/
theorem run_if_five :
    ∃ value machine', run .standard "if (true) 5;" (.initial (.starting 0)) = .ok value machine' ∧
      value ≠ .nil := by
  have hseen : (Run.seen (run .standard "if (true) 5;" (.initial (.starting 0)))).2.toOption =
      some "5.0" := by
    decide +kernel
  cases hr : run .standard "if (true) 5;" (.initial (.starting 0)) with
  | error failure machine' =>
    rw [hr] at hseen
    cases hseen
  | ok value machine' =>
    rw [hr] at hseen
    refine ⟨value, machine', rfl, ?_⟩
    rintro rfl
    exact absurd (Option.some.inj hseen) (by decide)

/-- An `if` gives the value of the expression statement in it. -/
theorem run_gives_final_expression_if :
    ∃ value machine', run .standard "if (true) 5;" (.initial (.starting 0)) = .ok value machine' ∧
      value ≠ .nil ∧
      ∃ before last prior mid, load "if (true) 5;" = .ok (before ++ [last]) ∧
        execAll .standard .nil before (.initial (.starting 0)) = .ok prior mid ∧
        ∃ left e there,
          last.PassesOn Limits.standard.rounds Limits.standard.depth mid left e there ∧
            eval Limits.standard.rounds left e there = .ok value machine' := by
  obtain ⟨value, machine', hr, hv⟩ := run_if_five
  obtain ⟨before, last, prior, mid, hl, hb, ⟨left, e, there, hp, -, he⟩, -⟩ :=
    run_gives_final_expression .standard (.initial (.starting 0)) _ value machine' hr hv
  exact ⟨value, machine', hr, hv, before, last, prior, mid, hl, hb, left, e, there, hp, he⟩

/-- **A run gives a value although its last statement is no expression statement.** -/
theorem if_gives_value :
    ∃ value machine' s, run .standard "if (true) 5;" (.initial (.starting 0)) = .ok value machine' ∧
      value ≠ .nil ∧ load "if (true) 5;" = .ok [s] ∧ ∀ e, s ≠ .expression e := by
  obtain ⟨value, machine', hr, hv⟩ := run_if_five
  have hload : (load "if (true) 5;").toOption.map (·.map Stmt.isBranch) = some [true] := by
    decide +kernel
  cases hl : load "if (true) 5;" with
  | error failure =>
    rw [hl] at hload
    cases hload
  | ok statements =>
    rw [hl] at hload
    obtain ⟨s, rest, rfl, hi, hrest⟩ := List.map_eq_cons_iff.1 (Option.some.inj hload)
    obtain rfl := List.map_eq_nil_iff.1 hrest
    refine ⟨value, machine', s, hr, hv, rfl, ?_⟩
    rintro e rfl
    cases hi

end ScopedScript

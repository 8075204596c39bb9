import ScopedScript.Proofs.Distances.Resolver
import ScopedScript.Proofs.Load
import ScopedScript.Proofs.Relabel.Evaluation
import ScopedScript.Proofs.Restore
import ScopedScript.Proofs.Scan.Kinds

/-!
# An interpreter with a table

Where the numbers of frames are written into the trees, a machine is all that is left of earlier
requests.  This module describes an interpreter that remembers more: it numbers the nodes of every
tree it reads, keeps a table of distances under these numbers, and looks references up in the table
when it evaluates them.  A source that is refused has used up numbers, and may have made entries.

The interpreter gives the same answers as the machine, whatever is asked of it and however the
numbers are handed out.  The reason is that entries are made only under numbers of the tree that is
being analyzed, and that no number is handed out twice.

## Main definitions

* `Interpreter`: a machine with a table and a counter.
* `Interpreter.perform`: what a request does to it.
* `Interpreter.Refines`: an interpreter stands for a machine.
* `answers`: what is printed and what results, request by request.

## Main results

* `Interpreter.Refines.grow`: new entries under new numbers are not noticed.
* `Interpreter.Refines.perform`: an interpreter does what the machine does that it stands for.
* `Interpreter.Refines.serve`, `Interpreter.Refines.answers`: so it does for any requests.
-/

namespace ScopedScript

open Relabel (reading bare plain)

/-! ## Interpreters -/

/-- **A machine that evaluates numbered trees**, with the table in which references are looked up,
and the next number to be handed out. -/
structure Interpreter where
  machine : Machine
  distances : Distances
  next : Int

namespace Interpreter

/-- A new interpreter. -/
def initial (clock : Clock) : Interpreter := ⟨.initial clock, .empty, 0⟩

/-- Evaluates with references looked up in the table. -/
def evaluate {α : Type} (i : Interpreter) (step : (Option Int → Option Int) → Eval α) :
    EStateM.Result RunFailure Interpreter α :=
  match step i.distances.read i.machine with
  | .ok a machine => .ok a { i with machine := machine }
  | .error stop machine => .error (.stop stop) { i with machine := machine }

/-- **Runs a source.**  The numbers that it takes are used up, and the entries that its analysis
makes are kept, also if it is refused. -/
def run (N : Numbering) (limits : Limits) (source : String) (i : Interpreter) :
    EStateM.Result RunFailure Interpreter Value :=
  let start := i.next + N.spent source
  match loadTokens source >>= loadStatements with
  | .error failure => .error failure { i with next := start }
  | .ok statements =>
    let numbered := N.stmts start statements
    match Resolve.stmts numbered.1 ⟨.initial, i.distances⟩ with
    | .error e state =>
      .error (.resolve e) { i with distances := state.distances, next := numbered.2 }
    | .ok _ state =>
      evaluate { i with distances := state.distances, next := numbered.2 } fun read =>
        execAllBy read limits .nil numbered.1

/-- Evaluates a source that is one tree, without scope analysis. -/
def runSingle {τ : Type} (N : Numbering) (reader : Reader τ) (number : Int → τ → τ × Int)
    (step : (Option Int → Option Int) → τ → Eval Value) (source : String) (i : Interpreter) :
    EStateM.Result RunFailure Interpreter Value :=
  let start := i.next + N.spent source
  match loadSingle reader source with
  | .error failure => .error failure { i with next := start }
  | .ok tree =>
    let numbered := number start tree
    evaluate { i with next := numbered.2 } fun read => step read numbered.1

/-- **What a request does.** -/
def perform (N : Numbering) (limits : Limits) :
    Request → Interpreter → EStateM.Result RunFailure Interpreter Value
  | .program source => run N limits source
  | .expression source =>
    runSingle N readExpression N.expr
      (fun read e => (Task.expr e).runBy read limits.rounds limits.depth) source
  | .statement source =>
    runSingle N readDeclaration N.stmt (fun read s => execAllBy read limits .nil [s]) source

/-- The interpreter after a request, however it ended. -/
def after {α : Type} : EStateM.Result RunFailure Interpreter α → Interpreter
  | .ok _ i => i
  | .error _ i => i

/-- The interpreter after requests, one after the other; each may fail. -/
def serve (N : Numbering) (limits : Limits) (i : Interpreter) (requests : List Request) :
    Interpreter :=
  requests.foldl (fun i request => after (i.perform N limits request)) i

end Interpreter

/-! ## Evaluation -/

section Evaluation

variable {limits : Limits}

/-- A statement is executed like a program of one statement. -/
theorem ofEval_execAll_singleton (s : Stmt) :
    Run.ofEval (execAll limits .nil [s]) =
      Outcome.value <$> Run.ofEval (exec limits.rounds limits.depth s) := by
  funext m
  change EStateM.adaptExcept RunFailure.stop (EStateM.bind _ _) m = EStateM.map _ _ m
  simp only [EStateM.adaptExcept, EStateM.bind, EStateM.map, Run.ofEval]
  cases exec limits.rounds limits.depth s m <;> rfl

/-- Running a source, stage by stage. -/
theorem run_eq (source : String) (m : Machine) :
    run limits source m =
      match loadTokens source >>= loadStatements with
      | .error failure => .error failure m
      | .ok read =>
        match Analyze.stmts read .initial with
        | .error e _ => .error (.resolve e) m
        | .ok located _ => Run.ofEval (execAll limits .nil located) m := by
  rw [run, load]
  cases loadTokens source with
  | error failure => rfl
  | ok tokens =>
    change (Run.ofExcept (loadStatements tokens >>= _) >>= _) m = match loadStatements tokens with
      | .error _ => _
      | .ok _ => _
    cases loadStatements tokens with
    | error failure => rfl
    | ok read =>
      change (Run.ofExcept ((analyze read).mapError .resolve) >>= _) m = _
      unfold analyze EStateM.run
      dsimp only
      cases Analyze.stmts read .initial <;> rfl

end Evaluation

/-- **A kind of trees that can be evaluated**, with their labels.  What a tree becomes depends on
how its labels are read, and evaluation carries over to relabelled trees. -/
structure TreeKind (limits : Limits) (τ : Type) where
  labels : τ → List (Option Int)
  relabel : Relabel → τ → τ
  eval : (Option Int → Option Int) → τ → Eval Value
  agree : ∀ {read read' : Option Int → Option Int} {tree : τ}, Agree read read' (labels tree) →
    relabel (reading read) tree = relabel (reading read') tree
  carries : ∀ {F : Relabel} (read : Option Int → Option Int) (tree : τ), F.line 0 = 0 →
    F.Carries id (eval (read ∘ F.hops) tree) (eval read (relabel F tree))

namespace TreeKind

/-- Programs. -/
def stmts (limits : Limits) : TreeKind limits (List Stmt) where
  labels := Stmt.labelsOf
  relabel F := F.stmts
  eval read := execAllBy read limits .nil
  agree := Agree.stmts
  carries read ss hz := Relabel.carries_execAllBy hz read .nil ss

/-- Single statements. -/
def stmt (limits : Limits) : TreeKind limits Stmt where
  labels := Stmt.labels
  relabel F := F.stmt
  eval read s := execAllBy read limits .nil [s]
  agree := Agree.stmt
  carries read s hz := Relabel.carries_execAllBy hz read .nil [s]

/-- Single expressions. -/
def expr (limits : Limits) : TreeKind limits Expr where
  labels := Expr.labels
  relabel F := F.expr
  eval read e := (Task.expr e).runBy read limits.rounds limits.depth
  agree := Agree.expr
  carries _ e hz := (Relabel.carries_runBy hz limits.depth).1 e

end TreeKind

/-! ## Interpreters that stand for machines -/

/-- Reading numbers changes no stop. -/
theorem Relabel.stop_reading (read : Option Int → Option Int) (s : Stop) :
    (reading read).stop s = s := by
  cases s with
  | error e =>
    obtain ⟨fault, line, subject⟩ := e
    cases line <;> rfl
  | tooDeep | tooLong => rfl

/-- A new machine has no trees. -/
theorem Relabel.machine_initial (F : Relabel) (clock : Clock) :
    F.machine (.initial clock) = .initial clock := by
  simp [machine, heap, Machine.initial, Machine.addNative, Machine.bindGlobal, Heap.addNative,
    Heap.pushFrame, Heap.empty]

/-- Only the numbers below a bound. -/
def below (bound : Int) : Option Int → Option Int
  | none => none
  | some n => if n < bound then some n else none

theorem below_of_lt {bound n : Int} (h : n < bound) : below bound (some n) = some n := if_pos h

theorem below_of_le {bound n : Int} (h : bound ≤ n) : below bound (some n) = none :=
  if_neg (Int.not_lt.2 h)

theorem lt_of_below_eq_some {bound n : Int} {label : Option Int} (h : below bound label = some n) :
    n < bound := by
  cases label with
  | none => cases h
  | some k =>
    by_cases hk : k < bound
    · rw [below_of_lt hk] at h
      cases h
      exact hk
    · rw [below_of_le (Int.not_lt.1 hk)] at h
      cases h

theorem below_comp_below {bound bound' : Int} (h : bound ≤ bound') :
    below bound' ∘ below bound = below bound := by
  funext label
  cases hl : below bound label with
  | none => rw [Function.comp, hl, below]
  | some n =>
    rw [Function.comp, hl]
    exact below_of_lt (Int.lt_of_lt_of_le (lt_of_below_eq_some hl) h)

theorem Fresh.agree_below {start stop : Int} {labels : List (Option Int)}
    (h : Fresh start stop labels) : Agree (below stop) id labels := by
  intro label hl
  obtain ⟨n, rfl, -, hn⟩ := h.mem label hl
  exact below_of_lt hn

namespace Interpreter

/-- **An interpreter stands for a machine**: with the references looked up in the table it is that
machine, its trees have numbers that were handed out already, and no other number has an entry. -/
structure Refines (i : Interpreter) (m : Machine) : Prop where
  machine : (reading i.distances.read).machine i.machine = bare.machine m
  numbers : (reading (below i.next)).machine i.machine = bare.machine i.machine
  unread : ∀ n, i.next ≤ n → i.distances.read (some n) = none

/-- A request ends in the same way on both sides, and the interpreter still stands for the
machine. -/
inductive Matches : EStateM.Result RunFailure Interpreter Value →
    EStateM.Result RunFailure Machine Value → Prop where
  | ok (value : Value) {i : Interpreter} {m : Machine} (h : i.Refines m) :
      Matches (.ok value i) (.ok value m)
  | error (failure : RunFailure) {i : Interpreter} {m : Machine} (h : i.Refines m) :
      Matches (.error failure i) (.error failure m)

namespace Refines

theorem initial (clock : Clock) : (Interpreter.initial clock).Refines (.initial clock) where
  machine := (Relabel.machine_initial _ clock).trans (Relabel.machine_initial _ clock).symm
  numbers := (Relabel.machine_initial _ clock).trans (Relabel.machine_initial _ clock).symm
  unread _ _ := rfl

variable {i : Interpreter} {m : Machine}

/-- How numbers are read that were not handed out does not matter. -/
theorem machine_congr (h : i.Refines m) {read read' : Option Int → Option Int}
    (hr : read ∘ below i.next = read' ∘ below i.next) :
    (reading read).machine i.machine = (reading read').machine i.machine := by
  calc (reading read).machine i.machine
      = (reading read).machine (bare.machine i.machine) :=
        (Relabel.machine_reading id read i.machine).symm
    _ = (reading (read ∘ below i.next)).machine i.machine := by
        rw [← h.numbers, Relabel.machine_reading]
    _ = (reading read').machine (bare.machine i.machine) := by
        rw [hr, ← h.numbers, Relabel.machine_reading]
    _ = (reading read').machine i.machine := Relabel.machine_reading id read' i.machine

/-- The table reads numbers that were handed out, and no others. -/
theorem read_comp_below (h : i.Refines m) :
    i.distances.read ∘ below i.next = i.distances.read := by
  funext label
  cases label with
  | none => rfl
  | some n =>
    rw [Function.comp]
    by_cases hn : n < i.next
    · rw [below_of_lt hn]
    · have hle := Int.not_lt.1 hn
      rw [below_of_le hle, h.unread n hle]
      rfl

/-- Labels that were not handed out are unread. -/
theorem unread_of_fresh (h : i.Refines m) {start stop : Int} {labels : List (Option Int)}
    (hs : i.next ≤ start) (hf : Fresh start stop labels) : i.distances.Unread labels := by
  refine ⟨hf.nodup, hf.none_notMem, fun label hl => ?_⟩
  obtain ⟨n, rfl, hn, -⟩ := hf.mem label hl
  exact h.unread n (Int.le_trans hs hn)

/-- **New entries and numbers are not noticed**, if the entries are under new numbers. -/
theorem grow (h : i.Refines m) {start next : Int} {table : Distances} {labels : List (Option Int)}
    (hs : i.next ≤ start) (hf : Fresh start next labels)
    (hg : Distances.Grows labels i.distances table) :
    Refines { i with distances := table, next := next } m := by
  have hnext : i.next ≤ next := Int.le_trans hs hf.le
  -- a number that was handed out before is not among the labels
  have hold : table.read ∘ below i.next = i.distances.read ∘ below i.next := by
    funext label
    refine hg _ fun hl => ?_
    obtain ⟨n, hn, hstart, -⟩ := hf.mem _ hl
    have hlt := lt_of_below_eq_some hn
    omega
  refine ⟨(h.machine_congr hold).trans h.machine,
    h.machine_congr (below_comp_below hnext), fun n hn => ?_⟩
  -- and neither is one that will be handed out after them
  have hlater : some n ∉ labels := by
    intro hl
    obtain ⟨k, hk, -, hlt⟩ := hf.mem _ hl
    cases hk
    exact absurd hlt (Int.not_lt.2 hn)
  exact (hg (some n) hlater).trans (h.unread n (Int.le_trans hnext hn))

/-- Numbers that are used up are not noticed. -/
theorem spend (h : i.Refines m) {next : Int} (hn : i.next ≤ next) :
    Refines { i with next := next } m :=
  h.grow (Int.le_refl _) (.nil hn) (.refl [] i.distances)

/-- **Evaluation on both sides.**  A tree with its references looked up in the table is the tree
of the other side, and its numbers were handed out. -/
theorem evaluate (h : i.Refines m) {limits : Limits} {τ : Type} (kind : TreeKind limits τ)
    {numbered tree : τ} {start : Int} (hf : Fresh start i.next (kind.labels numbered))
    (ht : kind.relabel (reading i.distances.read) numbered = kind.relabel bare tree) :
    Matches (i.evaluate fun read => kind.eval read numbered)
      (Run.ofEval (kind.eval id tree) m) := by
  have hsame : (reading i.distances.read).result id
      (kind.eval i.distances.read numbered i.machine) = bare.result id (kind.eval id tree m) := by
    have hread := kind.carries (F := reading i.distances.read) id numbered rfl i.machine
    have hbare := kind.carries (F := bare) id tree rfl m
    rw [ht, h.machine] at hread
    exact hread.symm.trans hbare
  have hnumbers : (reading (below i.next)).result id
      (kind.eval i.distances.read numbered i.machine) =
        bare.result id (kind.eval i.distances.read numbered i.machine) := by
    have hbelow :=
      kind.carries (F := reading (below i.next)) i.distances.read numbered rfl i.machine
    have hbare := kind.carries (F := bare) i.distances.read numbered rfl i.machine
    rw [show i.distances.read ∘ (reading (below i.next)).hops = _ from h.read_comp_below,
      kind.agree hf.agree_below, h.numbers] at hbelow
    exact hbelow.symm.trans hbare
  unfold Interpreter.evaluate Run.ofEval EStateM.adaptExcept
  dsimp only
  cases hs : kind.eval i.distances.read numbered i.machine with
  | ok value machine =>
    rw [hs] at hsame hnumbers
    cases hs' : kind.eval id tree m with
    | ok value' m' =>
      rw [hs'] at hsame
      obtain ⟨rfl, hm⟩ := EStateM.Result.ok.inj hsame
      exact .ok value ⟨hm, (EStateM.Result.ok.inj hnumbers).2, h.unread⟩
    | error stop m' =>
      rw [hs'] at hsame
      cases hsame
  | error stop machine =>
    rw [hs] at hsame hnumbers
    cases hs' : kind.eval id tree m with
    | ok value' m' =>
      rw [hs'] at hsame
      cases hsame
    | error stop' m' =>
      rw [hs'] at hsame
      obtain ⟨hstop, hm⟩ := EStateM.Result.error.inj hsame
      rw [Relabel.stop_reading, Relabel.stop_reading] at hstop
      subst hstop
      exact .error (.stop stop) ⟨hm, (EStateM.Result.error.inj hnumbers).2, h.unread⟩

/-! ### Requests -/

variable {limits : Limits}

theorem run (h : i.Refines m) (N : Numbering) (source : String) :
    Matches (i.run N limits source) (ScopedScript.run limits source m) := by
  have hstart : i.next ≤ i.next + N.spent source := by omega
  rw [run_eq, Interpreter.run]
  cases loadTokens source >>= loadStatements with
  | error failure => exact .error failure (h.spend hstart)
  | ok read =>
    have hfresh := N.stmts_fresh (i.next + N.spent source) read
    -- the numbers in the tree mean nothing to scope analysis
    have hanalyze : Analyze.stmts (N.stmts (i.next + N.spent source) read).1 =
        Analyze.stmts read := by
      rw [← Analyze.stmts_plain, N.stmts_plain, Analyze.stmts_plain]
    have hwalk := Resolve.stmts_tracks _ .initial i.distances (h.unread_of_fresh hstart hfresh)
    rw [hanalyze] at hwalk
    dsimp only
    cases ha : Analyze.stmts read .initial with
    | error e state =>
      rw [ha] at hwalk
      obtain ⟨table, hresolve, hgrows⟩ := hwalk
      rw [hresolve]
      exact .error (.resolve e) (h.grow hstart hfresh hgrows)
    | ok located state =>
      rw [ha] at hwalk
      obtain ⟨table, hresolve, hgrows, htree⟩ := hwalk
      rw [hresolve]
      have hi := h.grow hstart hfresh hgrows
      have hexec := hi.evaluate (TreeKind.stmts limits) hfresh (htree table.read fun _ _ => rfl)
      rw [show (TreeKind.stmts limits).eval id located = _ from execAllBy_id .nil located] at hexec
      exact hexec

/-- A request for a single tree, which has no numbers when it is read. -/
theorem runSingle (h : i.Refines m) (N : Numbering) {τ : Type} (kind : TreeKind limits τ)
    {reader : Reader τ} {number : Int → τ → τ × Int} {source : String}
    (hplain : ∀ start tree, kind.relabel plain (number start tree).1 = kind.relabel plain tree)
    (hfresh : ∀ start tree, Fresh start (number start tree).2 (kind.labels (number start tree).1))
    (hnone : ∀ tree, loadSingle reader source = .ok tree →
      ∀ label ∈ kind.labels tree, label = none) :
    Matches (Interpreter.runSingle N reader number kind.eval source i)
      ((Run.ofExcept (loadSingle reader source) >>= fun tree =>
        Run.ofEval (kind.eval id tree)) m) := by
  have hstart : i.next ≤ i.next + N.spent source := by omega
  unfold Interpreter.runSingle
  cases hl : loadSingle reader source with
  | error failure => exact .error failure (h.spend hstart)
  | ok tree =>
    have hf := hfresh (i.next + N.spent source) tree
    have hunread := h.unread_of_fresh hstart hf
    have hi := h.spend (Int.le_trans hstart hf.le)
    refine hi.evaluate kind hf ?_
    calc kind.relabel (reading i.distances.read) (number (i.next + N.spent source) tree).1
        = kind.relabel plain (number (i.next + N.spent source) tree).1 := kind.agree hunread.read
      _ = kind.relabel plain tree := hplain _ tree
      _ = kind.relabel bare tree := kind.agree fun label hlabel => (hnone tree hl label hlabel).symm

/-- **An interpreter does what the machine does that it stands for.** -/
theorem perform (h : i.Refines m) (N : Numbering) (request : Request) :
    Matches (i.perform N limits request) (request.perform limits m) := by
  cases request with
  | program source => exact h.run N source
  | expression source =>
    have hnone : ∀ e, loadSingle readExpression source = .ok e →
        ∀ label ∈ e.labels, label = none := by
      intro e he
      obtain ⟨-, hr⟩ := loadSingle_eq_ok_iff.1 he
      exact ((readExpression_eq_ok_iff fun t => scanned_ne_eof).1 hr).labels_eq_none
    have hrun := h.runSingle N (TreeKind.expr limits) N.expr_plain N.expr_fresh hnone
    have heval : (TreeKind.expr limits).eval id = eval limits.rounds limits.depth :=
      funext fun e => Task.runBy_id limits.rounds limits.depth (.expr e)
    rw [heval] at hrun
    exact hrun
  | statement source =>
    have hnone : ∀ s, loadSingle readDeclaration source = .ok s →
        ∀ label ∈ s.labels, label = none := by
      intro s hs
      obtain ⟨-, rest, hr⟩ := loadSingle_eq_ok_iff.1 hs
      obtain ⟨used, -, d, hd, -⟩ := (Reader.sound _).declaration hr
      exact hd.labels_eq_none
    have hrun := h.runSingle N (TreeKind.stmt limits) N.stmt_plain N.stmt_fresh hnone
    have heval : (fun s => Run.ofEval ((TreeKind.stmt limits).eval id s)) = fun s =>
        Outcome.value <$> Run.ofEval (exec limits.rounds limits.depth s) :=
      funext fun s =>
        (congrArg Run.ofEval (execAllBy_id .nil [s])).trans (ofEval_execAll_singleton s)
    rw [heval] at hrun
    exact hrun

/-- The interpreter stands for the machine after a request, too. -/
theorem after (h : i.Refines m) (N : Numbering) (request : Request) :
    (after (i.perform N limits request)).Refines ((request.perform limits).after m) := by
  have hstep : Matches (i.perform N limits request) (request.perform limits m) :=
    h.perform N request
  rw [Run.after]
  generalize i.perform N limits request = r, request.perform limits m = r' at hstep ⊢
  cases hstep with
  | ok value h => exact h
  | error failure h => exact h

/-- **The interpreter stands for the machine after any requests.** -/
theorem serve (h : i.Refines m) (N : Numbering) (requests : List Request) :
    (i.serve N limits requests).Refines (m.serve limits requests) := by
  induction requests generalizing i m with
  | nil => exact h
  | cons request requests ih => exact ih (h.after N request)

end Refines

end Interpreter

/-! ## Answers -/

/-- **What is seen of requests**, one after the other: what has been printed after each, and its
result or why it failed. -/
def answers {σ : Type} (output : σ → Array String)
    (perform : Request → σ → EStateM.Result RunFailure σ Value) :
    List Request → σ → List (Array String × Except RunFailure Value)
  | [], _ => []
  | request :: requests, state =>
    match perform request state with
    | .ok value state => (output state, .ok value) :: answers output perform requests state
    | .error failure state =>
      (output state, .error failure) :: answers output perform requests state

/-- What a machine answers. -/
def Machine.answers (limits : Limits) (m : Machine) (requests : List Request) :
    List (Array String × Except RunFailure Value) :=
  ScopedScript.answers Machine.output (Request.perform limits) requests m

/-- What an interpreter answers. -/
def Interpreter.answers (N : Numbering) (limits : Limits) (i : Interpreter)
    (requests : List Request) : List (Array String × Except RunFailure Value) :=
  ScopedScript.answers (·.machine.output) (Interpreter.perform N limits) requests i

/-- **An interpreter answers what the machine answers that it stands for.** -/
theorem Interpreter.Refines.answers {limits : Limits} {i : Interpreter} {m : Machine}
    (h : i.Refines m) (N : Numbering) (requests : List Request) :
    i.answers N limits requests = m.answers limits requests := by
  unfold Interpreter.answers Machine.answers
  induction requests generalizing i m with
  | nil => rfl
  | cons request requests ih =>
    have hstep : Matches (i.perform N limits request) (request.perform limits m) :=
      h.perform N request
    simp only [ScopedScript.answers]
    generalize i.perform N limits request = r, request.perform limits m = r' at hstep ⊢
    cases hstep with
    | @ok value i' m' h | @error failure i' m' h =>
      have houtput : i'.machine.output = m'.output := (congrArg Machine.output h.machine :)
      simp only [ih h, houtput]

end ScopedScript

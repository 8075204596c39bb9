import ScopedScript.Proofs.Blame
import ScopedScript.Proofs.Grammar.Recovery
import ScopedScript.Proofs.Scope.Runs

/-!
# Executing trees that were read

Trees that were read are well formed, also where other parts of the input have errors, and scope
analysis keeps them so.  As long as a machine executes only such trees, from whatever token lists
and however each execution ends, the code on its heap is well formed too, and no execution and no
request ends with an error that blames a tree.

## Main definitions

* `Task.ReadFrom tokens`: the trees that are read from a token list.
* `Machine.Executed`: the machines on which only trees that were read were executed.

## Main results

* `Task.ReadFrom.wellFormed`: a tree that was read is well formed.
* `Machine.Executed.perform`: a request executes only trees that were read.
* `read_trees_blameless`: no execution of trees that were read blames one of them.
-/

namespace ScopedScript

variable {P : Token → Prop}

/-! ## Trees that were read -/

/-- **The trees that are read from a token list**: an expression, a declaration, or a declaration
of a program, of which others may have errors.  References in them may have been located. -/
inductive Task.ReadFrom (tokens : List Token) : Task → Prop
  | expression {e : Expr} {rest : List Token} (h : readExpression tokens = .ok e rest) :
    ReadFrom tokens (.expr e)
  | declaration {s : Stmt} {rest : List Token} (h : readDeclaration tokens = .ok s rest) :
    ReadFrom tokens (.stmt s)
  | program {s : Stmt} (h : s ∈ (readProgram tokens).statements) : ReadFrom tokens (.stmt s)
  | located {ss located : List Stmt} {s : Stmt} (hs : ∀ s ∈ ss, ReadFrom tokens (.stmt s))
    (ha : analyze ss = .ok located) (h : s ∈ located) : ReadFrom tokens (.stmt s)

theorem Stmt.allWellFormed_iff {ss : List Stmt} :
    Stmt.AllWellFormed P ss ↔ ∀ s ∈ ss, s.WellFormed P := by
  refine ⟨fun h s hs => h.of_mem hs, fun h => ?_⟩
  induction ss with
  | nil => trivial
  | cons s ss ih =>
    obtain ⟨hs, hss⟩ := List.forall_mem_cons.1 h
    exact ⟨hs, ih hss⟩

theorem readDeclaration_wellFormed {tokens rest : List Token} {s : Stmt}
    (h : readDeclaration tokens = .ok s rest) (ht : ∀ t ∈ tokens, P t) : s.WellFormed P := by
  obtain ⟨used, rfl, d, hd, -⟩ := (Reader.sound _).declaration h
  exact hd.wellFormed fun t hm => ht t (List.mem_append_left rest hm)

theorem readExpression_wellFormed {tokens rest : List Token} {e : Expr}
    (h : readExpression tokens = .ok e rest) (ht : ∀ t ∈ tokens, P t) : e.WellFormed P := by
  obtain ⟨used, rfl, -, hd⟩ := readExpression_sound h
  exact hd.wellFormed fun t hm => ht t (List.mem_append_left rest hm)

/-- The declarations among the segments of an input are well formed. -/
theorem Splits.wellFormed {tokens rest : List Token} {segments : List Segment}
    (h : Splits tokens segments rest) (ht : ∀ t ∈ tokens, P t) :
    ∀ s ∈ segments.filterMap Segment.tree?, s.WellFormed P := by
  induction h with
  | done tokens => simp
  | @more segment segments tokens rest hn he hf hs ih =>
    have hrest := ih fun t hm => ht t (List.mem_append_right _ hm)
    cases segment with
    | statement used tree =>
      exact List.forall_mem_cons.2 ⟨readDeclaration_wellFormed hf ht, hrest⟩
    | discarded used error => exact hrest

/-- **A tree that was read is well formed**, over the tokens it was read from. -/
theorem Task.ReadFrom.wellFormed {tokens : List Token} {task : Task} (h : task.ReadFrom tokens)
    (ht : ∀ t ∈ tokens, P t) : task.WellFormed P := by
  induction h with
  | expression h => exact readExpression_wellFormed h ht
  | declaration h => exact readDeclaration_wellFormed h ht
  | program h =>
    obtain ⟨segments, rest, hs, hstatements, -⟩ := readProgram_splits tokens
    exact hs.wellFormed ht _ (hstatements ▸ h)
  | located hs ha h ih =>
    exact (analyze_wellFormed (Stmt.allWellFormed_iff.2 ih) ha).of_mem h

/-! ## Machines that execute what was read -/

/-- **The machines on which only trees that were read were executed**, each from tokens of its
own and however it ended. -/
inductive Machine.Executed : Machine → Prop
  | initial (clock : Clock) : Executed (Machine.initial clock)
  | native {machine : Machine} (h : Executed machine) (native : Native) :
    Executed (machine.addNative native)
  | task {machine : Machine} (h : Executed machine) {tokens : List Token} {task : Task}
    (ht : task.ReadFrom tokens) (rounds depth : Nat) :
    Executed ((task.run rounds depth).after machine)

namespace Machine.Executed

variable {machine : Machine}

/-- The code on the heap is well formed, over tokens of whatever lists were read. -/
theorem code (h : machine.Executed) : machine.heap.CodeWellFormed fun _ => True := by
  induction h with
  | initial clock =>
    constructor
    · intro closure hc
      exact absurd hc (Array.not_mem_empty closure)
    · intro cls hc
      exact absurd hc (Array.not_mem_empty cls)
  | native h native ih => exact ⟨ih.functions, ih.classes⟩
  | task h ht rounds depth ih => exact (ht.wellFormed fun _ _ => trivial).code_after rounds depth ih

variable {limits : Limits} {tokens : List Token}

theorem execAll (h : machine.Executed) {ss : List Stmt}
    (hs : ∀ s ∈ ss, Task.ReadFrom tokens (.stmt s)) (value : Value) :
    ((execAll limits value ss).after machine).Executed := by
  induction ss generalizing machine value with
  | nil => exact h
  | cons s ss ih =>
    obtain ⟨hs, hss⟩ := List.forall_mem_cons.1 hs
    have hfirst : ((exec limits.rounds limits.depth s).after machine).Executed :=
      h.task hs limits.rounds limits.depth
    rw [ScopedScript.execAll, Eval.after_bind]
    unfold Eval.after at hfirst
    cases hr : exec limits.rounds limits.depth s machine with
    | ok outcome machine' =>
      rw [hr] at hfirst
      exact ih hfirst hss outcome.value
    | error stop machine' =>
      rw [hr] at hfirst
      exact hfirst

end Machine.Executed

/-! ## Requests -/

/-- The declarations of a loaded program were read, and the references in them located. -/
theorem load_readFrom {source : String} {ss : List Stmt} (h : load source = .ok ss) :
    ∀ s ∈ ss, Task.ReadFrom (scan source).tokens (.stmt s) := by
  obtain ⟨-, read, hr, ha⟩ := load_eq_ok_iff.1 h
  exact fun s hs => .located (fun s hs => .program (hr.2.2 ▸ hs)) ha hs

/-- Loading a single tree never ends like an evaluation. -/
theorem loadSingle_ne_stop {α : Type} (reader : Reader α) (source : String) (stop : Stop) :
    loadSingle reader source ≠ .error (.stop stop) := by
  intro h
  unfold loadSingle loadTokens at h
  dsimp only at h
  split at h
  case isFalse => cases h
  case isTrue =>
    dsimp only [bind, Except.bind] at h
    split at h <;> cases h

section Stops

variable {α β : Type} {machine machine' : Machine} {stop : Stop}

/-- What stops after a single tree was loaded stops on that tree. -/
theorem Run.stops_after_loadSingle {reader : Reader α} {source : String} {next : α → Run β}
    (h : (Run.ofExcept (loadSingle reader source) >>= next) machine =
      .error (.stop stop) machine') :
    ∃ tree rest, reader (scan source).tokens = .ok tree rest ∧
      next tree machine = .error (.stop stop) machine' := by
  cases hl : loadSingle reader source with
  | error failure =>
    rw [hl] at h
    cases h
    exact absurd hl (loadSingle_ne_stop reader source stop)
  | ok tree =>
    obtain ⟨-, rest, hr⟩ := loadSingle_eq_ok_iff.1 hl
    rw [hl] at h
    exact ⟨tree, rest, hr, h⟩

/-- A run that stops in an evaluation stops as the evaluation fails. -/
theorem Run.fails_of_ofEval {step : Eval α}
    (h : Run.ofEval step machine = .error (.stop stop) machine') :
    Eval.Fails step machine stop := by
  change EStateM.adaptExcept RunFailure.stop step machine = _ at h
  unfold EStateM.adaptExcept at h
  split at h <;> cases h
  exact ⟨machine', by assumption⟩

end Stops

namespace Machine.Executed

variable {machine : Machine}

/-- **A request executes only trees that were read.** -/
theorem perform (h : machine.Executed) (limits : Limits) (request : Request) :
    ((request.perform limits).after machine).Executed := by
  cases request with
  | program source =>
    rw [Request.perform, run, Run.after_ofExcept_bind]
    cases hl : load source with
    | error failure => exact h
    | ok ss =>
      dsimp only
      rw [Run.after_ofEval]
      exact h.execAll (load_readFrom hl) .nil
  | expression source =>
    rw [Request.perform, runExpression, Run.after_ofExcept_bind]
    cases hl : loadSingle readExpression source with
    | error failure => exact h
    | ok e =>
      dsimp only
      rw [Run.after_ofEval]
      obtain ⟨-, rest, hr⟩ := loadSingle_eq_ok_iff.1 hl
      exact h.task (.expression hr) limits.rounds limits.depth
  | statement source =>
    rw [Request.perform, runStatement, Run.after_ofExcept_bind]
    cases hl : loadSingle readDeclaration source with
    | error failure => exact h
    | ok s =>
      dsimp only
      rw [Run.after_map, Run.after_ofEval]
      obtain ⟨-, rest, hr⟩ := loadSingle_eq_ok_iff.1 hl
      exact h.task (.declaration hr) limits.rounds limits.depth

/-- **No execution of a tree that was read blames a tree.** -/
theorem blamesTree_eq_false (h : machine.Executed) {tokens : List Token} {task : Task}
    (ht : task.ReadFrom tokens) {rounds depth : Nat} {stop : Stop}
    (hf : Eval.Fails (task.run rounds depth) machine stop) : stop.blamesTree = false :=
  (ht.wellFormed fun _ _ => trivial).blamesTree_eq_false rounds depth h.code hf

/-- And so does no request. -/
theorem perform_blamesTree (h : machine.Executed) {limits : Limits} {request : Request}
    {stop : Stop} {machine' : Machine}
    (hp : request.perform limits machine = .error (.stop stop) machine') :
    stop.blamesTree = false := by
  cases request with
  | program source =>
    obtain ⟨mo, ⟨before, s, after, value, start, hl, hb, hr⟩, hraise⟩ :=
      run_stops_iff.1 ⟨machine', hp⟩
    have hread := load_readFrom hl
    simp only [List.forall_mem_append, List.forall_mem_cons] at hread
    have hstart : start.Executed := by
      have he : ((ScopedScript.execAll limits .nil before).after machine).Executed :=
        h.execAll hread.1 .nil
      rwa [Eval.after, hb] at he
    exact hstart.blamesTree_eq_false hread.2.1 ((Moment.fails_iff limits.rounds).2 ⟨mo, hr, hraise⟩)
  | expression source =>
    obtain ⟨e, rest, hr, he⟩ := Run.stops_after_loadSingle hp
    exact h.blamesTree_eq_false (.expression hr) (Run.fails_of_ofEval he)
  | statement source =>
    obtain ⟨s, rest, hr, hs⟩ := Run.stops_after_loadSingle hp
    -- only the value of the outcome is kept, so the evaluation itself fails
    rw [← bind_pure_comp, bind_eq_error_iff] at hs
    rcases hs with hs | ⟨_, _, -, hs⟩
    · exact h.blamesTree_eq_false (.declaration hr) (Run.fails_of_ofEval hs)
    · cases hs

end Machine.Executed

/-- **Trees that were read are well formed, and their execution blames none of them.**  On a
machine that executed only such trees, neither the execution of another one nor a request ends
with an error about a name that is no identifier or an operator that is none; and a request
leaves such a machine. -/
theorem read_trees_blameless (tokens : List Token) :
    (∀ task : Task, task.ReadFrom tokens → task.WellFormed (· ∈ tokens)) ∧
      ∀ machine : Machine, machine.Executed →
        (∀ task : Task, task.ReadFrom tokens → ∀ rounds depth stop,
          Eval.Fails (task.run rounds depth) machine stop → stop.blamesTree = false) ∧
        ∀ limits (request : Request), ((request.perform limits).after machine).Executed ∧
          ∀ stop machine', request.perform limits machine = .error (.stop stop) machine' →
            stop.blamesTree = false := by
  refine ⟨fun task ht => ht.wellFormed fun _ hm => hm, fun machine h => ⟨?_, ?_⟩⟩
  · exact fun task ht rounds depth stop hf => h.blamesTree_eq_false ht hf
  · exact fun limits request => ⟨h.perform limits request, fun _ _ hp => h.perform_blamesTree hp⟩

/-- The second declaration, read after an error in the first. -/
theorem read_trees_blameless_recovered :
    ∃ s, (readProgram (scan ");-a;").tokens).statements = [s] ∧
      (readProgram (scan ");-a;").tokens).errors.length = 1 ∧
      s.WellFormed (· ∈ (scan ");-a;").tokens) ∧
      ∀ clock rounds depth stop, Eval.Fails (exec rounds depth s) (Machine.initial clock) stop →
        stop.blamesTree = false := by
  obtain ⟨s, hs⟩ := List.length_eq_one_iff.1
    (show (readProgram (scan ");-a;").tokens).statements.length = 1 by decide +kernel)
  have hread : Task.ReadFrom (scan ");-a;").tokens (.stmt s) :=
    .program (hs ▸ List.mem_singleton_self s)
  obtain ⟨hw, hb⟩ := read_trees_blameless (scan ");-a;").tokens
  refine ⟨s, hs, by decide +kernel, hw _ hread, fun clock rounds depth stop hf => ?_⟩
  exact (hb _ (.initial clock)).1 _ hread rounds depth stop hf

end ScopedScript

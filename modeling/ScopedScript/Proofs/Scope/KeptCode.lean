import ScopedScript.Proofs.ReadTrees
import ScopedScript.Proofs.Scope.Runs

/-!
# Where the code of a run comes from

A run evaluates nodes of its own source, and nodes of earlier sources that are kept on the heap: the
bodies of functions and of the methods of classes that were there when the run began.  All code on
the heap of a machine that has run sources occurs in one of them, so each node that is evaluated was
read from the tokens of the source it comes from.

## Main definitions

* `Heap.Stores`, `Heap.HasCode`: the functions and methods on a heap, and the nodes in them.
* `Task.ComesFrom`: the nodes that a run of a source may evaluate.

## Main results

* `Evaluated.comesFrom`: a run evaluates nodes of its source, and nodes that are on the heap.
* `Occurs.wellFormed`: a node is well formed over the tokens of the source it occurs in.
-/

namespace ScopedScript

/-! ## Code on the heap -/

/-- A function on the heap, or a method of a class there. -/
def Heap.Stores (heap : Heap) (closure : Closure) : Prop :=
  closure ∈ heap.functions ∨ ∃ cls ∈ heap.classes, ∃ name, cls.methods.get? name = some closure

/-- **The code on a heap**: the nodes in the bodies of its functions and methods. -/
def Heap.HasCode (heap : Heap) (task : Task) : Prop :=
  ∃ closure, heap.Stores closure ∧ ∃ s ∈ closure.body, (Task.stmt s).Contains task

theorem Heap.HasCode.closed (heap : Heap) : Task.Closed heap.HasCode := by
  rintro task ⟨closure, hc, s, hs, hcontains⟩ part hp
  exact ⟨closure, hc, s, hs, hcontains.tail hp⟩

theorem Task.Closed.contains {known : Task → Prop} (hclosed : Task.Closed known)
    {outer inner : Task} (h : outer.Contains inner) (hk : known outer) : known inner := by
  induction h with
  | refl => exact hk
  | tail _ hp ih => exact hclosed ih _ hp

namespace Heap.Sound

variable {known known' : Task → Prop} {heap : Heap} {task : Task}

/-- What is in place stays in place if less is asked of its code. -/
theorem of_stores (h : heap.Sound known)
    (hk : ∀ closure, heap.Stores closure → ∀ s ∈ closure.body, known' (.stmt s)) :
    heap.Sound known' := by
  constructor
  · intro closure hc
    obtain ⟨scopes, hcovers, hl, hi⟩ := h.functions closure hc
    exact ⟨scopes, hcovers, ⟨hk closure (.inl hc), hl.names, hl.body⟩, hi⟩
  · intro cls hc name method hm
    obtain ⟨scopes, hcovers, hl⟩ := h.classes cls hc name method hm
    exact ⟨scopes, hcovers, hk method (.inr ⟨cls, hc, name, hm⟩), hl.names, hl.body⟩

/-- The code on a sound heap is known. -/
theorem known_of_hasCode (h : heap.Sound known) (hclosed : Task.Closed known)
    (hc : heap.HasCode task) : known task := by
  obtain ⟨closure, hstores, s, hs, hcontains⟩ := hc
  refine hclosed.contains hcontains ?_
  rcases hstores with hf | ⟨cls, hcls, name, hm⟩
  · obtain ⟨scopes, -, hl, -⟩ := h.functions closure hf
    exact hl.known s hs
  · obtain ⟨scopes, -, hl⟩ := h.classes cls hcls name closure hm
    exact hl.known s hs

end Heap.Sound

/-- A machine goes on to stand in its scopes if more code is known. -/
theorem Machine.StandsIn.of_imp {known known' : Task → Prop} {machine : Machine}
    {scopes : List Scope} (h : machine.StandsIn known scopes) (hclosed : Task.Closed known)
    (hk : ∀ task, known task → known' task) : machine.StandsIn known' scopes :=
  ⟨h.covers, h.sound.of_stores fun closure hc s hs =>
    hk _ (h.sound.known_of_hasCode hclosed ⟨closure, hc, s, hs, .refl⟩)⟩

/-- **The nodes that a run of a source may evaluate**: those of the source, and those that are on
the heap when it begins. -/
def Task.ComesFrom (source : String) (heap : Heap) (task : Task) : Prop :=
  Occurs [source] task ∨ heap.HasCode task

theorem Task.ComesFrom.closed (source : String) (heap : Heap) :
    Task.Closed (Task.ComesFrom source heap) := by
  rintro task (h | h) part hp
  · exact .inl (Occurs.closed _ h part hp)
  · exact .inr (Heap.HasCode.closed _ h part hp)

/-- **A run evaluates nodes of its source, and nodes that were on the heap when it began.** -/
theorem Evaluated.comesFrom {limits : Limits} {machine : Machine} {source : String} {mo : Moment}
    {known : Task → Prop} (h : Evaluated limits machine source mo)
    (hm : machine.StandsIn known []) : mo.task.ComesFrom source machine.heap := by
  -- these nodes come with their parts, so evaluation keeps to them
  have hclosed := Task.ComesFrom.closed source machine.heap
  have hm : machine.StandsIn (Task.ComesFrom source machine.heap) [] :=
    ⟨hm.covers, hm.sound.of_stores fun closure hc s hs => .inr ⟨closure, hc, s, hs, .refl⟩⟩
  obtain ⟨before, s, after, value, start, hl, hb, hreach⟩ := h
  obtain ⟨hk, hl⟩ := loaded_known List.mem_cons_self hl
  simp only [List.forall_mem_append, List.forall_mem_cons] at hk hl
  have hstart : ((execAll limits .nil before).after machine).StandsIn
      (Task.ComesFrom source machine.heap) [] :=
    execAll_standsIn hclosed (fun s hs => .inl (hk.1 s hs)) hl.1 hm .nil
  rw [Eval.after, hb] at hstart
  have hpre : (ScopedScript.agreement (Task.ComesFrom source machine.heap) limits.rounds).pre
      (.stmt s) start := ⟨.inl hk.2.1, [], hl.2.1, hstart⟩
  exact ((agreement_kept hclosed limits.rounds).reaches hpre hreach).1

/-! ## Tokens of nodes -/

section WellFormed

variable {P : Token → Prop}

theorem Expr.WellFormed.part {e : Expr} (h : e.WellFormed P) {part : Task} (hp : part ∈ e.parts) :
    part.WellFormed P := by
  cases e with
  | literal | «variable» | this => simp [Expr.parts] at hp
  | assign name value hops seen =>
    obtain rfl := List.mem_singleton.1 hp
    exact h.2
  | group inner =>
    obtain rfl := List.mem_singleton.1 hp
    exact h
  | unary op operand =>
    obtain rfl := List.mem_singleton.1 hp
    exact h.2.2
  | get object name =>
    obtain rfl := List.mem_singleton.1 hp
    exact h.1
  | binary left op right | logical left op right =>
    simp only [Expr.parts, List.mem_cons, List.not_mem_nil, or_false] at hp
    rcases hp with rfl | rfl
    · exact h.1
    · exact h.2.2.2
  | set object name value =>
    simp only [Expr.parts, List.mem_cons, List.not_mem_nil, or_false] at hp
    rcases hp with rfl | rfl
    · exact h.1
    · exact h.2.2
  | conditional condition whenTrue whenFalse =>
    simp only [Expr.parts, List.mem_cons, List.not_mem_nil, or_false] at hp
    rcases hp with rfl | rfl | rfl
    · exact h.1
    · exact h.2.1
    · exact h.2.2
  | sequence items =>
    obtain ⟨item, hm, rfl⟩ := List.mem_map.1 hp
    exact h.2.of_mem hm
  | call callee paren args =>
    rcases List.mem_cons.1 hp with rfl | hp
    · exact h.1
    · obtain ⟨arg, hm, rfl⟩ := List.mem_map.1 hp
      exact h.2.2.2.of_mem hm
  | lambda keyword params body =>
    obtain ⟨s, hm, rfl⟩ := List.mem_map.1 hp
    exact h.2.2.of_mem hm

theorem Stmt.WellFormed.part {s : Stmt} (h : s.WellFormed P) {part : Task} (hp : part ∈ s.parts) :
    part.WellFormed P := by
  cases s with
  | expression | print =>
    obtain rfl := List.mem_singleton.1 hp
    exact h
  | var name initializer =>
    cases initializer with
    | none => exact absurd hp List.not_mem_nil
    | some initializer =>
      obtain rfl := List.mem_singleton.1 hp
      exact h.2
  | block statements =>
    obtain ⟨s, hm, rfl⟩ := List.mem_map.1 hp
    exact Stmt.AllWellFormed.of_mem h hm
  | branch condition whenTrue whenFalse =>
    simp only [Stmt.parts, List.mem_cons] at hp
    rcases hp with rfl | rfl | hp
    · exact h.1
    · exact h.2.1
    · cases whenFalse with
      | none => exact absurd hp List.not_mem_nil
      | some whenFalse =>
        obtain rfl := List.mem_singleton.1 hp
        exact h.2.2.2.1
  | loop condition body =>
    simp only [Stmt.parts, List.mem_cons, List.not_mem_nil, or_false] at hp
    rcases hp with rfl | rfl
    · exact h.1
    · exact h.2.1
  | function decl =>
    obtain ⟨name, params, body⟩ := decl
    obtain ⟨s, hm, rfl⟩ := List.mem_map.1 hp
    exact h.2.2.of_mem hm
  | «return» keyword value =>
    cases value with
    | none => exact absurd hp List.not_mem_nil
    | some value =>
      obtain rfl := List.mem_singleton.1 hp
      exact h.2
  | «class» name methods =>
    obtain ⟨method, hm, hp⟩ := List.mem_flatMap.1 hp
    obtain ⟨s, hs, rfl⟩ := List.mem_map.1 hp
    have hmethod := h.2.of_mem hm
    cases method with
    | mk name params body => exact hmethod.2.2.of_mem hs

/-- The parts of a well-formed node are well formed. -/
theorem Task.WellFormed.closed (P : Token → Prop) : Task.Closed (Task.WellFormed P) := by
  intro task h part hp
  cases task with
  | expr e => exact Expr.WellFormed.part h hp
  | stmt s => exact Stmt.WellFormed.part h hp

/-- **A node is well formed over the tokens of the source it occurs in.** -/
theorem Occurs.wellFormed {sources : List String} {task : Task} (h : Occurs sources task) :
    ∃ source ∈ sources, task.WellFormed (· ∈ (scan source).tokens) := by
  obtain ⟨source, hm, statements, hl, s, hs, hcontains⟩ := h
  have hread : (Task.stmt s).WellFormed (· ∈ (scan source).tokens) :=
    (load_readFrom hl s hs).wellFormed fun _ ht => ht
  exact ⟨source, hm, (Task.WellFormed.closed _).contains hcontains hread⟩

end WellFormed

end ScopedScript

import Mathlib.Logic.Relation
import ScopedScript.Program
import ScopedScript.Proofs.Grammar.Recognition
import ScopedScript.Proofs.Plan
import ScopedScript.Proofs.Scan.Kinds
import ScopedScript.Proofs.Scope.Located

/-!
# The nodes of a loaded program

A program that is loaded from a source is located in no scope.  Going down from its statements
to a node inside them, the open scopes are at each node those that the node holds if it is a
reference.  A name in them that is not ready is one of a variable whose initializer has the
node inside: this is the only place where such a name can be seen.

## Main definitions

* `Expr.parts`, `Stmt.parts`, `Task.Contains`: the nodes inside a node.
* `markAt`: whether a name is ready, in a scope some scopes out.
* `Occurs`: the nodes of the programs loaded from some sources.

## Main results

* `load_located`: a loaded program is located in no scope.
* `Task.unready_in_initializer`: a name that is not ready belongs to an initializer around.
-/

namespace ScopedScript

/-- **A loaded program is located in no scope.** -/
theorem load_located {source : String} {statements : List Stmt}
    (h : load source = .ok statements) : Stmt.AllLocatedIn statements [] := by
  unfold load loadTokens at h
  dsimp only at h
  split at h
  case isFalse => cases h
  change (loadStatements (scan source).tokens >>= fun ss => (analyze ss).mapError .resolve) = _ at h
  unfold loadStatements at h
  dsimp only at h
  split at h
  case h_1 => cases h
  case h_2 hh =>
    split at h
    case isFalse => cases h
    case isTrue he =>
      have hr : (readProgram (scan source).tokens).Accepts _ := ⟨hh, List.isEmpty_iff.1 he, rfl⟩
      have hd := (readProgram_accepts_iff fun t => scanned_ne_eof).1 hr
      have hw := hd.wellFormed fun t ht => scanned_this ht
      change (analyze (readProgram (scan source).tokens).statements).mapError _ = _ at h
      cases ha : analyze (readProgram (scan source).tokens).statements with
      | ok resolved =>
        rw [ha] at h
        cases h
        exact analyze_located hw ha
      | error e =>
        rw [ha] at h
        cases h

theorem Stmt.scopesAfter_nil (s : Stmt) : s.scopesAfter [] = [] := by
  cases s <;> rfl

/-- Outside of every scope, statements leave no scope behind. -/
theorem Stmt.AllLocatedIn.of_nil {ss : List Stmt} (h : Stmt.AllLocatedIn ss []) :
    ∀ s ∈ ss, s.LocatedIn [] := by
  induction ss with
  | nil => exact fun _ hs => absurd hs List.not_mem_nil
  | cons s ss ih =>
    obtain ⟨hs, hss⟩ := h
    rw [s.scopesAfter_nil] at hss
    exact List.forall_mem_cons.2 ⟨hs, ih hss⟩

/-! ## Nodes inside nodes -/

/-- The nodes that an expression is made of. -/
def Expr.parts : Expr → List Task
  | .literal _ | .variable _ _ _ | .this _ _ _ => []
  | .assign _ value _ _ => [.expr value]
  | .group inner => [.expr inner]
  | .unary _ operand => [.expr operand]
  | .binary left _ right | .logical left _ right => [.expr left, .expr right]
  | .conditional condition whenTrue whenFalse =>
    [.expr condition, .expr whenTrue, .expr whenFalse]
  | .sequence items => items.map .expr
  | .call callee _ args => .expr callee :: args.map .expr
  | .lambda _ _ body => body.map .stmt
  | .get object _ => [.expr object]
  | .set object _ value => [.expr object, .expr value]

/-- The nodes that a statement is made of. -/
def Stmt.parts : Stmt → List Task
  | .expression inner | .print inner => [.expr inner]
  | .var _ initializer => initializer.toList.map .expr
  | .block statements => statements.map .stmt
  | .branch condition whenTrue whenFalse =>
    .expr condition :: .stmt whenTrue :: whenFalse.toList.map .stmt
  | .loop condition body => [.expr condition, .stmt body]
  | .function decl => decl.body.map .stmt
  | .return _ value => value.toList.map .expr
  | .class _ methods => methods.flatMap fun method => method.body.map .stmt

namespace Task

/-- The nodes that a node is made of. -/
def parts : Task → List Task
  | expr e => e.parts
  | stmt s => s.parts

/-- **The second node is inside the first**, or the same. -/
def Contains : Task → Task → Prop := Relation.ReflTransGen fun outer inner => inner ∈ outer.parts

/-- Nodes that come with their parts. -/
def Closed (known : Task → Prop) : Prop :=
  ∀ ⦃task : Task⦄, known task → ∀ part ∈ task.parts, known part

end Task

/-- **The nodes of the programs loaded from some sources.** -/
def Occurs (sources : List String) (task : Task) : Prop :=
  ∃ source ∈ sources, ∃ statements, load source = .ok statements ∧
    ∃ s ∈ statements, (Task.stmt s).Contains task

theorem Occurs.closed (sources : List String) : Task.Closed (Occurs sources) := by
  rintro task ⟨source, hm, statements, hl, s, hs, hc⟩ part hp
  exact ⟨source, hm, statements, hl, s, hs, hc.tail hp⟩

/-! ## Names that are not ready -/

/-- Whether a name is ready in the scope `distance` scopes out, if it is there. -/
def markAt (scopes : List Scope) (distance : Nat) (name : String) : Option Bool :=
  scopes[distance]?.bind (·.get? name)

@[simp]
theorem markAt_nil (distance : Nat) (name : String) : markAt [] distance name = none := rfl

@[simp]
theorem markAt_cons_zero (scope : Scope) (scopes : List Scope) (name : String) :
    markAt (scope :: scopes) 0 name = scope.get? name := rfl

@[simp]
theorem markAt_cons_succ (scope : Scope) (scopes : List Scope) (distance : Nat) (name : String) :
    markAt (scope :: scopes) (distance + 1) name = markAt scopes distance name := rfl

theorem markAt_succ (scopes : List Scope) (distance : Nat) (name : String) :
    markAt scopes (distance + 1) name = markAt scopes.tail distance name := by
  cases scopes <;> rfl

/-- Every name in the innermost scope is ready. -/
def Settled (scopes : List Scope) : Prop := ∀ name, markAt scopes 0 name ≠ some false

/-- A name that is not ready in the first scopes is not ready in the second either, where it
is in the same place from the outside. -/
def Inherits (scopes outer : List Scope) : Prop :=
  ∀ ⦃distance : Nat⦄ ⦃name : String⦄, markAt scopes distance name = some false →
    ∃ distance', markAt outer distance' name = some false ∧
      scopes.drop distance = outer.drop distance'

theorem Inherits.refl (scopes : List Scope) : Inherits scopes scopes := fun _ _ h => ⟨_, h, rfl⟩

theorem Inherits.trans {inner scopes outer : List Scope} (h : Inherits inner scopes)
    (h' : Inherits scopes outer) : Inherits inner outer := by
  intro distance name hm
  obtain ⟨d, hm, hd⟩ := h hm
  obtain ⟨d', hm, hd'⟩ := h' hm
  exact ⟨d', hm, hd.trans hd'⟩

/-- A scope in which every name is ready adds nothing. -/
theorem Inherits.cons {scope : Scope} {scopes : List Scope} (hs : Settled (scope :: scopes)) :
    Inherits (scope :: scopes) scopes := by
  intro distance name hm
  cases distance with
  | zero => exact absurd hm (hs name)
  | succ distance => exact ⟨distance, hm, rfl⟩

theorem Inherits.of_tail {scopes outer : List Scope} (hs : Settled scopes)
    (ht : scopes.tail = outer.tail) : Inherits scopes outer := by
  intro distance name hm
  cases distance with
  | zero => exact absurd hm (hs name)
  | succ distance =>
    -- only the innermost scopes differ
    rw [markAt_succ, ht, ← markAt_succ] at hm
    refine ⟨distance + 1, hm, ?_⟩
    rw [← List.drop_tail, ht, List.drop_tail]

theorem markAt_markIn (scopes : List Scope) (name other : String) (ready : Bool) :
    markAt (markIn scopes name ready) 0 other =
      if other = name ∧ scopes ≠ [] then some ready else markAt scopes 0 other := by
  cases scopes <;> simp [markIn]

theorem Settled.markIn {scopes : List Scope} (h : Settled scopes) (name : String) :
    Settled (markIn scopes name true) := by
  intro other
  rw [markAt_markIn]
  split
  · simp
  · exact h other

/-- A name that becomes ready adds nothing. -/
theorem Inherits.markIn {scopes : List Scope} (hs : Settled scopes) (name : String) :
    Inherits (markIn scopes name true) scopes :=
  .of_tail (hs.markIn name) (tail_markIn _ _ _)

/-- After a statement every name in the innermost scope is ready, if it was so before. -/
theorem Settled.scopesAfter {scopes : List Scope} (h : Settled scopes) (s : Stmt) :
    Settled (s.scopesAfter scopes) := by
  cases s with
  | var name initializer =>
    intro other
    simp only [Stmt.scopesAfter, markAt_markIn]
    have := h other
    cases scopes with
    | nil => simp
    | cons scope outer => split <;> simp_all [ScopedScript.markIn]
  | function decl => exact h.markIn _
  | «class» name methods => exact h.markIn _
  | _ => exact h

theorem settled_empty (scopes : List Scope) : Settled (.empty :: scopes) := by
  simp [Settled]

theorem settled_thisScope (scopes : List Scope) : Settled (thisScope :: scopes) := by
  intro name
  simp only [thisScope, markAt_cons_zero, NameMap.get?_insert]
  split <;> simp

theorem settled_parameterScope (params : List Token) (scopes : List Scope) :
    Settled (parameterScope params :: scopes) := by
  suffices h : ∀ scope : Scope, Settled (scope :: scopes) →
      Settled
        (params.foldl (fun scope param => scope.insert param.lexeme true) scope :: scopes) from
    h .empty (settled_empty scopes)
  induction params with
  | nil => exact fun _ h => h
  | cons param params ih => exact fun scope h => ih _ (h.markIn param.lexeme)

/-- Each of the statements that are located in scopes is located where the innermost scope has
what was declared before it. -/
theorem Stmt.AllLocatedIn.of_mem {ss : List Stmt} {scopes : List Scope} {s : Stmt}
    (h : Stmt.AllLocatedIn ss scopes) (hs : Settled scopes) (hm : s ∈ ss) :
    ∃ scopes', s.LocatedIn scopes' ∧ Settled scopes' ∧ Inherits scopes' scopes := by
  induction ss generalizing scopes with
  | nil => exact absurd hm List.not_mem_nil
  | cons first ss ih =>
    rcases List.mem_cons.1 hm with rfl | hm
    · exact ⟨scopes, h.1, hs, .refl scopes⟩
    · obtain ⟨scopes', hl, hs', hi⟩ := ih h.2 (hs.scopesAfter first) hm
      have hfirst : Inherits (first.scopesAfter scopes) scopes :=
        .of_tail (hs.scopesAfter first) (first.tail_scopesAfter scopes)
      exact ⟨scopes', hl, hs', hi.trans hfirst⟩

theorem Expr.AllLocatedIn.of_mem {es : List Expr} {scopes : List Scope} {e : Expr}
    (h : Expr.AllLocatedIn es scopes) (hm : e ∈ es) : e.LocatedIn scopes := by
  induction es with
  | nil => exact absurd hm List.not_mem_nil
  | cons first es ih =>
    rcases List.mem_cons.1 hm with rfl | hm
    · exact h.1
    · exact ih h.2 hm

theorem FunctionDecl.AllLocatedIn.of_mem {fs : List FunctionDecl} {scopes : List Scope}
    {f : FunctionDecl} (h : FunctionDecl.AllLocatedIn fs scopes) (hm : f ∈ fs) :
    Parameters.AreNames f.params ∧
      Stmt.AllLocatedIn f.body (parameterScope f.params :: scopes) := by
  induction fs with
  | nil => exact absurd hm List.not_mem_nil
  | cons first fs ih =>
    rcases List.mem_cons.1 hm with rfl | hm
    · cases f
      exact h.1
    · exact ih h.2 hm

/-- A node is located in scopes. -/
def Task.LocatedIn : Task → List Scope → Prop
  | expr e, scopes => e.LocatedIn scopes
  | stmt s, scopes => s.LocatedIn scopes

/-- A node is visited in scopes: it is located there, and a statement comes when what was
declared before is ready. -/
def Task.VisitedIn : Task → List Scope → Prop
  | expr e, scopes => e.LocatedIn scopes
  | stmt s, scopes => s.LocatedIn scopes ∧ Settled scopes

theorem Task.VisitedIn.locatedIn {task : Task} {scopes : List Scope}
    (h : task.VisitedIn scopes) : task.LocatedIn scopes := by
  cases task with
  | expr e => exact h
  | stmt s => exact h.1

/-- The statements of a body are located in scopes with no other names that are not ready. -/
theorem Stmt.AllLocatedIn.part {ss : List Stmt} {scope : Scope} {scopes outer : List Scope}
    {part : Task} (h : Stmt.AllLocatedIn ss (scope :: scopes)) (hs : Settled (scope :: scopes))
    (hi : Inherits scopes outer) (hp : part ∈ ss.map .stmt) :
    ∃ scopes', part.VisitedIn scopes' ∧ Inherits scopes' outer := by
  obtain ⟨s, hm, rfl⟩ := List.mem_map.1 hp
  obtain ⟨scopes', hl, hs', hi'⟩ := h.of_mem hs hm
  exact ⟨scopes', ⟨hl, hs'⟩, hi'.trans ((Inherits.cons hs).trans hi)⟩

/-- The parts of an expression are located in scopes with no other names that are not ready. -/
theorem Expr.LocatedIn.part {e : Expr} {scopes : List Scope} (h : e.LocatedIn scopes)
    {part : Task} (hp : part ∈ e.parts) :
    ∃ scopes', part.VisitedIn scopes' ∧ Inherits scopes' scopes := by
  cases e with
  | literal | «variable» | this => simp [Expr.parts] at hp
  | assign name value hops seen =>
    obtain rfl := List.mem_singleton.1 hp
    exact ⟨scopes, h.2.1, .refl scopes⟩
  | group | unary | get =>
    obtain rfl := List.mem_singleton.1 hp
    exact ⟨scopes, h, .refl scopes⟩
  | binary left op right | logical left op right | set left op right =>
    simp only [Expr.parts, List.mem_cons, List.not_mem_nil, or_false] at hp
    rcases hp with rfl | rfl
    · exact ⟨scopes, h.1, .refl scopes⟩
    · exact ⟨scopes, h.2, .refl scopes⟩
  | conditional condition whenTrue whenFalse =>
    simp only [Expr.parts, List.mem_cons, List.not_mem_nil, or_false] at hp
    rcases hp with rfl | rfl | rfl
    · exact ⟨scopes, h.1, .refl scopes⟩
    · exact ⟨scopes, h.2.1, .refl scopes⟩
    · exact ⟨scopes, h.2.2, .refl scopes⟩
  | sequence items =>
    obtain ⟨e, hm, rfl⟩ := List.mem_map.1 hp
    exact ⟨scopes, Expr.AllLocatedIn.of_mem h hm, .refl scopes⟩
  | call callee paren args =>
    rcases List.mem_cons.1 hp with rfl | hp
    · exact ⟨scopes, h.1, .refl scopes⟩
    · obtain ⟨e, hm, rfl⟩ := List.mem_map.1 hp
      exact ⟨scopes, h.2.of_mem hm, .refl scopes⟩
  | lambda keyword params body =>
    exact h.2.part (settled_parameterScope params scopes) (.refl scopes) hp

/-- The parts of a statement are located in scopes with no other names that are not ready,
but for an initializer. -/
theorem Stmt.LocatedIn.part {s : Stmt} {scopes : List Scope} (h : s.LocatedIn scopes)
    (hs : Settled scopes) {part : Task} (hp : part ∈ s.parts) :
    (∃ scopes', part.VisitedIn scopes' ∧ Inherits scopes' scopes) ∨
      ∃ name initializer, s = .var name (some initializer) ∧ part = .expr initializer ∧
        initializer.LocatedIn (markIn scopes name.lexeme false) := by
  cases s with
  | var name initializer =>
    cases initializer with
    | none => exact absurd hp List.not_mem_nil
    | some initializer =>
      obtain rfl := List.mem_singleton.1 hp
      exact .inr ⟨name, initializer, rfl, rfl, h.2⟩
  | expression | print =>
    obtain rfl := List.mem_singleton.1 hp
    exact .inl ⟨scopes, h, .refl scopes⟩
  | block statements =>
    exact .inl (Stmt.AllLocatedIn.part h (settled_empty scopes) (.refl scopes) hp)
  | branch condition whenTrue whenFalse =>
    obtain ⟨hc, ht, -, hf⟩ := h
    simp only [Stmt.parts, List.mem_cons] at hp
    rcases hp with rfl | rfl | hp
    · exact .inl ⟨scopes, hc, .refl scopes⟩
    · exact .inl ⟨scopes, ⟨ht, hs⟩, .refl scopes⟩
    · cases whenFalse with
      | none => exact absurd hp List.not_mem_nil
      | some whenFalse =>
        obtain rfl := List.mem_singleton.1 hp
        exact .inl ⟨scopes, ⟨hf.1, hs⟩, .refl scopes⟩
  | loop condition body =>
    simp only [Stmt.parts, List.mem_cons, List.not_mem_nil, or_false] at hp
    rcases hp with rfl | rfl
    · exact .inl ⟨scopes, h.1, .refl scopes⟩
    · exact .inl ⟨scopes, ⟨h.2.1, hs⟩, .refl scopes⟩
  | function decl =>
    obtain ⟨name, params, body⟩ := decl
    exact .inl (h.2.2.part (settled_parameterScope params _) (.markIn hs name.lexeme) hp)
  | «return» keyword value =>
    cases value with
    | none => exact absurd hp List.not_mem_nil
    | some value =>
      obtain rfl := List.mem_singleton.1 hp
      exact .inl ⟨scopes, h, .refl scopes⟩
  | «class» name methods =>
    obtain ⟨method, hm, hp⟩ := List.mem_flatMap.1 hp
    have hi : Inherits (thisScope :: markIn scopes name.lexeme true) scopes :=
      (Inherits.cons (settled_thisScope _)).trans (.markIn hs name.lexeme)
    exact .inl ((h.2.of_mem hm).2.part (settled_parameterScope _ _) hi hp)

namespace Task

/-- One step down from a node: the names that are not ready are the same as before, or the
step leads to an initializer. -/
theorem VisitedIn.part {task part : Task} {scopes : List Scope} (h : task.VisitedIn scopes)
    (hp : part ∈ task.parts) :
    (∃ scopes', part.VisitedIn scopes' ∧ Inherits scopes' scopes) ∨
      ∃ name initializer, task = .stmt (.var name (some initializer)) ∧
        part = .expr initializer ∧ Settled scopes ∧
          initializer.LocatedIn (markIn scopes name.lexeme false) := by
  cases task with
  | expr e => exact .inl (Expr.LocatedIn.part h hp)
  | stmt s =>
    obtain ⟨hl, hs⟩ := h
    rcases hl.part hs hp with h | ⟨name, initializer, rfl, rfl, h⟩
    · exact .inl h
    · exact .inr ⟨name, initializer, rfl, rfl, hs, h⟩

/-- **The node is in the initializer of a variable** that is declared inside the outer node.
The initializer sees these scopes. -/
def InInitializer (outer task : Task) (name : String) (scopes : List Scope) : Prop :=
  ∃ token initializer, token.lexeme = name ∧
    outer.Contains (.stmt (.var token (some initializer))) ∧
      (Task.expr initializer).Contains task ∧ initializer.LocatedIn scopes

theorem InInitializer.part {outer task part : Task} {name : String} {scopes : List Scope}
    (h : outer.InInitializer task name scopes) (hp : part ∈ task.parts) :
    outer.InInitializer part name scopes := by
  obtain ⟨token, initializer, ht, hv, hi, hl⟩ := h
  exact ⟨token, initializer, ht, hv, hi.tail hp, hl⟩

/-- **A name that is not ready belongs to an initializer around the node**, which sees the
scopes from that name on. -/
theorem unready_in_initializer {outer task : Task} (hl : outer.VisitedIn [])
    (hc : outer.Contains task) :
    ∃ scopes, task.VisitedIn scopes ∧
      ∀ distance name, markAt scopes distance name = some false →
        outer.InInitializer task name (scopes.drop distance) := by
  -- Induction on the way down from the outer node.
  induction hc with
  | refl => exact ⟨[], hl, fun distance name h => by simp at h⟩
  | tail hc hp ih =>
    obtain ⟨scopes, hmid, hin⟩ := ih
    rcases hmid.part hp with ⟨scopes', hl, hi⟩ | ⟨token, initializer, rfl, rfl, hs, hl⟩
    -- the same names are not ready one step further down
    · refine ⟨scopes', hl, fun distance name hm => ?_⟩
      obtain ⟨distance', hm, hd⟩ := hi hm
      rw [hd]
      exact (hin _ _ hm).part hp
    · refine ⟨markIn scopes token.lexeme false, hl, fun distance name hm => ?_⟩
      cases distance with
      | zero =>
        rw [markAt_markIn] at hm
        split at hm
        · rename_i hn
          exact ⟨token, initializer, hn.1.symm, hc, .refl, hl⟩
        · exact absurd hm (hs name)
      | succ distance =>
        rw [markAt_succ, tail_markIn, ← markAt_succ] at hm
        rw [← List.drop_tail, tail_markIn, List.drop_tail]
        exact (hin _ _ hm).part hp

end Task

end ScopedScript

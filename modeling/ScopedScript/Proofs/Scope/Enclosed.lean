import ScopedScript.Proofs.Policy
import ScopedScript.Proofs.Scope.Context
import ScopedScript.Proofs.Scope.Frames

/-!
# The code of a method

The code of a method is its body with everything inside it, functions within functions, but not
the methods of a class that is declared there: these have code of their own.  Scope analysis
opens scopes on the way to a node of a method's code, and none of them has `this`, since no name
is `this`; so `this` is found in the scope that was opened for the class, right outside of the
method.  Outside of classes `this` is refused.

## Main definitions

* `Task.methodParts`, `Task.Encloses`: the nodes inside a node that belong to the same method.
* `Task.HasThis`: `this` is used in the code of the same method.
* `Opened`: scopes that were opened inside others, without `this`.

## Main results

* `Task.PlacedIn.enclosed`: where the nodes of a method's code are located.
* `Opened.hopsIn_this`: where `this` is found from there.
* `load_no_this`: no statement of a loaded program uses `this` outside of classes.
-/

namespace ScopedScript

/-! ## Code of the same method -/

namespace Task

/-- The nodes that a node is made of and that belong to the same method as it does. -/
def methodParts : Task → List Task
  | stmt (.class _ _) => []
  | task => task.parts

/-- **The second node is inside the first, in the code of the same method**, or the same. -/
def Encloses : Task → Task → Prop :=
  Relation.ReflTransGen fun outer inner => inner ∈ outer.methodParts

/-- `this` is used in the node, in the code of the same method. -/
def HasThis (task : Task) : Prop :=
  ∃ keyword hops seen, task.Encloses (.expr (.this keyword hops seen))

/-- What is a node's own belongs to the same method. -/
theorem mem_methodParts_of_mem_ownParts {task part : Task} (h : part ∈ task.ownParts) :
    part ∈ task.methodParts := by
  cases task with
  | expr e =>
    cases e with
    | lambda => cases h
    | _ => exact h
  | stmt s =>
    cases s with
    | function | «class» => cases h
    | _ => exact h

/-- A node that is not `this` itself uses it only through its parts. -/
theorem not_hasThis {task : Task} (h : ∀ keyword hops seen, task ≠ .expr (.this keyword hops seen))
    (hp : ∀ part ∈ task.methodParts, ¬ part.HasThis) : ¬ task.HasThis := by
  rintro ⟨keyword, hops, seen, he⟩
  rcases Relation.ReflTransGen.cases_head he with rfl | ⟨part, hm, he⟩
  · exact h keyword hops seen rfl
  · exact hp part hm ⟨keyword, hops, seen, he⟩

theorem HasThis.of_part {task part : Task} (h : part.HasThis) (hp : part ∈ task.methodParts) :
    task.HasThis := by
  obtain ⟨keyword, hops, seen, he⟩ := h
  exact ⟨keyword, hops, seen, .head hp he⟩

end Task

/-! ## Scopes without `this` -/

/-- **The scopes were opened inside others**, at least one of them, and none has `this`. -/
def Opened (base scopes : List Scope) : Prop :=
  ∃ scope extra, scopes = scope :: (extra ++ base) ∧ scope.get? "this" = none ∧
    ∀ other ∈ extra, other.get? "this" = none

namespace Opened

variable {base scopes : List Scope}

theorem first {scope : Scope} (hs : scope.get? "this" = none) : Opened base (scope :: base) :=
  ⟨scope, [], rfl, hs, fun _ h => absurd h List.not_mem_nil⟩

theorem cons (h : Opened base scopes) {scope : Scope} (hs : scope.get? "this" = none) :
    Opened base (scope :: scopes) := by
  obtain ⟨inner, extra, rfl, hi, he⟩ := h
  exact ⟨scope, inner :: extra, rfl, hs, List.forall_mem_cons.2 ⟨hi, he⟩⟩

theorem mark (h : Opened base scopes) {name : String} (hn : name ≠ "this") (ready : Bool) :
    Opened base (markIn scopes name ready) := by
  obtain ⟨inner, extra, rfl, hi, he⟩ := h
  refine ⟨inner.insert name ready, extra, rfl, ?_, he⟩
  rw [NameMap.get?_insert, if_neg hn.symm, hi]

/-- **`this` is found right outside of the scopes that were opened in the scope of a class.** -/
theorem hopsIn_this (h : Opened (thisScope :: base) scopes) :
    ∃ distance, scopes.length = distance + (base.length + 1) ∧
      hopsIn scopes "this" = some distance ∧ markAt scopes distance "this" = some true := by
  obtain ⟨inner, extra, rfl, hi, he⟩ := h
  have hnone : ∀ scope ∈ inner :: extra, (NameMap.contains scope "this") = false := by
    intro scope hs
    rcases List.mem_cons.1 hs with rfl | hs
    · rw [NameMap.contains, hi]
      rfl
    · rw [NameMap.contains, he scope hs]
      rfl
  have hthis : (thisScope :: base).findIdx? (·.contains "this") = some 0 := by
    rw [List.findIdx?_cons]
    exact if_pos (by simp [thisScope, NameMap.contains])
  refine ⟨(inner :: extra).length, by simp; omega, ?_, ?_⟩
  · rw [hopsIn, ← List.cons_append, List.findIdx?_append, List.findIdx?_eq_none_iff.2 hnone, hthis]
    simp
  · rw [markAt, ← List.cons_append, List.getElem?_append_right (Nat.le_refl _), Nat.sub_self]
    simp [thisScope]

end Opened

theorem get?_parameterScope {params : List Token} (h : ∀ param ∈ params, param.lexeme ≠ "this") :
    (parameterScope params).get? "this" = none := by
  have hfold : ∀ scope : Scope, scope.get? "this" = none →
      (params.foldl (fun scope param => scope.insert param.lexeme true) scope).get? "this" =
        none := by
    induction params with
    | nil => exact fun scope hs => hs
    | cons param params ih =>
      obtain ⟨hp, h⟩ := List.forall_mem_cons.1 h
      intro scope hs
      refine ih h _ ?_
      rw [NameMap.get?_insert, if_neg hp.symm, hs]
  exact hfold .empty rfl

/-! ## Where the code of a method is located -/

section Located

variable {base scopes : List Scope}

theorem Token.IsName.ne_this {name : Token} (h : name.IsName Token.Scanned) :
    name.lexeme ≠ "this" :=
  h.1.ne_this h.2

theorem get?_parameterScope_of_names {params : List Token}
    (h : ∀ param ∈ params, param.IsName Token.Scanned) :
    (parameterScope params).get? "this" = none :=
  get?_parameterScope fun param hp => (h param hp).ne_this

/-- A statement adds no `this` to the scopes. -/
theorem Opened.scopesAfter (h : Opened base scopes) {s : Stmt}
    (hw : s.WellFormed Token.Scanned) : Opened base (s.scopesAfter scopes) := by
  cases s with
  | var name initializer =>
    have hn : name.lexeme ≠ "this" := Token.IsName.ne_this hw.1
    exact (h.mark hn false).mark hn true
  | function decl =>
    cases decl
    exact h.mark (Token.IsName.ne_this hw.1) true
  | «class» name methods => exact h.mark (Token.IsName.ne_this hw.1) true
  | _ => exact h

/-- The statements of a body are located in scopes that were opened likewise. -/
theorem Stmt.AllLocatedIn.of_mem_opened {ss : List Stmt} {s : Stmt}
    (h : Stmt.AllLocatedIn ss scopes) (ho : Opened base scopes)
    (hw : ∀ s ∈ ss, s.WellFormed Token.Scanned) (hs : s ∈ ss) :
    ∃ scopes', s.LocatedIn scopes' ∧ Opened base scopes' := by
  induction ss generalizing scopes with
  | nil => exact absurd hs List.not_mem_nil
  | cons first ss ih =>
    obtain ⟨hfirst, hw⟩ := List.forall_mem_cons.1 hw
    rcases List.mem_cons.1 hs with rfl | hs
    · exact ⟨scopes, h.1, ho⟩
    · exact ih h.2 (ho.scopesAfter hfirst) hw hs

/-- A node of a method's code, in scopes that were opened in the scope of the class. -/
def Task.PlacedIn (base : List Scope) (task : Task) : Prop :=
  task.WellFormed Token.Scanned ∧ ∃ scopes, task.LocatedIn scopes ∧ Opened base scopes

theorem Task.placedIn_body {ss : List Stmt} (h : Stmt.AllLocatedIn ss scopes)
    (ho : Opened base scopes) (hw : ∀ s ∈ ss, s.WellFormed Token.Scanned) {part : Task}
    (hp : part ∈ ss.map Task.stmt) : part.PlacedIn base := by
  obtain ⟨s, hs, rfl⟩ := List.mem_map.1 hp
  obtain ⟨scopes', hl, ho'⟩ := h.of_mem_opened ho hw hs
  exact ⟨hw s hs, scopes', hl, ho'⟩

/-- The parts of an expression of a method's code are placed as it is. -/
theorem Expr.placedIn_part {e : Expr} (hw : e.WellFormed Token.Scanned) (hl : e.LocatedIn scopes)
    (ho : Opened base scopes) {part : Task} (hp : part ∈ e.parts) : part.PlacedIn base := by
  cases e with
  | literal | «variable» | this => cases hp
  | assign name value hops seen =>
    obtain rfl := List.mem_singleton.1 hp
    exact ⟨hw.2, scopes, hl.2.1, ho⟩
  | group inner =>
    obtain rfl := List.mem_singleton.1 hp
    exact ⟨hw, scopes, hl, ho⟩
  | unary op operand =>
    obtain rfl := List.mem_singleton.1 hp
    exact ⟨hw.2.2, scopes, hl, ho⟩
  | get object name =>
    obtain rfl := List.mem_singleton.1 hp
    exact ⟨hw.1, scopes, hl, ho⟩
  | binary left op right | logical left op right =>
    rcases List.mem_cons.1 hp with rfl | hp
    · exact ⟨hw.1, scopes, hl.1, ho⟩
    · obtain rfl := List.mem_singleton.1 hp
      exact ⟨hw.2.2.2, scopes, hl.2, ho⟩
  | set object name value =>
    rcases List.mem_cons.1 hp with rfl | hp
    · exact ⟨hw.1, scopes, hl.1, ho⟩
    · obtain rfl := List.mem_singleton.1 hp
      exact ⟨hw.2.2, scopes, hl.2, ho⟩
  | conditional condition whenTrue whenFalse =>
    simp only [Expr.parts, List.mem_cons, List.not_mem_nil, or_false] at hp
    rcases hp with rfl | rfl | rfl
    · exact ⟨hw.1, scopes, hl.1, ho⟩
    · exact ⟨hw.2.1, scopes, hl.2.1, ho⟩
    · exact ⟨hw.2.2, scopes, hl.2.2, ho⟩
  | sequence items =>
    obtain ⟨e, hm, rfl⟩ := List.mem_map.1 hp
    exact ⟨hw.2.of_mem hm, scopes, Expr.AllLocatedIn.of_mem hl hm, ho⟩
  | call callee paren args =>
    rcases List.mem_cons.1 hp with rfl | hp
    · exact ⟨hw.1, scopes, hl.1, ho⟩
    · obtain ⟨e, hm, rfl⟩ := List.mem_map.1 hp
      exact ⟨hw.2.2.2.of_mem hm, scopes, hl.2.of_mem hm, ho⟩
  | lambda keyword params body =>
    exact Task.placedIn_body hl.2 (ho.cons (get?_parameterScope_of_names hw.2.1.2))
      (fun s hs => hw.2.2.of_mem hs) hp

/-- The parts of a statement of a method's code are placed as it is, but for those of a class. -/
theorem Stmt.placedIn_part {s : Stmt} (hw : s.WellFormed Token.Scanned) (hl : s.LocatedIn scopes)
    (ho : Opened base scopes) {part : Task} (hp : part ∈ (Task.stmt s).methodParts) :
    part.PlacedIn base := by
  cases s with
  | «class» => cases hp
  | expression inner | print inner =>
    obtain rfl := List.mem_singleton.1 hp
    exact ⟨hw, scopes, hl, ho⟩
  | var name initializer =>
    cases initializer with
    | none => cases hp
    | some initializer =>
      obtain rfl := List.mem_singleton.1 hp
      exact ⟨hw.2, _, hl.2, ho.mark (Token.IsName.ne_this hw.1) false⟩
  | block statements =>
    exact Task.placedIn_body hl (ho.cons rfl) (fun s hs => Stmt.AllWellFormed.of_mem hw hs) hp
  | branch condition whenTrue whenFalse =>
    rcases List.mem_cons.1 hp with rfl | hp
    · exact ⟨hw.1, scopes, hl.1, ho⟩
    · rcases List.mem_cons.1 hp with rfl | hp
      · exact ⟨hw.2.1, scopes, hl.2.1, ho⟩
      · cases whenFalse with
        | none => cases hp
        | some whenFalse =>
          obtain rfl := List.mem_singleton.1 hp
          exact ⟨hw.2.2.2.1, scopes, hl.2.2.2.1, ho⟩
  | loop condition body =>
    rcases List.mem_cons.1 hp with rfl | hp
    · exact ⟨hw.1, scopes, hl.1, ho⟩
    · obtain rfl := List.mem_singleton.1 hp
      exact ⟨hw.2.1, scopes, hl.2.1, ho⟩
  | function decl =>
    obtain ⟨name, params, body⟩ := decl
    have hbody := FunctionDecl.WellFormed.wellFormedBody hw
    exact Task.placedIn_body hl.2.2
      ((ho.mark (Token.IsName.ne_this hw.1) true).cons (get?_parameterScope_of_names hbody.names))
      hbody.body hp
  | «return» keyword value =>
    cases value with
    | none => cases hp
    | some value =>
      obtain rfl := List.mem_singleton.1 hp
      exact ⟨hw.2, scopes, hl, ho⟩

/-- **All code of a method is placed as its statements are.** -/
theorem Task.PlacedIn.enclosed {task inner : Task} (h : task.PlacedIn base)
    (he : task.Encloses inner) : inner.PlacedIn base := by
  induction he with
  | refl => exact h
  | @tail mid part _ hp ih =>
    obtain ⟨hw, scopes, hl, ho⟩ := ih
    cases mid with
    | expr e => exact Expr.placedIn_part hw hl ho hp
    | stmt s => exact Stmt.placedIn_part hw hl ho hp

end Located

/-! ## No `this` outside of classes -/

namespace Analyze

variable {α β : Type} {good : α → Prop} {fine : β → Prop}

/-- What the walk makes of code outside of classes has a property, and the code that follows is
outside of classes as well. -/
def Outside (good : α → Prop) (walk : Analyze α) : Prop :=
  ∀ ⦃state state' a⦄, state.inClass = false → walk state = .ok a state' →
    good a ∧ state'.inClass = false

theorem outside_pure {a : α} (h : good a) : Outside good (pure a) := by
  intro state state' a' hs ha
  obtain ⟨rfl, rfl⟩ := pure_eq_ok_iff.1 ha
  exact ⟨h, hs⟩

theorem Outside.bind {walk : Analyze α} {next : α → Analyze β} (h : Outside good walk)
    (hn : ∀ a, good a → Outside fine (next a)) : Outside fine (walk >>= next) := by
  intro state state' b hs hb
  obtain ⟨a, mid, ha, hb⟩ := bind_eq_ok_iff.1 hb
  obtain ⟨ha, hs⟩ := h hs ha
  exact hn a ha hs hb

theorem Restores.outside {walk : Analyze α} (h : Restores walk) : Outside (fun _ => True) walk :=
  fun _ _ _ hs ha => ⟨trivial, (h ha).2.trans hs⟩

theorem outside_modify {change : Analysis → Analysis}
    (h : ∀ state, (change state).inClass = state.inClass) :
    Outside (fun _ => True) (modify change : Analyze Unit) := by
  intro state state' u hs hm
  obtain rfl := modify_eq_ok_iff.1 hm
  exact ⟨trivial, (h state).trans hs⟩

theorem outside_ite {c : Prop} [Decidable c] {walk other : Analyze α} (h : Outside good walk)
    (h' : Outside good other) : Outside good (if c then walk else other) := by
  split
  · exact h
  · exact h'

theorem outside_inScope (scope : Scope) {walk : Analyze α} (h : Outside good walk) :
    Outside good (inScope scope walk) :=
  Outside.bind (outside_modify fun _ => rfl) fun _ _ => h.bind fun _ ha =>
    Outside.bind (outside_modify fun _ => rfl) fun _ _ => outside_pure ha

theorem outside_inFunction (context : FunctionContext) (params : List Token) {walk : Analyze α}
    (h : Outside good walk) : Outside good (inFunction context params walk) :=
  restores_get.outside.bind fun _ _ => Outside.bind (outside_modify fun _ => rfl) fun _ _ =>
    (outside_inScope .empty ((restores_forM_define params).outside.bind fun _ _ => h)).bind
      fun _ ha => Outside.bind (outside_modify fun _ => rfl) fun _ _ => outside_pure ha

/-- Statements none of which uses `this` in its method's code. -/
abbrev NoneHasThis (ss : List Stmt) : Prop := ∀ s ∈ ss, ¬ (Task.stmt s).HasThis

/-- The parts of a body, of which no statement uses `this`. -/
theorem NoneHasThis.part {ss : List Stmt} (h : NoneHasThis ss) {part : Task}
    (hp : part ∈ ss.map Task.stmt) : ¬ part.HasThis := by
  obtain ⟨s, hs, rfl⟩ := List.mem_map.1 hp
  exact h s hs

mutual

/-- **An expression outside of classes has no `this`**, or it is refused. -/
theorem expr_no_this : (e : Expr) → Outside (fun e' => ¬ (Task.expr e').HasThis) (expr e)
  | .literal _ => outside_pure (Task.not_hasThis (by simp) fun _ h => absurd h List.not_mem_nil)
  | .variable name _ _ => by
    refine restores_get.outside.bind fun state _ => ?_
    refine outside_ite ((restores_refuse _ _).outside.bind fun _ _ => ?_) ?_ <;>
      exact (restores_locate _ _).outside.bind fun _ _ => restores_get.outside.bind fun _ _ =>
        outside_pure (Task.not_hasThis (by simp) fun _ h => absurd h List.not_mem_nil)
  | .assign name value _ _ =>
    (expr_no_this value).bind fun _ hv => (restores_locate _ _).outside.bind fun _ _ =>
      restores_get.outside.bind fun _ _ =>
        outside_pure (Task.not_hasThis (by simp) (List.forall_mem_singleton.2 hv))
  | .group inner | .unary _ inner | .get inner _ =>
    (expr_no_this inner).bind fun _ hi =>
      outside_pure (Task.not_hasThis (by simp) (List.forall_mem_singleton.2 hi))
  | .binary left _ right | .logical left _ right =>
    (expr_no_this left).bind fun _ hl => (expr_no_this right).bind fun _ hr =>
      outside_pure (Task.not_hasThis (by simp)
        (List.forall_mem_cons.2 ⟨hl, List.forall_mem_singleton.2 hr⟩))
  | .conditional condition whenTrue whenFalse =>
    (expr_no_this condition).bind fun _ hc => (expr_no_this whenTrue).bind fun _ ha =>
      (expr_no_this whenFalse).bind fun _ hb =>
        outside_pure (Task.not_hasThis (by simp) (List.forall_mem_cons.2
          ⟨hc, List.forall_mem_cons.2 ⟨ha, List.forall_mem_singleton.2 hb⟩⟩))
  | .sequence items =>
    (exprs_no_this items).bind fun _ hi => outside_pure (Task.not_hasThis (by simp) hi)
  | .call callee _ args =>
    (expr_no_this callee).bind fun _ hc => (exprs_no_this args).bind fun _ ha =>
      outside_pure (Task.not_hasThis (by simp) (List.forall_mem_cons.2 ⟨hc, ha⟩))
  | .lambda _ _ body =>
    (outside_inFunction _ _ (stmts_no_this body)).bind fun _ hb =>
      outside_pure (Task.not_hasThis (by simp) fun _ hp => hb.part hp)
  | .set object _ value =>
    (expr_no_this value).bind fun _ hv => (expr_no_this object).bind fun _ ho =>
      outside_pure (Task.not_hasThis (by simp)
        (List.forall_mem_cons.2 ⟨ho, List.forall_mem_singleton.2 hv⟩))
  | .this keyword _ _ => by
    intro state state' e' hs h
    simp only [expr, bind_eq_ok_iff, get_eq_ok_iff] at h
    obtain ⟨_, _, ⟨rfl, rfl⟩, h⟩ := h
    rw [hs] at h
    simp [bind_eq_ok_iff, refuse] at h

theorem exprs_no_this : (es : List Expr) →
    Outside (fun es' => ∀ part ∈ es'.map Task.expr, ¬ part.HasThis) (exprs es)
  | [] => outside_pure fun _ h => absurd h List.not_mem_nil
  | e :: es =>
    (expr_no_this e).bind fun _ he => (exprs_no_this es).bind fun _ hes =>
      outside_pure (List.forall_mem_cons.2 ⟨he, hes⟩)

theorem optionalExpr_no_this : (o : Option Expr) →
    Outside (fun o' => ∀ part ∈ o'.toList.map Task.expr, ¬ part.HasThis) (optionalExpr o)
  | none => outside_pure fun _ h => absurd h List.not_mem_nil
  | some e => (expr_no_this e).bind fun _ he => outside_pure (List.forall_mem_singleton.2 he)

/-- A statement outside of classes has no `this` outside of classes, or it is refused. -/
theorem stmt_no_this : (s : Stmt) → Outside (fun s' => ¬ (Task.stmt s').HasThis) (stmt s)
  | .expression inner | .print inner =>
    (expr_no_this inner).bind fun _ hi =>
      outside_pure (Task.not_hasThis (by simp) (List.forall_mem_singleton.2 hi))
  | .var name initializer =>
    (restores_declare name).outside.bind fun _ _ => (optionalExpr_no_this initializer).bind
      fun _ hi => (restores_define name).outside.bind fun _ _ =>
        outside_pure (Task.not_hasThis (by simp) hi)
  | .block statements =>
    (outside_inScope _ (stmts_no_this statements)).bind fun _ hb =>
      outside_pure (Task.not_hasThis (by simp) fun _ hp => hb.part hp)
  | .branch condition whenTrue whenFalse =>
    (expr_no_this condition).bind fun _ hc => (stmt_no_this whenTrue).bind fun _ ha =>
      (optionalStmt_no_this whenFalse).bind fun _ hb =>
        outside_pure (Task.not_hasThis (by simp)
          (List.forall_mem_cons.2 ⟨hc, List.forall_mem_cons.2 ⟨ha, hb⟩⟩))
  | .loop condition body =>
    (expr_no_this condition).bind fun _ hc => (stmt_no_this body).bind fun _ hb =>
      outside_pure (Task.not_hasThis (by simp)
        (List.forall_mem_cons.2 ⟨hc, List.forall_mem_singleton.2 hb⟩))
  | .function (.mk name params body) =>
    (restores_define name).outside.bind fun _ _ =>
      (outside_inFunction _ _ (stmts_no_this body)).bind fun _ hb =>
        outside_pure (Task.not_hasThis (by simp) fun _ hp => hb.part hp)
  | .return keyword value => by
    refine restores_get.outside.bind fun state _ => ?_
    refine outside_ite ((restores_refuse _ _).outside.bind fun _ _ => ?_) ?_ <;>
      exact (optionalExpr_no_this value).bind fun _ hv =>
        outside_pure (Task.not_hasThis (by simp) hv)
  | .class name methods =>
    (restores_inClass name (methodList_restores methods)).outside.bind fun _ _ =>
      outside_pure (Task.not_hasThis (by simp) fun _ h => absurd h List.not_mem_nil)

theorem stmts_no_this : (ss : List Stmt) → Outside NoneHasThis (stmts ss)
  | [] => outside_pure fun _ h => absurd h List.not_mem_nil
  | s :: ss =>
    (stmt_no_this s).bind fun _ hs => (stmts_no_this ss).bind fun _ hss =>
      outside_pure (List.forall_mem_cons.2 ⟨hs, hss⟩)

theorem optionalStmt_no_this : (o : Option Stmt) →
    Outside (fun o' => ∀ part ∈ o'.toList.map Task.stmt, ¬ part.HasThis) (optionalStmt o)
  | none => outside_pure fun _ h => absurd h List.not_mem_nil
  | some s => (stmt_no_this s).bind fun _ hs => outside_pure (List.forall_mem_singleton.2 hs)

end

end Analyze

/-- **No statement of a loaded program uses `this` outside of classes.** -/
theorem load_no_this {source : String} {statements : List Stmt}
    (h : load source = .ok statements) : ∀ s ∈ statements, ¬ (Task.stmt s).HasThis := by
  obtain ⟨-, read, -, ha⟩ := load_eq_ok_iff.1 h
  unfold analyze at ha
  split at ha
  · rename_i hr
    cases ha
    exact (Analyze.stmts_no_this read rfl hr).1
  · cases ha

end ScopedScript

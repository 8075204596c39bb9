import ScopedScript.Proofs.Load
import ScopedScript.Proofs.Log

/-!
# What encloses the code during scope analysis

The analysis keeps which kind of function encloses the code it walks, and whether a class does.
Both are set before a body is walked and set back after it, so whatever was walked, the next
piece of code finds them as they were.  At the top level no function encloses the code, and a
`return` there is refused: a program that is loaded has no `return` but inside of functions.

## Main definitions

* `Analyze.Restores`: the analysis leaves what encloses the code as it was.
* `Task.HasReturn`: a `return` is in the own code of a node.

## Main results

* `Analyze.stmts_restores`: the analysis of statements does.
* `load_no_return`: no statement of a loaded program has a `return` of its own.
-/

namespace ScopedScript

namespace Analyze

variable {α β : Type}

/-- **The walk leaves what encloses the code as it was.** -/
def Restores (walk : Analyze α) : Prop :=
  ∀ ⦃state state' a⦄, walk state = .ok a state' →
    state'.function = state.function ∧ state'.inClass = state.inClass

theorem restores_pure (a : α) : Restores (pure a) := by
  intro state state' a' h
  obtain ⟨-, rfl⟩ := pure_eq_ok_iff.1 h
  exact ⟨rfl, rfl⟩

theorem restores_get : Restores get := by
  intro state state' a h
  obtain ⟨-, rfl⟩ := get_eq_ok_iff.1 h
  exact ⟨rfl, rfl⟩

theorem Restores.bind {walk : Analyze α} {next : α → Analyze β} (h : Restores walk)
    (hn : ∀ a, Restores (next a)) : Restores (walk >>= next) := by
  intro state state' b hb
  obtain ⟨a, mid, ha, hb⟩ := bind_eq_ok_iff.1 hb
  obtain ⟨hf, hc⟩ := h ha
  obtain ⟨hf', hc'⟩ := hn a hb
  exact ⟨hf'.trans hf, hc'.trans hc⟩

theorem restores_modify {change : Analysis → Analysis}
    (hf : ∀ state, (change state).function = state.function)
    (hc : ∀ state, (change state).inClass = state.inClass) :
    Restores (modify change : Analyze Unit) := by
  intro state state' u h
  obtain rfl := modify_eq_ok_iff.1 h
  exact ⟨hf state, hc state⟩

theorem restores_refuse (fault : ScopeFault) (token : Token) :
    Restores (refuse fault token : Analyze α) :=
  fun _ _ _ h => (throw_ne_ok.1 h).elim

theorem restores_ite {c : Prop} [Decidable c] {walk other : Analyze α} (h : Restores walk)
    (h' : Restores other) : Restores (if c then walk else other) := by
  split
  · exact h
  · exact h'

theorem restores_mark (name : String) (ready : Bool) :
    Restores (modify (·.mark name ready) : Analyze Unit) :=
  restores_modify (fun state => by unfold Analysis.mark; split <;> rfl)
    (fun state => by unfold Analysis.mark; split <;> rfl)

theorem restores_declare (name : Token) : Restores (declare name) := restores_mark _ _

theorem restores_define (name : Token) : Restores (define name) := restores_mark _ _

theorem restores_locate (kind : ReferenceKind) (token : Token) : Restores (locate kind token) := by
  refine restores_get.bind fun state => ?_
  dsimp only
  split
  · exact Restores.bind (restores_modify (fun _ => rfl) fun _ => rfl) fun _ => restores_pure _
  · exact restores_pure _

theorem restores_inScope (scope : Scope) {walk : Analyze α} (h : Restores walk) :
    Restores (inScope scope walk) := by
  unfold inScope
  refine Restores.bind (restores_modify (fun _ => rfl) fun _ => rfl) fun _ => h.bind fun _ => ?_
  exact Restores.bind (restores_modify (fun _ => rfl) fun _ => rfl) fun _ => restores_pure _

theorem restores_forM_define (params : List Token) : Restores (params.forM define) := by
  induction params with
  | nil => exact restores_pure _
  | cons param params ih => exact (restores_define param).bind fun _ => ih

/-- The kind of function is set back after the body, and a class is none of its business. -/
theorem restores_inFunction (context : FunctionContext) (params : List Token) {walk : Analyze α}
    (h : Restores walk) : Restores (inFunction context params walk) := by
  intro state state' a ha
  simp only [inFunction, bind_eq_ok_iff, modify_eq_ok_iff, get_eq_ok_iff] at ha
  obtain ⟨_, _, ⟨rfl, rfl⟩, _, _, rfl, a', mid, hw, _, _, rfl, ha⟩ := ha
  obtain ⟨rfl, rfl⟩ := pure_eq_ok_iff.1 ha
  have hbody : Restores (inScope .empty do params.forM define; walk) :=
    restores_inScope _ ((restores_forM_define params).bind fun _ => h)
  exact ⟨rfl, (hbody hw).2⟩

theorem restores_inClass (name : Token) {walk : Analyze α} (h : Restores walk) :
    Restores (inClass name walk) := by
  intro state state' a ha
  simp only [inClass, bind_eq_ok_iff, modify_eq_ok_iff, get_eq_ok_iff] at ha
  obtain ⟨_, _, ⟨rfl, rfl⟩, _, _, rfl, _, mid, hd, a', mid', hw, _, _, rfl, ha⟩ := ha
  obtain ⟨rfl, rfl⟩ := pure_eq_ok_iff.1 ha
  have hf := (restores_define name hd).1
  exact ⟨(restores_inScope _ h hw).1.trans hf, rfl⟩

mutual

/-- An expression leaves what encloses the code as it was. -/
theorem expr_restores : (e : Expr) → Restores (expr e)
  | .literal _ => restores_pure _
  | .variable name _ _ => by
    refine restores_get.bind fun state => ?_
    refine restores_ite ((restores_refuse _ _).bind fun _ => ?_) ?_ <;>
      exact (restores_locate _ _).bind fun _ => restores_get.bind fun _ => restores_pure _
  | .assign name value _ _ =>
    (expr_restores value).bind fun _ => (restores_locate _ _).bind fun _ =>
      restores_get.bind fun _ => restores_pure _
  | .group inner => (expr_restores inner).bind fun _ => restores_pure _
  | .unary op operand => (expr_restores operand).bind fun _ => restores_pure _
  | .binary left op right =>
    (expr_restores left).bind fun _ => (expr_restores right).bind fun _ => restores_pure _
  | .logical left op right =>
    (expr_restores left).bind fun _ => (expr_restores right).bind fun _ => restores_pure _
  | .conditional condition whenTrue whenFalse =>
    (expr_restores condition).bind fun _ => (expr_restores whenTrue).bind fun _ =>
      (expr_restores whenFalse).bind fun _ => restores_pure _
  | .sequence items => (exprs_restores items).bind fun _ => restores_pure _
  | .call callee paren args =>
    (expr_restores callee).bind fun _ => (exprs_restores args).bind fun _ => restores_pure _
  | .lambda keyword params body =>
    (restores_inFunction _ _ (stmts_restores body)).bind fun _ => restores_pure _
  | .get object name => (expr_restores object).bind fun _ => restores_pure _
  | .set object name value =>
    (expr_restores value).bind fun _ => (expr_restores object).bind fun _ => restores_pure _
  | .this keyword _ _ => by
    refine restores_get.bind fun state => ?_
    refine restores_ite ((restores_refuse _ _).bind fun _ => ?_) ?_ <;>
      exact (restores_locate _ _).bind fun _ => restores_get.bind fun _ => restores_pure _

theorem exprs_restores : (es : List Expr) → Restores (exprs es)
  | [] => restores_pure _
  | e :: es => (expr_restores e).bind fun _ => (exprs_restores es).bind fun _ => restores_pure _

theorem optionalExpr_restores : (o : Option Expr) → Restores (optionalExpr o)
  | none => restores_pure _
  | some e => (expr_restores e).bind fun _ => restores_pure _

/-- A statement leaves what encloses the code as it was. -/
theorem stmt_restores : (s : Stmt) → Restores (stmt s)
  | .expression inner => (expr_restores inner).bind fun _ => restores_pure _
  | .print inner => (expr_restores inner).bind fun _ => restores_pure _
  | .var name initializer =>
    (restores_declare name).bind fun _ => (optionalExpr_restores initializer).bind fun _ =>
      (restores_define name).bind fun _ => restores_pure _
  | .block statements =>
    (restores_inScope _ (stmts_restores statements)).bind fun _ => restores_pure _
  | .branch condition whenTrue whenFalse =>
    (expr_restores condition).bind fun _ => (stmt_restores whenTrue).bind fun _ =>
      (optionalStmt_restores whenFalse).bind fun _ => restores_pure _
  | .loop condition body =>
    (expr_restores condition).bind fun _ => (stmt_restores body).bind fun _ => restores_pure _
  | .function (.mk name params body) =>
    (restores_define name).bind fun _ =>
      (restores_inFunction _ _ (stmts_restores body)).bind fun _ => restores_pure _
  | .return keyword value => by
    refine restores_get.bind fun state => ?_
    refine restores_ite ((restores_refuse _ _).bind fun _ => ?_) ?_ <;>
      exact (optionalExpr_restores value).bind fun _ => restores_pure _
  | .class name methods =>
    (restores_inClass name (methodList_restores methods)).bind fun _ => restores_pure _

/-- **Statements leave what encloses the code as it was.** -/
theorem stmts_restores : (ss : List Stmt) → Restores (stmts ss)
  | [] => restores_pure _
  | s :: ss => (stmt_restores s).bind fun _ => (stmts_restores ss).bind fun _ => restores_pure _

theorem optionalStmt_restores : (o : Option Stmt) → Restores (optionalStmt o)
  | none => restores_pure _
  | some s => (stmt_restores s).bind fun _ => restores_pure _

theorem method_restores : (f : FunctionDecl) → Restores (method f)
  | .mk _ _ body =>
    (restores_inFunction _ _ (stmts_restores body)).bind fun _ => restores_pure _

theorem methodList_restores : (fs : List FunctionDecl) → Restores (methodList fs)
  | [] => restores_pure _
  | f :: fs =>
    (method_restores f).bind fun _ => (methodList_restores fs).bind fun _ => restores_pure _

end

end Analyze

/-! ## No `return` outside of functions -/

namespace Task

/-- A `return` is in the own code of the node. -/
def HasReturn (task : Task) : Prop := ∃ keyword value, task.Owns (.stmt (.return keyword value))

/-- An expression has no `return` of its own. -/
theorem not_hasReturn_expr (e : Expr) : ¬ (expr e).HasReturn := by
  rintro ⟨keyword, value, h⟩
  obtain ⟨e', h⟩ := h.expr
  cases h

/-- A node other than `return` has a `return` of its own only through its parts. -/
theorem not_hasReturn {task : Task} (h : ∀ keyword value, task ≠ .stmt (.return keyword value))
    (hp : ∀ part ∈ task.ownParts, ¬ part.HasReturn) : ¬ task.HasReturn := by
  rintro ⟨keyword, value, ho⟩
  rcases owns_iff.1 ho with rfl | ⟨part, hm, ho⟩
  · exact h keyword value rfl
  · exact hp part hm ⟨keyword, value, ho⟩

end Task

namespace Analyze

mutual

/-- **A statement outside of functions has no `return` of its own**, or it is refused. -/
theorem stmt_no_return : (s : Stmt) → ∀ ⦃state state' s'⦄, state.function = .none →
    stmt s state = .ok s' state' → ¬ (Task.stmt s').HasReturn
  | .expression inner, state, state', s', hf, h
  | .print inner, state, state', s', hf, h => by
    simp only [stmt, bind_eq_ok_iff] at h
    obtain ⟨inner', mid, -, h⟩ := h
    obtain ⟨rfl, rfl⟩ := pure_eq_ok_iff.1 h
    refine Task.not_hasReturn (by simp) fun part hp => ?_
    obtain rfl := List.mem_singleton.1 hp
    exact Task.not_hasReturn_expr inner'
  | .var name initializer, state, state', s', hf, h => by
    simp only [stmt, bind_eq_ok_iff] at h
    obtain ⟨_, _, -, o', _, -, _, _, -, h⟩ := h
    obtain ⟨rfl, rfl⟩ := pure_eq_ok_iff.1 h
    refine Task.not_hasReturn (by simp) fun part hp => ?_
    obtain ⟨e', -, rfl⟩ := List.mem_map.1 hp
    exact Task.not_hasReturn_expr e'
  | .block statements, state, state', s', hf, h => by
    simp only [stmt, bind_eq_ok_iff] at h
    obtain ⟨ss', mid, hb, h⟩ := h
    obtain ⟨rfl, rfl⟩ := pure_eq_ok_iff.1 h
    obtain ⟨last, hb, -⟩ := inScope_eq_ok hb
    refine Task.not_hasReturn (by simp) fun part hp => ?_
    obtain ⟨s', hs, rfl⟩ := List.mem_map.1 hp
    refine stmts_no_return statements ?_ hb s' hs
    exact hf
  | .branch condition whenTrue whenFalse, state, state', s', hf, h => by
    simp only [stmt, bind_eq_ok_iff] at h
    obtain ⟨c', mid, hc, a', mid', ha, b', mid'', hb, h⟩ := h
    obtain ⟨rfl, rfl⟩ := pure_eq_ok_iff.1 h
    have hm : mid.function = .none := (expr_restores condition hc).1.trans hf
    have hm' : mid'.function = .none := (stmt_restores whenTrue ha).1.trans hm
    refine Task.not_hasReturn (by simp) fun part hp => ?_
    rcases List.mem_cons.1 hp with rfl | hp
    · exact Task.not_hasReturn_expr c'
    · rcases List.mem_cons.1 hp with rfl | hp
      · exact stmt_no_return whenTrue hm ha
      · obtain ⟨s', hs, rfl⟩ := List.mem_map.1 hp
        exact optionalStmt_no_return whenFalse hm' hb s' (Option.mem_toList.1 hs)
  | .loop condition body, state, state', s', hf, h => by
    simp only [stmt, bind_eq_ok_iff] at h
    obtain ⟨c', mid, hc, b', mid', hb, h⟩ := h
    obtain ⟨rfl, rfl⟩ := pure_eq_ok_iff.1 h
    have hm : mid.function = .none := (expr_restores condition hc).1.trans hf
    refine Task.not_hasReturn (by simp) fun part hp => ?_
    rcases List.mem_cons.1 hp with rfl | hp
    · exact Task.not_hasReturn_expr c'
    · obtain rfl := List.mem_singleton.1 hp
      exact stmt_no_return body hm hb
  | .function (.mk name params body), state, state', s', hf, h => by
    simp only [stmt, bind_eq_ok_iff] at h
    obtain ⟨_, _, -, body', _, -, h⟩ := h
    obtain ⟨rfl, rfl⟩ := pure_eq_ok_iff.1 h
    exact Task.not_hasReturn (by simp) fun part hp => absurd hp List.not_mem_nil
  | .return keyword value, state, state', s', hf, h => by
    simp only [stmt, bind_eq_ok_iff, get_eq_ok_iff] at h
    obtain ⟨_, _, ⟨rfl, rfl⟩, h⟩ := h
    rw [if_pos hf] at h
    simp [bind_eq_ok_iff, refuse] at h
  | .class name methods, state, state', s', hf, h => by
    simp only [stmt, bind_eq_ok_iff] at h
    obtain ⟨methods', _, -, h⟩ := h
    obtain ⟨rfl, rfl⟩ := pure_eq_ok_iff.1 h
    exact Task.not_hasReturn (by simp) fun part hp => absurd hp List.not_mem_nil

theorem stmts_no_return : (ss : List Stmt) → ∀ ⦃state state' ss'⦄, state.function = .none →
    stmts ss state = .ok ss' state' → ∀ s ∈ ss', ¬ (Task.stmt s).HasReturn
  | [], state, state', ss', hf, h => by
    obtain ⟨rfl, rfl⟩ := pure_eq_ok_iff.1 h
    exact fun _ hs => absurd hs List.not_mem_nil
  | s :: ss, state, state', ss', hf, h => by
    simp only [stmts, bind_eq_ok_iff] at h
    obtain ⟨s', mid, hs, ss', mid', hss, h⟩ := h
    obtain ⟨rfl, rfl⟩ := pure_eq_ok_iff.1 h
    have hm : mid.function = .none := (stmt_restores s hs).1.trans hf
    exact List.forall_mem_cons.2 ⟨stmt_no_return s hf hs, stmts_no_return ss hm hss⟩

theorem optionalStmt_no_return : (o : Option Stmt) → ∀ ⦃state state' o'⦄,
    state.function = .none → optionalStmt o state = .ok o' state' →
      ∀ s, o' = some s → ¬ (Task.stmt s).HasReturn
  | none, state, state', o', hf, h => by
    obtain ⟨rfl, rfl⟩ := pure_eq_ok_iff.1 h
    exact fun _ hs => absurd hs (by simp)
  | some s, state, state', o', hf, h => by
    simp only [optionalStmt, bind_eq_ok_iff] at h
    obtain ⟨s', mid, hs, h⟩ := h
    obtain ⟨rfl, rfl⟩ := pure_eq_ok_iff.1 h
    intro s'' h
    cases h
    exact stmt_no_return s hf hs

end

end Analyze

/-- **No statement of a loaded program has a `return` of its own.** -/
theorem load_no_return {source : String} {statements : List Stmt}
    (h : load source = .ok statements) : ∀ s ∈ statements, ¬ (Task.stmt s).HasReturn := by
  obtain ⟨-, read, -, ha⟩ := load_eq_ok_iff.1 h
  unfold analyze at ha
  split at ha
  · rename_i hr
    cases ha
    exact Analyze.stmts_no_return read rfl hr
  · cases ha

end ScopedScript

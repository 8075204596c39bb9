import ScopedScript.Proofs.Grammar.WellFormed
import ScopedScript.Proofs.Results
import ScopedScript.Scope

/-!
# Trees whose references are located

Scope analysis walks a tree with the scopes that are open around each node.  This module says
on the tree alone what that leaves behind: `LocatedIn` goes down a tree with a list of scopes,
opens one for each block, function and class, marks the names that are declared in passing,
and asks of every reference that it holds these scopes and counts the scopes to its name.

## Main definitions

* `markIn`, `parameterScope`, `thisScope`, `Stmt.scopesAfter`: how the open scopes change.
* `Expr.LocatedIn`, `Stmt.LocatedIn`: the references in a tree are located in these scopes.

## Main results

* `Analyze.stmts_located`: what the analysis makes of well-formed statements is located in
  the scopes it started with.
* `analyze_located`: and so is a program, without an open scope.
-/

namespace ScopedScript

/-! ## The open scopes -/

/-- The scopes with a mark given to a name in the innermost one. -/
def markIn (scopes : List Scope) (name : String) (ready : Bool) : List Scope :=
  match scopes with
  | [] => []
  | scope :: outer => scope.insert name ready :: outer

/-- How many scopes lie inside the innermost one that has a name. -/
def hopsIn (scopes : List Scope) (name : String) : Option Nat :=
  scopes.findIdx? (·.contains name)

/-- The scope of a function before its body: its parameters, all ready. -/
def parameterScope (params : List Token) : Scope :=
  params.foldl (fun scope param => scope.insert param.lexeme true) .empty

/-- The scope around the methods of a class. -/
def thisScope : Scope := NameMap.empty.insert "this" true

/-- The open scopes after a statement: what it declares is ready. -/
def Stmt.scopesAfter (s : Stmt) (scopes : List Scope) : List Scope :=
  match s with
  | .var name _ => markIn (markIn scopes name.lexeme false) name.lexeme true
  | .function decl => markIn scopes decl.name.lexeme true
  | .class name _ => markIn scopes name.lexeme true
  | _ => scopes

theorem Stmt.scopesAfter_of_not_declaration {s : Stmt} (h : s.isDeclaration = false)
    (scopes : List Scope) : s.scopesAfter scopes = scopes := by
  cases s with
  | var | function | «class» => simp [Stmt.isDeclaration] at h
  | _ => rfl

theorem tail_markIn (scopes : List Scope) (name : String) (ready : Bool) :
    (markIn scopes name ready).tail = scopes.tail := by
  cases scopes <;> rfl

theorem Stmt.tail_scopesAfter (s : Stmt) (scopes : List Scope) :
    (s.scopesAfter scopes).tail = scopes.tail := by
  cases s <;> simp [Stmt.scopesAfter, tail_markIn]

/-! ## Located references -/

/-- The names of a function's parameters are names. -/
def Parameters.AreNames (params : List Token) : Prop := ∀ param ∈ params, param.kind = .identifier

mutual

/-- **The references in an expression are located in these scopes.** -/
def Expr.LocatedIn : Expr → List Scope → Prop
  | .literal _, _ => True
  | .variable name hops seen, scopes =>
    name.kind = .identifier ∧ seen = scopes ∧
      hops = (hopsIn scopes name.lexeme).map Int.ofNat
  | .assign name value hops seen, scopes =>
    name.kind = .identifier ∧ value.LocatedIn scopes ∧ seen = scopes ∧
      hops = (hopsIn scopes name.lexeme).map Int.ofNat
  | .group inner, scopes => inner.LocatedIn scopes
  | .unary _ operand, scopes => operand.LocatedIn scopes
  | .binary left _ right, scopes => left.LocatedIn scopes ∧ right.LocatedIn scopes
  | .logical left _ right, scopes => left.LocatedIn scopes ∧ right.LocatedIn scopes
  | .conditional condition whenTrue whenFalse, scopes =>
    condition.LocatedIn scopes ∧ whenTrue.LocatedIn scopes ∧ whenFalse.LocatedIn scopes
  | .sequence items, scopes => Expr.AllLocatedIn items scopes
  | .call callee _ args, scopes => callee.LocatedIn scopes ∧ Expr.AllLocatedIn args scopes
  | .lambda _ params body, scopes =>
    Parameters.AreNames params ∧ Stmt.AllLocatedIn body (parameterScope params :: scopes)
  | .get object _, scopes => object.LocatedIn scopes
  | .set object _ value, scopes => object.LocatedIn scopes ∧ value.LocatedIn scopes
  | .this _ hops seen, scopes =>
    seen = scopes ∧ hops = (hopsIn scopes "this").map Int.ofNat

/-- The references in expressions are located in these scopes. -/
def Expr.AllLocatedIn : List Expr → List Scope → Prop
  | [], _ => True
  | e :: es, scopes => e.LocatedIn scopes ∧ Expr.AllLocatedIn es scopes

/-- The references in an expression that may be missing are located in these scopes. -/
def Expr.OptionLocatedIn : Option Expr → List Scope → Prop
  | none, _ => True
  | some e, scopes => e.LocatedIn scopes

/-- **The references in a statement are located in these scopes.**  An initializer sees its
own variable, which is not ready; a function sees itself. -/
def Stmt.LocatedIn : Stmt → List Scope → Prop
  | .expression e, scopes => e.LocatedIn scopes
  | .print e, scopes => e.LocatedIn scopes
  | .var name initializer, scopes =>
    name.kind = .identifier ∧
      Expr.OptionLocatedIn initializer (markIn scopes name.lexeme false)
  | .block statements, scopes => Stmt.AllLocatedIn statements (.empty :: scopes)
  | .branch condition whenTrue whenFalse, scopes =>
    condition.LocatedIn scopes ∧ whenTrue.LocatedIn scopes ∧ whenTrue.isDeclaration = false ∧
      Stmt.OptionLocatedIn whenFalse scopes
  | .loop condition body, scopes =>
    condition.LocatedIn scopes ∧ body.LocatedIn scopes ∧ body.isDeclaration = false
  | .function (.mk name params body), scopes =>
    name.kind = .identifier ∧ Parameters.AreNames params ∧
      Stmt.AllLocatedIn body (parameterScope params :: markIn scopes name.lexeme true)
  | .return _ value, scopes => Expr.OptionLocatedIn value scopes
  | .class name methods, scopes =>
    name.kind = .identifier ∧
      FunctionDecl.AllLocatedIn methods (thisScope :: markIn scopes name.lexeme true)

/-- The references in statements are located in these scopes, to which each statement adds
what it declares. -/
def Stmt.AllLocatedIn : List Stmt → List Scope → Prop
  | [], _ => True
  | s :: ss, scopes => s.LocatedIn scopes ∧ Stmt.AllLocatedIn ss (s.scopesAfter scopes)

/-- The references in a statement that may be missing are located in these scopes; it
declares nothing. -/
def Stmt.OptionLocatedIn : Option Stmt → List Scope → Prop
  | none, _ => True
  | some s, scopes => s.LocatedIn scopes ∧ s.isDeclaration = false

/-- The references in the body of a method are located in these scopes. -/
def FunctionDecl.LocatedIn : FunctionDecl → List Scope → Prop
  | .mk _ params body, scopes =>
    Parameters.AreNames params ∧ Stmt.AllLocatedIn body (parameterScope params :: scopes)

/-- The references in the bodies of methods are located in these scopes. -/
def FunctionDecl.AllLocatedIn : List FunctionDecl → List Scope → Prop
  | [], _ => True
  | f :: fs, scopes => f.LocatedIn scopes ∧ FunctionDecl.AllLocatedIn fs scopes

end

/-! ## What the analysis does with its scopes -/

theorem Analysis.scopes_mark (state : Analysis) (name : String) (ready : Bool) :
    (state.mark name ready).scopes = markIn state.scopes name ready := by
  unfold Analysis.mark markIn
  split <;> simp [*]

namespace Analyze

variable {α : Type} {state state' : Analysis} {a : α}

theorem declare_eq_ok {name : Token} {u : Unit} (h : declare name state = .ok u state') :
    state'.scopes = markIn state.scopes name.lexeme false := by
  obtain rfl := modify_eq_ok_iff.1 h
  exact state.scopes_mark _ _

theorem define_eq_ok {name : Token} {u : Unit} (h : define name state = .ok u state') :
    state'.scopes = markIn state.scopes name.lexeme true := by
  obtain rfl := modify_eq_ok_iff.1 h
  exact state.scopes_mark _ _

theorem locate_eq_ok {kind : ReferenceKind} {token : Token} {hops : Option Int}
    (h : locate kind token state = .ok hops state') :
    hops = (hopsIn state.scopes token.lexeme).map Int.ofNat ∧ state'.scopes = state.scopes := by
  simp only [locate, bind_eq_ok_iff, get_eq_ok_iff] at h
  obtain ⟨_, _, ⟨rfl, rfl⟩, h⟩ := h
  change _ = (state.hops? token.lexeme).map Int.ofNat ∧ _
  cases hh : state.hops? token.lexeme with
  | none =>
    rw [hh] at h
    obtain ⟨rfl, rfl⟩ := pure_eq_ok_iff.1 h
    exact ⟨rfl, rfl⟩
  | some hops =>
    rw [hh] at h
    simp only [bind_eq_ok_iff, modify_eq_ok_iff] at h
    obtain ⟨_, _, rfl, h⟩ := h
    obtain ⟨rfl, rfl⟩ := pure_eq_ok_iff.1 h
    exact ⟨rfl, rfl⟩

/-- Code that is not refused is walked on. -/
theorem of_not_refused {β : Type} {c : Prop} [Decidable c] {fault : ScopeFault} {token : Token}
    {next : β → Analyze α} {walk : Analyze α}
    (h : (if c then refuse fault token >>= next else walk) state = .ok a state') :
    walk state = .ok a state' := by
  split at h
  · simp [bind_eq_ok_iff, refuse] at h
  · exact h

theorem inScope_eq_ok {scope : Scope} {walk : Analyze α}
    (h : inScope scope walk state = .ok a state') :
    ∃ mid, walk { state with scopes := scope :: state.scopes } = .ok a mid ∧
      state'.scopes = mid.scopes.tail := by
  simp only [inScope, bind_eq_ok_iff, modify_eq_ok_iff] at h
  obtain ⟨_, _, rfl, a', mid, hw, _, _, rfl, h⟩ := h
  obtain ⟨rfl, rfl⟩ := pure_eq_ok_iff.1 h
  exact ⟨mid, hw, rfl⟩

/-- The parameters of a function make its scope. -/
theorem forM_define_eq_ok {params : List Token} {scope : Scope} {outer : List Scope} {u : Unit}
    (hs : state.scopes = scope :: outer) (h : params.forM define state = .ok u state') :
    state'.scopes =
      params.foldl (fun scope param => scope.insert param.lexeme true) scope :: outer := by
  induction params generalizing state scope with
  | nil =>
    obtain ⟨-, rfl⟩ := pure_eq_ok_iff.1 h
    exact hs
  | cons param params ih =>
    obtain ⟨_, mid, hd, h⟩ :=
      bind_eq_ok_iff.1 (show (define param >>= fun _ => params.forM define) state = _ from h)
    refine ih ?_ h
    rw [define_eq_ok hd, hs]
    rfl

theorem inFunction_eq_ok {context : FunctionContext} {params : List Token} {walk : Analyze α}
    (h : inFunction context params walk state = .ok a state') :
    ∃ start mid, start.scopes = parameterScope params :: state.scopes ∧
      walk start = .ok a mid ∧ state'.scopes = mid.scopes.tail := by
  simp only [inFunction, bind_eq_ok_iff, modify_eq_ok_iff, get_eq_ok_iff] at h
  obtain ⟨_, _, ⟨rfl, rfl⟩, _, _, rfl, a', mid, hw, _, _, rfl, h⟩ := h
  obtain ⟨rfl, rfl⟩ := pure_eq_ok_iff.1 h
  obtain ⟨mid', hw, hs⟩ := inScope_eq_ok hw
  simp only [bind_eq_ok_iff] at hw
  obtain ⟨_, start, hp, hw⟩ := hw
  exact ⟨start, mid', forM_define_eq_ok rfl hp, hw, hs⟩

theorem inClass_eq_ok {name : Token} {walk : Analyze α}
    (h : inClass name walk state = .ok a state') :
    ∃ start mid, start.scopes = thisScope :: markIn state.scopes name.lexeme true ∧
      walk start = .ok a mid ∧ state'.scopes = mid.scopes.tail := by
  simp only [inClass, bind_eq_ok_iff, modify_eq_ok_iff, get_eq_ok_iff] at h
  obtain ⟨_, _, ⟨rfl, rfl⟩, _, _, rfl, _, mid, hd, a', mid', hw, _, _, rfl, h⟩ := h
  obtain ⟨rfl, rfl⟩ := pure_eq_ok_iff.1 h
  obtain ⟨mid'', hw, hs⟩ := inScope_eq_ok hw
  refine ⟨_, mid'', ?_, hw, hs⟩
  rw [define_eq_ok hd]
  rfl

/-- The tokens of a tree that spell a reserved word spell it right, as far as it matters
here. -/
def Spelled (t : Token) : Prop := t.kind = .this → t.lexeme = "this"

theorem areNames {params : List Token} (h : ParametersWellFormed Spelled params) :
    Parameters.AreNames params :=
  fun param hp => (h.2 param hp).2

/-- What the analysis makes of one expression, or of several: located in the open scopes,
which stay as they are. -/
def Keeps {α : Type} (located : α → List Scope → Prop) (walk : Analyze α) : Prop :=
  ∀ ⦃state state' a⦄, walk state = .ok a state' →
    located a state.scopes ∧ state'.scopes = state.scopes

mutual

/-- An expression is located in the open scopes, and leaves them as they are. -/
theorem expr_located : (e : Expr) → e.WellFormed Spelled → Keeps Expr.LocatedIn (expr e)
  | .literal value, _ => by
    intro state state' e' h
    obtain ⟨rfl, rfl⟩ := pure_eq_ok_iff.1 h
    exact ⟨trivial, rfl⟩
  | .variable name _ _, hw => by
    intro state state' e' h
    simp only [expr, bind_eq_ok_iff, get_eq_ok_iff] at h
    obtain ⟨_, _, ⟨rfl, rfl⟩, h⟩ := h
    have h := of_not_refused h
    simp only [bind_eq_ok_iff, get_eq_ok_iff] at h
    obtain ⟨hops, mid, hl, _, _, ⟨rfl, rfl⟩, h⟩ := h
    obtain ⟨rfl, rfl⟩ := pure_eq_ok_iff.1 h
    obtain ⟨hh, hs⟩ := locate_eq_ok hl
    exact ⟨⟨hw.2, hs, hh⟩, hs⟩
  | .assign name value _ _, hw => by
    intro state state' e' h
    simp only [expr, bind_eq_ok_iff, get_eq_ok_iff] at h
    obtain ⟨value', mid, hv, hops, mid', hl, _, _, ⟨rfl, rfl⟩, h⟩ := h
    obtain ⟨rfl, rfl⟩ := pure_eq_ok_iff.1 h
    obtain ⟨hv, hs⟩ := expr_located value hw.2 hv
    obtain ⟨hh, hs'⟩ := locate_eq_ok hl
    -- the value is walked first, and leaves the scopes in which the name is counted
    rw [hs] at hh hs'
    exact ⟨⟨hw.1.2, hv, hs', hh⟩, hs'⟩
  | .group inner, hw => by
    intro state state' e' h
    simp only [expr, bind_eq_ok_iff] at h
    obtain ⟨inner', mid, hi, h⟩ := h
    obtain ⟨rfl, rfl⟩ := pure_eq_ok_iff.1 h
    obtain ⟨hi, hs⟩ := expr_located inner hw hi
    exact ⟨hi, hs⟩
  | .unary op operand, hw => by
    intro state state' e' h
    simp only [expr, bind_eq_ok_iff] at h
    obtain ⟨operand', mid, ho, h⟩ := h
    obtain ⟨rfl, rfl⟩ := pure_eq_ok_iff.1 h
    obtain ⟨ho, hs⟩ := expr_located operand hw.2.2 ho
    exact ⟨ho, hs⟩
  | .binary left op right, hw
  | .logical left op right, hw => by
    intro state state' e' h
    simp only [expr, bind_eq_ok_iff] at h
    obtain ⟨left', mid, hl, right', mid', hr, h⟩ := h
    obtain ⟨rfl, rfl⟩ := pure_eq_ok_iff.1 h
    obtain ⟨hl, hs⟩ := expr_located left hw.1 hl
    obtain ⟨hr, hs'⟩ := expr_located right hw.2.2.2 hr
    rw [hs] at hr hs'
    exact ⟨⟨hl, hr⟩, hs'⟩
  | .conditional condition whenTrue whenFalse, hw => by
    intro state state' e' h
    simp only [expr, bind_eq_ok_iff] at h
    obtain ⟨c', mid, hc, a', mid', ha, b', mid'', hb, h⟩ := h
    obtain ⟨rfl, rfl⟩ := pure_eq_ok_iff.1 h
    obtain ⟨hc, hs⟩ := expr_located condition hw.1 hc
    obtain ⟨ha, hs'⟩ := expr_located whenTrue hw.2.1 ha
    obtain ⟨hb, hs''⟩ := expr_located whenFalse hw.2.2 hb
    rw [hs] at ha hs'
    rw [hs'] at hb hs''
    exact ⟨⟨hc, ha, hb⟩, hs''⟩
  | .sequence items, hw => by
    intro state state' e' h
    simp only [expr, bind_eq_ok_iff] at h
    obtain ⟨items', mid, hi, h⟩ := h
    obtain ⟨rfl, rfl⟩ := pure_eq_ok_iff.1 h
    exact exprs_located items hw.2 hi
  | .call callee paren args, hw => by
    intro state state' e' h
    simp only [expr, bind_eq_ok_iff] at h
    obtain ⟨callee', mid, hc, args', mid', ha, h⟩ := h
    obtain ⟨rfl, rfl⟩ := pure_eq_ok_iff.1 h
    obtain ⟨hc, hs⟩ := expr_located callee hw.1 hc
    obtain ⟨ha, hs'⟩ := exprs_located args hw.2.2.2 ha
    rw [hs] at ha hs'
    exact ⟨⟨hc, ha⟩, hs'⟩
  | .lambda keyword params body, hw => by
    intro state state' e' h
    simp only [expr, bind_eq_ok_iff] at h
    obtain ⟨body', mid, hb, h⟩ := h
    obtain ⟨rfl, rfl⟩ := pure_eq_ok_iff.1 h
    obtain ⟨start, last, hs, hb, ht⟩ := inFunction_eq_ok hb
    obtain ⟨hb, he⟩ := stmts_located body hw.2.2 hb
    rw [hs] at hb he
    exact ⟨⟨areNames hw.2.1, hb⟩, ht.trans he⟩
  | .get object name, hw => by
    intro state state' e' h
    simp only [expr, bind_eq_ok_iff] at h
    obtain ⟨object', mid, ho, h⟩ := h
    obtain ⟨rfl, rfl⟩ := pure_eq_ok_iff.1 h
    obtain ⟨ho, hs⟩ := expr_located object hw.1 ho
    exact ⟨ho, hs⟩
  | .set object name value, hw => by
    intro state state' e' h
    simp only [expr, bind_eq_ok_iff] at h
    obtain ⟨value', mid, hv, object', mid', ho, h⟩ := h
    obtain ⟨rfl, rfl⟩ := pure_eq_ok_iff.1 h
    obtain ⟨hv, hs⟩ := expr_located value hw.2.2 hv
    obtain ⟨ho, hs'⟩ := expr_located object hw.1 ho
    rw [hs] at ho hs'
    exact ⟨⟨ho, hv⟩, hs'⟩
  | .this keyword _ _, hw => by
    intro state state' e' h
    simp only [expr, bind_eq_ok_iff, get_eq_ok_iff] at h
    obtain ⟨_, _, ⟨rfl, rfl⟩, h⟩ := h
    have h := of_not_refused h
    simp only [bind_eq_ok_iff, get_eq_ok_iff] at h
    obtain ⟨hops, mid, hl, _, _, ⟨rfl, rfl⟩, h⟩ := h
    obtain ⟨rfl, rfl⟩ := pure_eq_ok_iff.1 h
    obtain ⟨hh, hs⟩ := locate_eq_ok hl
    -- the keyword is looked up by its lexeme, which is `this`
    rw [hw.1 hw.2] at hh
    exact ⟨⟨hs, hh⟩, hs⟩

/-- Expressions in order are located in the open scopes, and leave them as they are. -/
theorem exprs_located :
    (es : List Expr) → Expr.ItemsWellFormed Spelled es → Keeps Expr.AllLocatedIn (exprs es)
  | [], _ => by
    intro state state' es' h
    obtain ⟨rfl, rfl⟩ := pure_eq_ok_iff.1 h
    exact ⟨trivial, rfl⟩
  | e :: es, hw => by
    intro state state' es' h
    simp only [exprs, bind_eq_ok_iff] at h
    obtain ⟨e', mid, he, es', mid', hes, h⟩ := h
    obtain ⟨rfl, rfl⟩ := pure_eq_ok_iff.1 h
    obtain ⟨he, hs⟩ := expr_located e hw.1 he
    obtain ⟨hes, hs'⟩ := exprs_located es hw.2.2 hes
    rw [hs] at hes hs'
    exact ⟨⟨he, hes⟩, hs'⟩

theorem optionalExpr_located :
    (o : Option Expr) → Expr.OptionWellFormed Spelled o →
      Keeps Expr.OptionLocatedIn (optionalExpr o)
  | none, _ => by
    intro state state' o' h
    obtain ⟨rfl, rfl⟩ := pure_eq_ok_iff.1 h
    exact ⟨trivial, rfl⟩
  | some e, hw => by
    intro state state' o' h
    simp only [optionalExpr, bind_eq_ok_iff] at h
    obtain ⟨e', mid, he, h⟩ := h
    obtain ⟨rfl, rfl⟩ := pure_eq_ok_iff.1 h
    exact expr_located e hw he

/-- A statement is located in the open scopes, and leaves them with what it declares. -/
theorem stmt_located : (s : Stmt) → s.WellFormed Spelled → ∀ ⦃state state' s'⦄,
    stmt s state = .ok s' state' →
      s'.LocatedIn state.scopes ∧ state'.scopes = s'.scopesAfter state.scopes ∧
        s'.isDeclaration = s.isDeclaration
  | .expression inner, hw
  | .print inner, hw => by
    intro state state' s' h
    simp only [stmt, bind_eq_ok_iff] at h
    obtain ⟨inner', mid, hi, h⟩ := h
    obtain ⟨rfl, rfl⟩ := pure_eq_ok_iff.1 h
    obtain ⟨hi, hs⟩ := expr_located inner hw hi
    exact ⟨hi, hs, rfl⟩
  | .var name initializer, hw => by
    intro state state' s' h
    simp only [stmt, bind_eq_ok_iff] at h
    obtain ⟨_, mid, hd, o', mid', ho, _, mid'', hd', h⟩ := h
    obtain ⟨rfl, rfl⟩ := pure_eq_ok_iff.1 h
    obtain ⟨ho, hs⟩ := optionalExpr_located initializer hw.2 ho
    -- the initializer is walked while the name is declared and not ready
    rw [declare_eq_ok hd] at ho hs
    refine ⟨⟨hw.1.2, ho⟩, ?_, rfl⟩
    rw [define_eq_ok hd', hs]
    rfl
  | .block statements, hw => by
    intro state state' s' h
    simp only [stmt, bind_eq_ok_iff] at h
    obtain ⟨ss', mid, hb, h⟩ := h
    obtain ⟨rfl, rfl⟩ := pure_eq_ok_iff.1 h
    obtain ⟨last, hb, ht⟩ := inScope_eq_ok hb
    obtain ⟨hb, he⟩ := stmts_located statements hw hb
    exact ⟨hb, ht.trans he, rfl⟩
  | .branch condition whenTrue whenFalse, hw => by
    intro state state' s' h
    simp only [stmt, bind_eq_ok_iff] at h
    obtain ⟨c', mid, hc, a', mid', ha, b', mid'', hb, h⟩ := h
    obtain ⟨rfl, rfl⟩ := pure_eq_ok_iff.1 h
    obtain ⟨hc, hs⟩ := expr_located condition hw.1 hc
    obtain ⟨ha, hs', hd⟩ := stmt_located whenTrue hw.2.1 ha
    obtain ⟨hb, hs''⟩ := optionalStmt_located whenFalse hw.2.2.2 hb
    rw [hw.2.2.1] at hd
    rw [Stmt.scopesAfter_of_not_declaration hd, hs] at hs'
    rw [hs] at ha
    rw [hs'] at hb hs''
    exact ⟨⟨hc, ha, hd, hb⟩, hs'', rfl⟩
  | .loop condition body, hw => by
    intro state state' s' h
    simp only [stmt, bind_eq_ok_iff] at h
    obtain ⟨c', mid, hc, b', mid', hb, h⟩ := h
    obtain ⟨rfl, rfl⟩ := pure_eq_ok_iff.1 h
    obtain ⟨hc, hs⟩ := expr_located condition hw.1 hc
    obtain ⟨hb, hs', hd⟩ := stmt_located body hw.2.1 hb
    rw [hw.2.2] at hd
    rw [Stmt.scopesAfter_of_not_declaration hd, hs] at hs'
    rw [hs] at hb
    exact ⟨⟨hc, hb, hd⟩, hs', rfl⟩
  | .function (.mk name params body), hw => by
    intro state state' s' h
    simp only [stmt, bind_eq_ok_iff] at h
    obtain ⟨_, mid, hd, body', mid', hb, h⟩ := h
    obtain ⟨rfl, rfl⟩ := pure_eq_ok_iff.1 h
    obtain ⟨start, last, hs, hb, ht⟩ := inFunction_eq_ok hb
    obtain ⟨hb, he⟩ := stmts_located body hw.2.2 hb
    rw [hs, define_eq_ok hd] at hb he
    exact ⟨⟨hw.1.2, areNames hw.2.1, hb⟩, ht.trans he, rfl⟩
  | .return keyword value, hw => by
    intro state state' s' h
    simp only [stmt, bind_eq_ok_iff, get_eq_ok_iff] at h
    obtain ⟨_, _, ⟨rfl, rfl⟩, h⟩ := h
    have h := of_not_refused h
    simp only [bind_eq_ok_iff] at h
    obtain ⟨value', mid, hv, h⟩ := h
    obtain ⟨rfl, rfl⟩ := pure_eq_ok_iff.1 h
    obtain ⟨hv, hs⟩ := optionalExpr_located value hw.2 hv
    exact ⟨hv, hs, rfl⟩
  | .class name methods, hw => by
    intro state state' s' h
    simp only [stmt, bind_eq_ok_iff] at h
    obtain ⟨methods', mid, hm, h⟩ := h
    obtain ⟨rfl, rfl⟩ := pure_eq_ok_iff.1 h
    obtain ⟨start, last, hs, hm, ht⟩ := inClass_eq_ok hm
    obtain ⟨hm, he⟩ := methodList_located methods hw.2 hm
    rw [hs] at hm he
    exact ⟨⟨hw.1.2, hm⟩, by rw [ht, he]; rfl, rfl⟩

/-- Statements are located in the open scopes, of which they change the innermost. -/
theorem stmts_located : (ss : List Stmt) → Stmt.AllWellFormed Spelled ss →
    ∀ ⦃state state' ss'⦄, stmts ss state = .ok ss' state' →
      Stmt.AllLocatedIn ss' state.scopes ∧ state'.scopes.tail = state.scopes.tail
  | [], _ => by
    intro state state' ss' h
    obtain ⟨rfl, rfl⟩ := pure_eq_ok_iff.1 h
    exact ⟨trivial, rfl⟩
  | s :: ss, hw => by
    intro state state' ss' h
    simp only [stmts, bind_eq_ok_iff] at h
    obtain ⟨s', mid, hs, ss', mid', hss, h⟩ := h
    obtain ⟨rfl, rfl⟩ := pure_eq_ok_iff.1 h
    obtain ⟨hs, hm, -⟩ := stmt_located s hw.1 hs
    obtain ⟨hss, ht⟩ := stmts_located ss hw.2 hss
    rw [hm] at hss ht
    exact ⟨⟨hs, hss⟩, ht.trans (s'.tail_scopesAfter _)⟩

theorem optionalStmt_located : (o : Option Stmt) → Stmt.OptionWellFormed Spelled o →
    Keeps Stmt.OptionLocatedIn (optionalStmt o)
  | none, _ => by
    intro state state' o' h
    obtain ⟨rfl, rfl⟩ := pure_eq_ok_iff.1 h
    exact ⟨trivial, rfl⟩
  | some s, hw => by
    intro state state' o' h
    simp only [optionalStmt, bind_eq_ok_iff] at h
    obtain ⟨s', mid, hs, h⟩ := h
    obtain ⟨rfl, rfl⟩ := pure_eq_ok_iff.1 h
    obtain ⟨hs, hm, hd⟩ := stmt_located s hw.1 hs
    rw [hw.2] at hd
    rw [Stmt.scopesAfter_of_not_declaration hd] at hm
    exact ⟨⟨hs, hd⟩, hm⟩

theorem method_located : (f : FunctionDecl) → f.WellFormed Spelled →
    Keeps FunctionDecl.LocatedIn (method f)
  | .mk name params body, hw => by
    intro state state' f' h
    simp only [method, bind_eq_ok_iff] at h
    obtain ⟨body', mid, hb, h⟩ := h
    obtain ⟨rfl, rfl⟩ := pure_eq_ok_iff.1 h
    obtain ⟨start, last, hs, hb, ht⟩ := inFunction_eq_ok hb
    obtain ⟨hb, he⟩ := stmts_located body hw.2.2 hb
    rw [hs] at hb he
    exact ⟨⟨areNames hw.2.1, hb⟩, ht.trans he⟩

theorem methodList_located : (fs : List FunctionDecl) → FunctionDecl.AllWellFormed Spelled fs →
    Keeps FunctionDecl.AllLocatedIn (methodList fs)
  | [], _ => by
    intro state state' fs' h
    obtain ⟨rfl, rfl⟩ := pure_eq_ok_iff.1 h
    exact ⟨trivial, rfl⟩
  | f :: fs, hw => by
    intro state state' fs' h
    simp only [methodList, bind_eq_ok_iff] at h
    obtain ⟨f', mid, hf, fs', mid', hfs, h⟩ := h
    obtain ⟨rfl, rfl⟩ := pure_eq_ok_iff.1 h
    obtain ⟨hf, hs⟩ := method_located f hw.1 hf
    obtain ⟨hfs, hs'⟩ := methodList_located fs hw.2 hfs
    rw [hs] at hfs hs'
    exact ⟨⟨hf, hfs⟩, hs'⟩

end

end Analyze

/-- **A program is located in no scope**, so its globals keep no number. -/
theorem analyze_located {statements resolved : List Stmt}
    (hw : Stmt.AllWellFormed Analyze.Spelled statements)
    (h : analyze statements = .ok resolved) : Stmt.AllLocatedIn resolved [] := by
  unfold analyze at h
  split at h
  · rename_i hr
    cases h
    exact (Analyze.stmts_located statements hw hr).1
  · cases h

end ScopedScript

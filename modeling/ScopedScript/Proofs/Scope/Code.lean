import ScopedScript.Proofs.Load
import ScopedScript.Proofs.Scan.Kinds
import ScopedScript.Proofs.Scope.Loaded

/-!
# Loaded code is well formed

Whatever a machine is asked for, the code it gets to evaluate was read from the tokens of a
source, and possibly went through scope analysis.  Reading makes well-formed trees, and scope
analysis changes nothing in them but the numbers and scopes that references keep.  So all code
that a machine is ever given is well formed, over scanned tokens.

## Main definitions

* `Token.Scanned`: the tokens that some source has.
* `Task.WellFormed`: well-formed nodes.
* `Analyze.Makes`: what the analysis leaves behind has a property.

## Main results

* `load_wellFormed`, `loadExpression_wellFormed`, `loadStatement_wellFormed`: loaded code is well
  formed over scanned tokens.
-/

namespace ScopedScript

/-! ## Well-formed nodes -/

/-- The token is one of a source. -/
def Token.Scanned (token : Token) : Prop := ∃ source, token ∈ (scan source).tokens

/-- A word that names something is not the reserved word `this`. -/
theorem Token.Scanned.ne_this {token : Token} (h : token.Scanned) (hk : token.kind = .identifier) :
    token.lexeme ≠ "this" := by
  obtain ⟨source, h⟩ := h
  intro hl
  have hw : keyword? "this" = some .this := by decide
  rcases scanned_kind h with hs | hs | hs | hs <;> rw [hk] at hs
  · exact absurd hs (by decide)
  · cases hs
  · cases hs
  · rw [hl, hw] at hs
    cases hs

variable {P : Token → Prop}

/-- **A well-formed node.** -/
def Task.WellFormed (P : Token → Prop) : Task → Prop
  | expr e => e.WellFormed P
  | stmt s => s.WellFormed P

theorem Expr.ItemsWellFormed.of_mem {es : List Expr} {e : Expr} (h : Expr.ItemsWellFormed P es)
    (hm : e ∈ es) : e.WellFormed P := by
  induction es with
  | nil => exact absurd hm List.not_mem_nil
  | cons first es ih =>
    rcases List.mem_cons.1 hm with rfl | hm
    · exact h.1
    · exact ih h.2.2 hm

theorem Stmt.AllWellFormed.of_mem {ss : List Stmt} {s : Stmt} (h : Stmt.AllWellFormed P ss)
    (hm : s ∈ ss) : s.WellFormed P := by
  induction ss with
  | nil => exact absurd hm List.not_mem_nil
  | cons first ss ih =>
    rcases List.mem_cons.1 hm with rfl | hm
    · exact h.1
    · exact ih h.2 hm

theorem FunctionDecl.AllWellFormed.of_mem {fs : List FunctionDecl} {f : FunctionDecl}
    (h : FunctionDecl.AllWellFormed P fs) (hm : f ∈ fs) : f.WellFormed P := by
  induction fs with
  | nil => exact absurd hm List.not_mem_nil
  | cons first fs ih =>
    rcases List.mem_cons.1 hm with rfl | hm
    · exact h.1
    · exact ih h.2 hm

/-! ## What the analysis makes -/

namespace Analyze

variable {α β : Type} {good : α → Prop} {fine : β → Prop}

/-- What the walk leaves behind has a property. -/
def Makes (good : α → Prop) (walk : Analyze α) : Prop :=
  ∀ ⦃state state' a⦄, walk state = .ok a state' → good a

theorem makes_pure {a : α} (h : good a) : Makes good (pure a) := by
  intro state state' a' ha
  obtain ⟨rfl, -⟩ := pure_eq_ok_iff.1 ha
  exact h

theorem makes_trivial (walk : Analyze α) : Makes (fun _ => True) walk := fun _ _ _ _ => trivial

theorem Makes.bind {walk : Analyze α} {next : α → Analyze β} (h : Makes good walk)
    (hn : ∀ a, good a → Makes fine (next a)) : Makes fine (walk >>= next) := by
  intro state state' b hb
  obtain ⟨a, mid, ha, hb⟩ := bind_eq_ok_iff.1 hb
  exact hn a (h ha) hb

/-- What comes after a step that makes nothing of interest. -/
theorem makes_after {walk : Analyze α} {next : α → Analyze β} (h : ∀ a, Makes fine (next a)) :
    Makes fine (walk >>= next) :=
  (makes_trivial walk).bind fun a _ => h a

theorem makes_ite {c : Prop} [Decidable c] {walk other : Analyze α} (h : Makes good walk)
    (h' : Makes good other) : Makes good (if c then walk else other) := by
  split
  · exact h
  · exact h'

theorem makes_inScope (scope : Scope) {walk : Analyze α} (h : Makes good walk) :
    Makes good (inScope scope walk) :=
  makes_after fun _ => h.bind fun _ ha => makes_after fun _ => makes_pure ha

theorem makes_inFunction (context : FunctionContext) (params : List Token) {walk : Analyze α}
    (h : Makes good walk) : Makes good (inFunction context params walk) :=
  makes_after fun _ => makes_after fun _ =>
    (makes_inScope .empty (makes_after fun _ => h)).bind fun _ ha =>
      makes_after fun _ => makes_pure ha

theorem makes_inClass (name : Token) {walk : Analyze α} (h : Makes good walk) :
    Makes good (inClass name walk) :=
  makes_after fun _ => makes_after fun _ => makes_after fun _ =>
    (makes_inScope _ h).bind fun _ ha => makes_after fun _ => makes_pure ha

mutual

/-- An expression stays well formed. -/
theorem expr_wellFormed : (e : Expr) → e.WellFormed P →
    Makes (fun e' => e'.WellFormed P ∧ e'.isSequence = e.isSequence) (expr e)
  | .literal _, h => makes_pure ⟨h, rfl⟩
  | .variable _ _ _, h =>
    makes_after fun _ => makes_ite
      (makes_after fun _ => makes_after fun _ => makes_after fun _ => makes_pure ⟨h, rfl⟩)
      (makes_after fun _ => makes_after fun _ => makes_pure ⟨h, rfl⟩)
  | .assign _ value _ _, h =>
    (expr_wellFormed value h.2).bind fun _ hv => makes_after fun _ => makes_after fun _ =>
      makes_pure ⟨⟨h.1, hv.1⟩, rfl⟩
  | .group inner, h => (expr_wellFormed inner h).bind fun _ hi => makes_pure ⟨hi.1, rfl⟩
  | .unary _ operand, h =>
    (expr_wellFormed operand h.2.2).bind fun _ ho => makes_pure ⟨⟨h.1, h.2.1, ho.1⟩, rfl⟩
  | .binary left _ right, h =>
    (expr_wellFormed left h.1).bind fun _ hl => (expr_wellFormed right h.2.2.2).bind fun _ hr =>
      makes_pure ⟨⟨hl.1, h.2.1, h.2.2.1, hr.1⟩, rfl⟩
  | .logical left _ right, h =>
    (expr_wellFormed left h.1).bind fun _ hl => (expr_wellFormed right h.2.2.2).bind fun _ hr =>
      makes_pure ⟨⟨hl.1, h.2.1, h.2.2.1, hr.1⟩, rfl⟩
  | .conditional condition whenTrue whenFalse, h =>
    (expr_wellFormed condition h.1).bind fun _ hc => (expr_wellFormed whenTrue h.2.1).bind
      fun _ ha => (expr_wellFormed whenFalse h.2.2).bind fun _ hb =>
        makes_pure ⟨⟨hc.1, ha.1, hb.1⟩, rfl⟩
  | .sequence items, h =>
    (exprs_wellFormed items h.2).bind fun _ hi => makes_pure ⟨⟨hi.2 ▸ h.1, hi.1⟩, rfl⟩
  | .call callee _ args, h =>
    (expr_wellFormed callee h.1).bind fun _ hc => (exprs_wellFormed args h.2.2.2).bind fun _ ha =>
      makes_pure ⟨⟨hc.1, h.2.1, ha.2 ▸ h.2.2.1, ha.1⟩, rfl⟩
  | .lambda _ _ body, h =>
    (makes_inFunction _ _ (stmts_wellFormed body h.2.2)).bind fun _ hb =>
      makes_pure ⟨⟨h.1, h.2.1, hb⟩, rfl⟩
  | .get object _, h => (expr_wellFormed object h.1).bind fun _ ho => makes_pure ⟨⟨ho.1, h.2⟩, rfl⟩
  | .set object _ value, h =>
    (expr_wellFormed value h.2.2).bind fun _ hv => (expr_wellFormed object h.1).bind fun _ ho =>
      makes_pure ⟨⟨ho.1, h.2.1, hv.1⟩, rfl⟩
  | .this _ _ _, h =>
    makes_after fun _ => makes_ite
      (makes_after fun _ => makes_after fun _ => makes_after fun _ => makes_pure ⟨h, rfl⟩)
      (makes_after fun _ => makes_after fun _ => makes_pure ⟨h, rfl⟩)

theorem exprs_wellFormed : (es : List Expr) → Expr.ItemsWellFormed P es →
    Makes (fun es' => Expr.ItemsWellFormed P es' ∧ es'.length = es.length) (exprs es)
  | [], _ => makes_pure ⟨trivial, rfl⟩
  | e :: es, h =>
    (expr_wellFormed e h.1).bind fun _ he => (exprs_wellFormed es h.2.2).bind fun _ hes =>
      makes_pure ⟨⟨he.1, he.2.trans h.2.1, hes.1⟩, congrArg Nat.succ hes.2⟩

theorem optionalExpr_wellFormed : (o : Option Expr) → Expr.OptionWellFormed P o →
    Makes (Expr.OptionWellFormed P) (optionalExpr o)
  | none, _ => makes_pure trivial
  | some e, h => (expr_wellFormed e h).bind fun _ he => makes_pure he.1

/-- A statement stays well formed. -/
theorem stmt_wellFormed : (s : Stmt) → s.WellFormed P →
    Makes (fun s' => s'.WellFormed P ∧ s'.isDeclaration = s.isDeclaration) (stmt s)
  | .expression inner, h => (expr_wellFormed inner h).bind fun _ hi => makes_pure ⟨hi.1, rfl⟩
  | .print inner, h => (expr_wellFormed inner h).bind fun _ hi => makes_pure ⟨hi.1, rfl⟩
  | .var _ initializer, h =>
    makes_after fun _ => (optionalExpr_wellFormed initializer h.2).bind fun _ hi =>
      makes_after fun _ => makes_pure ⟨⟨h.1, hi⟩, rfl⟩
  | .block statements, h =>
    (makes_inScope _ (stmts_wellFormed statements h)).bind fun _ hs => makes_pure ⟨hs, rfl⟩
  | .branch condition whenTrue whenFalse, h =>
    (expr_wellFormed condition h.1).bind fun _ hc => (stmt_wellFormed whenTrue h.2.1).bind
      fun _ ha => (optionalStmt_wellFormed whenFalse h.2.2.2).bind fun _ hb =>
        makes_pure ⟨⟨hc.1, ha.1, ha.2.trans h.2.2.1, hb⟩, rfl⟩
  | .loop condition body, h =>
    (expr_wellFormed condition h.1).bind fun _ hc => (stmt_wellFormed body h.2.1).bind fun _ hb =>
      makes_pure ⟨⟨hc.1, hb.1, hb.2.trans h.2.2⟩, rfl⟩
  | .function (.mk _ _ body), h =>
    makes_after fun _ => (makes_inFunction _ _ (stmts_wellFormed body h.2.2)).bind fun _ hb =>
      makes_pure ⟨⟨h.1, h.2.1, hb⟩, rfl⟩
  | .return _ value, h =>
    makes_after fun _ => makes_ite
      (makes_after fun _ => (optionalExpr_wellFormed value h.2).bind fun _ hv =>
        makes_pure ⟨⟨h.1, hv⟩, rfl⟩)
      ((optionalExpr_wellFormed value h.2).bind fun _ hv => makes_pure ⟨⟨h.1, hv⟩, rfl⟩)
  | .class name methods, h =>
    (makes_inClass name (methodList_wellFormed methods h.2)).bind fun _ hm =>
      makes_pure ⟨⟨h.1, hm⟩, rfl⟩

/-- **Statements stay well formed.** -/
theorem stmts_wellFormed : (ss : List Stmt) → Stmt.AllWellFormed P ss →
    Makes (Stmt.AllWellFormed P) (stmts ss)
  | [], _ => makes_pure trivial
  | s :: ss, h =>
    (stmt_wellFormed s h.1).bind fun _ hs => (stmts_wellFormed ss h.2).bind fun _ hss =>
      makes_pure ⟨hs.1, hss⟩

theorem optionalStmt_wellFormed : (o : Option Stmt) → Stmt.OptionWellFormed P o →
    Makes (Stmt.OptionWellFormed P) (optionalStmt o)
  | none, _ => makes_pure trivial
  | some s, h => (stmt_wellFormed s h.1).bind fun _ hs => makes_pure ⟨hs.1, hs.2.trans h.2⟩

theorem method_wellFormed : (f : FunctionDecl) → f.WellFormed P →
    Makes (FunctionDecl.WellFormed P) (method f)
  | .mk _ _ body, h =>
    (makes_inFunction _ _ (stmts_wellFormed body h.2.2)).bind fun _ hb =>
      makes_pure ⟨h.1, h.2.1, hb⟩

theorem methodList_wellFormed : (fs : List FunctionDecl) → FunctionDecl.AllWellFormed P fs →
    Makes (FunctionDecl.AllWellFormed P) (methodList fs)
  | [], _ => makes_pure trivial
  | f :: fs, h =>
    (method_wellFormed f h.1).bind fun _ hf => (methodList_wellFormed fs h.2).bind fun _ hfs =>
      makes_pure ⟨hf, hfs⟩

end

end Analyze

/-- A program stays well formed. -/
theorem analyze_wellFormed {statements resolved : List Stmt}
    (hw : Stmt.AllWellFormed P statements) (h : analyze statements = .ok resolved) :
    Stmt.AllWellFormed P resolved := by
  unfold analyze at h
  split at h
  · rename_i hr
    cases h
    exact Analyze.stmts_wellFormed statements hw hr
  · cases h

/-! ## Loaded code -/

section Loaded

variable {source : String}

/-- **The statements of a loaded program are well formed over scanned tokens.** -/
theorem load_wellFormed {statements : List Stmt} (h : load source = .ok statements) :
    ∀ s ∈ statements, s.WellFormed Token.Scanned := by
  obtain ⟨-, read, hr, ha⟩ := load_eq_ok_iff.1 h
  have hd := (readProgram_accepts_iff fun t => scanned_ne_eof).1 hr
  have hw : Stmt.AllWellFormed Token.Scanned read := hd.wellFormed fun t ht => ⟨source, ht⟩
  exact fun s hs => (analyze_wellFormed hw ha).of_mem hs

/-- A single expression is well formed. -/
theorem loadExpression_wellFormed {e : Expr} (h : loadSingle readExpression source = .ok e) :
    e.WellFormed Token.Scanned := by
  obtain ⟨-, hr⟩ := loadSingle_eq_ok_iff.1 h
  have hd := (readExpression_eq_ok_iff fun t => scanned_ne_eof).1 hr
  exact hd.wellFormed fun t ht => ⟨source, ht⟩

/-- A single statement is well formed. -/
theorem loadStatement_wellFormed {s : Stmt} (h : loadSingle readDeclaration source = .ok s) :
    s.WellFormed Token.Scanned := by
  obtain ⟨-, rest, hr⟩ := loadSingle_eq_ok_iff.1 h
  obtain ⟨used, hu, d, hd, -⟩ := (Reader.sound _).declaration hr
  have ht : ∀ t ∈ used, t.Scanned := by
    intro t ht
    refine ⟨source, ?_⟩
    rw [hu]
    exact List.mem_append_left rest ht
  exact hd.wellFormed ht

end Loaded

end ScopedScript

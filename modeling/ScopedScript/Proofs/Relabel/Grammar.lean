import ScopedScript.Proofs.Grammar
import ScopedScript.Proofs.Relabel

/-!
# The grammar of relabelled tokens

The grammar looks at the kinds of tokens and not at their lines.  So relabelled tokens are the
same phrases, with relabelled trees.  The references in a tree that is read have no number yet,
and no scopes, so only the lines change.

## Main results

* `Derives.relabel`: relabelled tokens are the relabelled phrase.
* `Derives.declarations_append`: programs one after the other are a program.
-/

namespace ScopedScript

namespace Relabel

variable (F : Relabel)

/-- The relabelled phrase. -/
def phrase : Phrase → Phrase
  | .expression e => .expression (F.expr e)
  | .items es => .items (F.exprs es)
  | .assignment e => .assignment (F.expr e)
  | .ternary e => .ternary (F.expr e)
  | .tier level e => .tier level (F.expr e)
  | .unary e => .unary (F.expr e)
  | .call e => .call (F.expr e)
  | .arguments es => .arguments (F.exprs es)
  | .primary e => .primary (F.expr e)
  | .optional e => .optional (F.expr? e)
  | .variable s => .variable (F.stmt s)
  | .initializer s => .initializer (F.stmt? s)
  | .function f => .function (F.decl f)
  | .functions fs => .functions (F.decls fs)
  | .statement dangling s => .statement dangling (F.stmt s)
  | .declaration dangling s => .declaration dangling (F.stmt s)
  | .declarations ss => .declarations (F.stmts ss)

theorem phrase_operand (level : Tier) (e : Expr) :
    F.phrase (level.operand e) = level.operand (F.expr e) := by
  cases level <;> rfl

theorem expr_join (level : Tier) (left : Expr) (op : Token) (right : Expr) :
    F.expr (level.join left op right) = level.join (F.expr left) (F.token op) (F.expr right) := by
  cases level <;> rfl

theorem stmt_forTree (first : Option Stmt) (condition : Expr) (step : Option Expr) (body : Stmt) :
    F.stmt (forTree first condition step body) =
      forTree (F.stmt? first) (F.expr condition) (F.expr? step) (F.stmt body) := by
  cases first <;> cases step <;> rfl

theorem expr?_getD (o : Option Expr) (value : Value) :
    F.expr (o.getD (.literal value)) = (F.expr? o).getD (.literal value) := by
  cases o <;> rfl

theorem length_exprs (es : List Expr) : (F.exprs es).length = es.length := by
  induction es with
  | nil => rfl
  | cons e es ih => rw [exprs, List.length_cons, ih, List.length_cons]

end Relabel

theorem Names.relabel (F : Relabel) {names tokens : List Token} (h : Names names tokens) :
    Names (names.map F.token) (tokens.map F.token) := by
  induction h with
  | one hn => exact .one hn
  | more hn hc _ ih => exact .more hn hc ih

theorem Parameters.relabel (F : Relabel) {names tokens : List Token} (h : Parameters names tokens) :
    Parameters (names.map F.token) (tokens.map F.token) := by
  cases h with
  | none => exact .none
  | some h hl => exact .some (h.relabel F) (by rwa [List.length_map])

/-- **Relabelled tokens are the relabelled phrase.** -/
theorem Derives.relabel {F : Relabel} (hh : F.hops none = none) (hs : F.scopes [] = [])
    {nearest : Bool} {p : Phrase} {ts : List Token} (h : Derives nearest p ts) :
    Derives nearest (F.phrase p) (ts.map F.token) := by
  -- Each rule is used again; it asks for kinds of tokens, and these are the same.
  induction h with
  | name ht =>
    rw [Relabel.phrase, Relabel.expr, hh, hs]
    exact .name ht
  | this ht =>
    rw [Relabel.phrase, Relabel.expr, hh, hs]
    exact .this ht
  | assignVariable hn he _ ih =>
    rw [Relabel.phrase, Relabel.expr, hh, hs]
    exact .assignVariable hn he ih
  | single _ ih => exact .single ih
  | sequence _ ih => exact .sequence ih
  | lastItem _ ih => exact .lastItem ih
  | noAssignment _ ih => exact .noAssignment ih
  | noConditional _ ih => exact .noConditional ih
  | operand _ ih =>
    rw [Relabel.phrase_operand] at ih
    exact .operand ih
  | noUnary _ ih => exact .noUnary ih
  | noCall _ ih => exact .noCall ih
  | noArguments => exact .noArguments
  | someArguments _ ih => exact .someArguments ih
  | absent => exact .absent
  | present _ ih => exact .present ih
  | noFunctions => exact .noFunctions
  | noDeclarations => exact .noDeclarations
  | statementDeclaration _ ih => exact .statementDeclaration ih
  | falseLiteral ht => exact .falseLiteral ht
  | trueLiteral ht => exact .trueLiteral ht
  | nilLiteral ht => exact .nilLiteral ht
  | @literal t ht => exact .literal (t := F.token t) ht
  | plainVariable hn hs => exact .plainVariable hn hs
  | noInitializer hs => exact .noInitializer hs
  | unaryOperator ho _ ih => exact .unaryOperator ho ih
  | variableInitializer hk _ ih => exact .variableInitializer hk ih
  | functionDeclaration hk _ ih => exact .functionDeclaration hk ih
  | variableDeclaration hk _ ih => exact .variableDeclaration hk ih
  | moreItems _ hc _ ih ihs =>
    rw [List.map_append]
    exact .moreItems ih hc ihs
  | assignProperty _ hd hn he _ iho ih =>
    rw [List.map_append]
    exact .assignProperty iho hd hn he ih
  | conditional _ hq _ hk _ ihc iha ihb =>
    rw [List.map_append, List.map_cons, List.map_append]
    exact .conditional ihc hq iha hk ihb
  | operator _ ho _ ihl ihr =>
    rw [Relabel.phrase_operand] at ihr
    rw [List.map_append, Relabel.phrase, Relabel.expr_join]
    exact .operator ihl ho ihr
  | application _ hl _ hm hr ihc iha =>
    rw [List.map_append, List.map_cons, List.map_append]
    exact .application ihc hl iha (by rwa [Relabel.length_exprs]) hr
  | property _ hd hn iho =>
    rw [List.map_append]
    exact .property iho hd hn
  | group hl _ hr ih =>
    rw [List.map_cons, List.map_append]
    exact .group hl ih hr
  | lambda hk hl hp hr ho _ hc ih =>
    simp only [List.map_cons, List.map_append]
    exact .lambda hk hl (hp.relabel F) hr ho ih hc
  | initializedVariable hn he _ hs ih =>
    simp only [List.map_cons, List.map_append]
    exact .initializedVariable hn he ih hs
  | expressionInitializer _ hs ih =>
    rw [List.map_append]
    exact .expressionInitializer ih hs
  | function hn hl hp hr ho _ hc ih =>
    simp only [List.map_cons, List.map_append]
    exact .function hn hl (hp.relabel F) hr ho ih hc
  | moreFunctions _ _ ih ihs =>
    rw [List.map_append]
    exact .moreFunctions ih ihs
  | expressionStatement _ hs ih =>
    rw [List.map_append]
    exact .expressionStatement ih hs
  | print hk _ hs ih =>
    rw [List.map_cons, List.map_append]
    exact .print hk ih hs
  | «return» hk _ hs ih =>
    rw [List.map_cons, List.map_append]
    exact .return hk ih hs
  | block ho _ hc ih =>
    rw [List.map_cons, List.map_append]
    exact .block ho ih hc
  | «while» hk hl _ hr _ ihc ihb =>
    simp only [List.map_cons, List.map_append]
    exact .while hk hl ihc hr ihb
  | «for» hk hl _ _ hs _ hr _ ihf ihc ihi ihb =>
    simp only [List.map_cons, List.map_append, Relabel.phrase, Relabel.stmt_forTree,
      Relabel.expr?_getD]
    exact .for hk hl ihf ihc hs ihi hr ihb
  | ifOnly hk hl _ hr _ ihc iha =>
    simp only [List.map_cons, List.map_append]
    exact .ifOnly hk hl ihc hr iha
  | ifElse hk hl _ hr _ hd he _ ihc iha ihb =>
    simp only [List.map_cons, List.map_append]
    exact .ifElse hk hl ihc hr iha hd he ihb
  | «class» hk hn ho _ hc ih =>
    simp only [List.map_cons, List.map_append]
    exact .class hk hn ho ih hc
  | moreDeclarations _ _ ih ihs =>
    rw [List.map_append]
    exact .moreDeclarations ih ihs

/-- **Programs one after the other are a program.** -/
theorem Derives.declarations_append {nearest : Bool} {ss ss' : List Stmt} {ts us : List Token}
    (h : Derives nearest (.declarations ss) ts) (h' : Derives nearest (.declarations ss') us) :
    Derives nearest (.declarations (ss ++ ss')) (ts ++ us) := by
  induction ss generalizing ts with
  | nil =>
    cases h
    exact h'
  | cons s ss ih =>
    cases h with
    | moreDeclarations hd hs =>
      rw [List.append_assoc]
      exact .moreDeclarations hd (ih hs)

end ScopedScript

import ScopedScript.Proofs.Grammar

/-!
# Trees of the grammar are well formed

What the phrases of the grammar say about the trees they stand for: names are identifiers,
operators are operators of the right kind, literals refer to nothing, lists have the lengths
they may have, and nothing is declared directly under an `if` or a loop.  The tokens in a tree
are among the tokens it was read from, so what holds of all of those holds of them; `P` stands
for such a property.

## Main definitions

* `Expr.WellFormed P`, `Stmt.WellFormed P`: the well-formed trees over tokens that have `P`.
* `Stmt.isDeclaration`: the statements that give a name to something.
* `Value.isPlain`: the values that can be written down.

## Main results

* `Derives.wellFormed`: the tree of a phrase is well formed.
-/

namespace ScopedScript

/-- Whether an expression is a list of items with commas between them. -/
def Expr.isSequence : Expr → Bool
  | .sequence _ => true
  | _ => false

/-- Whether a statement gives a name to something in the scope it stands in. -/
def Stmt.isDeclaration : Stmt → Bool
  | .var .. | .function .. | .class .. => true
  | _ => false

/-- Whether a value is one that can be written down. -/
def Value.isPlain : Value → Bool
  | .nil | .bool _ | .number _ | .string _ => true
  | _ => false

/-- Whether a value refers to nothing on a heap. -/
def Value.isScalar : Value → Bool
  | .nil | .bool _ | .number _ | .nan _ | .string _ => true
  | _ => false

theorem Value.isScalar_of_isPlain {value : Value} (h : value.isPlain = true) :
    value.isScalar = true := by
  cases value with
  | nil | bool | number | string => rfl
  | _ => cases h

theorem Literal.isPlain_value (literal : Literal) : literal.value.isPlain = true := by
  cases literal <;> rfl

/-- The kinds of binary operators: all levels but the two logical ones. -/
def binaryKinds : List TokenKind :=
  Tier.equality.operators ++ Tier.comparison.operators ++ Tier.term.operators ++
    Tier.factor.operators

variable (P : Token → Prop)

/-- A token that names something. -/
def Token.IsName (name : Token) : Prop := P name ∧ name.kind = .identifier

/-- A parameter list: names, and not too many. -/
def ParametersWellFormed (params : List Token) : Prop :=
  params.length ≤ maxArity ∧ ∀ param ∈ params, param.IsName P

mutual

/-- **Well-formed expressions.** -/
def Expr.WellFormed : Expr → Prop
  | .literal value => value.isPlain = true
  | .variable name _ _ => name.IsName P
  | .assign name value _ _ => name.IsName P ∧ value.WellFormed
  | .group inner => inner.WellFormed
  | .unary op operand => P op ∧ op.kind ∈ [TokenKind.bang, .minus] ∧ operand.WellFormed
  | .binary left op right =>
    left.WellFormed ∧ P op ∧ op.kind ∈ binaryKinds ∧ right.WellFormed
  | .logical left op right =>
    left.WellFormed ∧ P op ∧ op.kind ∈ [TokenKind.or, .and] ∧ right.WellFormed
  | .conditional condition whenTrue whenFalse =>
    condition.WellFormed ∧ whenTrue.WellFormed ∧ whenFalse.WellFormed
  | .sequence items => 2 ≤ items.length ∧ Expr.ItemsWellFormed items
  | .call callee paren args =>
    callee.WellFormed ∧ P paren ∧ args.length ≤ maxArity ∧ Expr.ItemsWellFormed args
  | .lambda keyword params body =>
    P keyword ∧ ParametersWellFormed P params ∧ Stmt.AllWellFormed body
  | .get object name => object.WellFormed ∧ name.IsName P
  | .set object name value => object.WellFormed ∧ name.IsName P ∧ value.WellFormed
  | .this keyword _ _ => P keyword ∧ keyword.kind = .this

/-- Well-formed items, of which none is itself a list of items. -/
def Expr.ItemsWellFormed : List Expr → Prop
  | [] => True
  | e :: es => e.WellFormed ∧ e.isSequence = false ∧ Expr.ItemsWellFormed es

/-- A well-formed expression, or none. -/
def Expr.OptionWellFormed : Option Expr → Prop
  | none => True
  | some e => e.WellFormed

/-- **Well-formed statements.** -/
def Stmt.WellFormed : Stmt → Prop
  | .expression e => e.WellFormed
  | .print e => e.WellFormed
  | .var name initializer => name.IsName P ∧ Expr.OptionWellFormed initializer
  | .block statements => Stmt.AllWellFormed statements
  | .branch condition whenTrue whenFalse =>
    condition.WellFormed ∧ whenTrue.WellFormed ∧ whenTrue.isDeclaration = false ∧
      Stmt.OptionWellFormed whenFalse
  | .loop condition body => condition.WellFormed ∧ body.WellFormed ∧ body.isDeclaration = false
  | .function decl => decl.WellFormed
  | .return keyword value => P keyword ∧ Expr.OptionWellFormed value
  | .class name methods => name.IsName P ∧ FunctionDecl.AllWellFormed methods

/-- Well-formed statements in order. -/
def Stmt.AllWellFormed : List Stmt → Prop
  | [] => True
  | s :: ss => s.WellFormed ∧ Stmt.AllWellFormed ss

/-- A well-formed statement that declares nothing, or none. -/
def Stmt.OptionWellFormed : Option Stmt → Prop
  | none => True
  | some s => s.WellFormed ∧ s.isDeclaration = false

/-- **Well-formed functions.** -/
def FunctionDecl.WellFormed : FunctionDecl → Prop
  | .mk name params body =>
    name.IsName P ∧ ParametersWellFormed P params ∧ Stmt.AllWellFormed body

/-- Well-formed functions in order. -/
def FunctionDecl.AllWellFormed : List FunctionDecl → Prop
  | [] => True
  | f :: fs => f.WellFormed ∧ FunctionDecl.AllWellFormed fs

end

/-- An expression that is well formed and no list of items. -/
def Expr.SingleWellFormed (e : Expr) : Prop := e.WellFormed P ∧ e.isSequence = false

/-- What the tree of a phrase has to be. -/
def Phrase.WellFormed : Phrase → Prop
  | expression e => e.WellFormed P
  | items es | arguments es => Expr.ItemsWellFormed P es
  | assignment e | ternary e | tier _ e | unary e | call e | primary e => e.SingleWellFormed P
  | optional o => Expr.OptionWellFormed P o
  | «variable» s | declaration _ s => s.WellFormed P
  | initializer none => True
  | initializer (some s) => s.WellFormed P
  | function f => f.WellFormed P
  | functions fs => FunctionDecl.AllWellFormed P fs
  | statement _ s => s.WellFormed P ∧ s.isDeclaration = false
  | declarations ss => Stmt.AllWellFormed P ss

variable {P}

theorem Tier.wellFormed_operand {level : Tier} {e : Expr} :
    (level.operand e).WellFormed P ↔ e.SingleWellFormed P := by
  cases level <;> rfl

theorem Tier.wellFormed_join {level : Tier} {left right : Expr} {op : Token}
    (hl : left.WellFormed P) (hp : P op) (ho : op.kind ∈ level.operators)
    (hr : right.WellFormed P) : (level.join left op right).SingleWellFormed P := by
  cases level with
  | or | and =>
    refine ⟨⟨hl, hp, ?_, hr⟩, rfl⟩
    simp only [Tier.operators, List.mem_singleton] at ho
    simp [ho]
  | equality | comparison | term | factor =>
    refine ⟨⟨hl, hp, ?_, hr⟩, rfl⟩
    simp [binaryKinds, ho]

theorem Names.isName {names ts : List Token} (h : Names names ts) (ht : ∀ t ∈ ts, P t) :
    ∀ name ∈ names, name.IsName P := by
  induction h with
  | one hn => simpa [Token.IsName, hn] using ht
  | more hn hc _ ih =>
    simp only [List.forall_mem_cons] at ht
    exact List.forall_mem_cons.2 ⟨⟨ht.1, hn⟩, ih ht.2.2⟩

theorem Parameters.wellFormed {params ts : List Token} (h : Parameters params ts)
    (ht : ∀ t ∈ ts, P t) : ParametersWellFormed P params := by
  cases h with
  | none => exact ⟨Nat.zero_le _, by simp⟩
  | some h hl => exact ⟨hl, h.isName ht⟩

theorem forTree_wellFormed {first : Option Stmt} {condition : Expr} {step : Option Expr}
    {body : Stmt} (hf : (Phrase.initializer first).WellFormed P) (hc : condition.WellFormed P)
    (hs : Expr.OptionWellFormed P step) (hb : body.WellFormed P)
    (hd : body.isDeclaration = false) :
    (forTree first condition step body).WellFormed P ∧
      (forTree first condition step body).isDeclaration = false := by
  cases first with
  | none =>
    cases step with
    | none => exact ⟨⟨hc, hb, hd⟩, rfl⟩
    | some step => exact ⟨⟨hc, ⟨hb, hs, trivial⟩, rfl⟩, rfl⟩
  | some first =>
    cases step with
    | none => exact ⟨⟨hf, ⟨hc, hb, hd⟩, trivial⟩, rfl⟩
    | some step => exact ⟨⟨hf, ⟨hc, ⟨hb, hs, trivial⟩, rfl⟩, trivial⟩, rfl⟩

/-- **The tree of a phrase is well formed**, over tokens that are all as `P` says. -/
theorem Derives.wellFormed {nearest : Bool} {p : Phrase} {ts : List Token}
    (h : Derives nearest p ts) (ht : ∀ t ∈ ts, P t) : p.WellFormed P := by
  induction h with
  -- Each case splits the tokens as its rule does, so that every part has its own.
  | single _ ih => exact (ih ht).1
  | sequence _ ih => exact ⟨by simp, ih ht⟩
  | lastItem _ ih => exact ⟨(ih ht).1, (ih ht).2, trivial⟩
  | moreItems _ _ _ ih ihs =>
    simp only [List.forall_mem_append, List.forall_mem_cons] at ht
    exact ⟨(ih ht.1).1, (ih ht.1).2, ihs ht.2.2⟩
  | assignVariable hn _ _ ih =>
    simp only [List.forall_mem_cons] at ht
    exact ⟨⟨⟨ht.1, hn⟩, (ih ht.2.2).1⟩, rfl⟩
  | assignProperty _ _ hn _ _ iho ih =>
    simp only [List.forall_mem_append, List.forall_mem_cons] at ht
    exact ⟨⟨(iho ht.1).1, ⟨ht.2.2.1, hn⟩, (ih ht.2.2.2.2).1⟩, rfl⟩
  | noAssignment _ ih | noConditional _ ih | noUnary _ ih | noCall _ ih => exact ih ht
  | conditional _ _ _ _ _ ihc iha ihb =>
    simp only [List.forall_mem_append, List.forall_mem_cons] at ht
    exact ⟨⟨(ihc ht.1).1, (iha ht.2.2.1).1, (ihb ht.2.2.2.2).1⟩, rfl⟩
  | operand _ ih => exact Tier.wellFormed_operand.1 (ih ht)
  | operator _ ho _ ihl ihr =>
    simp only [List.forall_mem_append, List.forall_mem_cons] at ht
    exact Tier.wellFormed_join (ihl ht.1).1 ht.2.1 ho (Tier.wellFormed_operand.1 (ihr ht.2.2)).1
  | unaryOperator ho _ ih =>
    simp only [List.forall_mem_cons] at ht
    exact ⟨⟨ht.1, ho, (ih ht.2).1⟩, rfl⟩
  | application _ _ _ hm _ ihc iha =>
    simp only [List.forall_mem_append, List.forall_mem_cons] at ht
    exact ⟨⟨(ihc ht.1).1, ht.2.2.2.1, hm, iha ht.2.2.1⟩, rfl⟩
  | property _ _ hn ih =>
    simp only [List.forall_mem_append, List.forall_mem_cons] at ht
    exact ⟨⟨(ih ht.1).1, ht.2.2.1, hn⟩, rfl⟩
  | noArguments | absent | noFunctions | noDeclarations | noInitializer _ => trivial
  | someArguments _ ih | present _ ih => exact ih ht
  | falseLiteral _ | trueLiteral _ | nilLiteral _ => exact ⟨rfl, rfl⟩
  | literal _ => exact ⟨Literal.isPlain_value _, rfl⟩
  | this h => exact ⟨⟨ht _ List.mem_cons_self, h⟩, rfl⟩
  | name h => exact ⟨⟨ht _ List.mem_cons_self, h⟩, rfl⟩
  | group _ _ _ ih =>
    simp only [List.forall_mem_append, List.forall_mem_cons] at ht
    exact ⟨ih ht.2.1, rfl⟩
  | lambda _ _ hp _ _ _ _ ih =>
    simp only [List.forall_mem_append, List.forall_mem_cons] at ht
    exact ⟨⟨ht.1, hp.wellFormed ht.2.2.1, ih ht.2.2.2.2.2.1⟩, rfl⟩
  | plainVariable hn _ => exact ⟨⟨ht _ List.mem_cons_self, hn⟩, trivial⟩
  | initializedVariable hn _ _ _ ih =>
    simp only [List.forall_mem_append, List.forall_mem_cons] at ht
    exact ⟨⟨ht.1, hn⟩, ih ht.2.2.1⟩
  | variableInitializer _ _ ih | variableDeclaration _ _ ih | functionDeclaration _ _ ih =>
    exact ih (List.forall_mem_cons.1 ht).2
  | expressionInitializer _ _ ih =>
    exact ih (List.forall_mem_append.1 ht).1
  | function hn _ hp _ _ _ _ ih =>
    simp only [List.forall_mem_append, List.forall_mem_cons] at ht
    exact ⟨⟨ht.1, hn⟩, hp.wellFormed ht.2.2.1, ih ht.2.2.2.2.2.1⟩
  | moreFunctions _ _ ih ihs | moreDeclarations _ _ ih ihs =>
    simp only [List.forall_mem_append] at ht
    exact ⟨ih ht.1, ihs ht.2⟩
  | expressionStatement _ _ ih => exact ⟨ih (List.forall_mem_append.1 ht).1, rfl⟩
  | print _ _ _ ih =>
    simp only [List.forall_mem_append, List.forall_mem_cons] at ht
    exact ⟨ih ht.2.1, rfl⟩
  | «return» _ _ _ ih =>
    simp only [List.forall_mem_append, List.forall_mem_cons] at ht
    exact ⟨⟨ht.1, ih ht.2.1⟩, rfl⟩
  | block _ _ _ ih =>
    simp only [List.forall_mem_append, List.forall_mem_cons] at ht
    exact ⟨ih ht.2.1, rfl⟩
  | «while» _ _ _ _ _ ihc ihb =>
    simp only [List.forall_mem_append, List.forall_mem_cons] at ht
    obtain ⟨hb, hd⟩ := ihb ht.2.2.2.2
    exact ⟨⟨ihc ht.2.2.1, hb, hd⟩, rfl⟩
  | @«for» first condition step body d keyword left semicolon right ts us vs ws
      _ _ _ _ _ _ _ _ ihf ihc ihi ihb =>
    simp only [List.forall_mem_append, List.forall_mem_cons] at ht
    obtain ⟨-, -, h₁, h₂, -, h₃, -, h₄⟩ := ht
    obtain ⟨hb, hd⟩ := ihb h₄
    refine forTree_wellFormed (ihf h₁) ?_ (ihi h₃) hb hd
    cases condition with
    | none => exact rfl
    | some condition => exact ihc h₂
  | ifOnly _ _ _ _ _ ihc iha =>
    simp only [List.forall_mem_append, List.forall_mem_cons] at ht
    obtain ⟨ha, hd⟩ := iha ht.2.2.2.2
    exact ⟨⟨ihc ht.2.2.1, ha, hd, trivial⟩, rfl⟩
  | ifElse _ _ _ _ _ _ _ _ ihc iha ihb =>
    simp only [List.forall_mem_append, List.forall_mem_cons] at ht
    obtain ⟨-, -, h₁, -, h₂, -, h₃⟩ := ht
    obtain ⟨ha, hd⟩ := iha h₂
    exact ⟨⟨ihc h₁, ha, hd, ihb h₃⟩, rfl⟩
  | «class» _ hn _ _ _ ih =>
    simp only [List.forall_mem_append, List.forall_mem_cons] at ht
    exact ⟨⟨ht.2.1, hn⟩, ih ht.2.2.2.1⟩
  | statementDeclaration _ ih => exact (ih ht).1

end ScopedScript

import ScopedScript.Proofs.Grammar
import ScopedScript.Proofs.Grammar.Tokens

/-!
# How phrases begin and what extends them

The readers decide by the next token what to read and whether to go on.  This module says
of each phrase by which tokens it can begin, and which tokens would extend it if they came
right after it.

## Main definitions

* `StartsWith kinds tokens`: the first token is of one of the kinds, and the tokens do not
  begin like a declared function.
* `Phrase.Starts`: how the tokens of a phrase begin.
* `Tier.followers`, `ternaryFollowers`, `assignmentFollowers`, `expressionFollowers`: the
  tokens that extend an expression.

## Main results

* `Derives.starts`: the tokens of a phrase begin as they should.
-/

namespace ScopedScript

/-! ## Beginnings -/

/-- The kinds that a primary expression begins with. -/
def primaryStarts : List TokenKind :=
  [.false, .true, .nil, .number, .string, .this, .identifier, .leftParen, .fun]

/-- The kinds that an expression begins with. -/
def expressionStarts : List TokenKind := .bang :: .minus :: primaryStarts

/-- The kinds that a statement begins with. -/
def statementStarts : List TokenKind :=
  .print :: .return :: .leftBrace :: .while :: .for :: .if :: expressionStarts

/-- The kinds that a declaration begins with. -/
def declarationStarts : List TokenKind := .class :: .var :: statementStarts

/-- The first token is of one of the kinds, and whatever comes after the tokens, they do not
begin like a declared function. -/
structure StartsWith (kinds : List TokenKind) (tokens : List Token) : Prop where
  begins : Begins kinds tokens
  not_function : ∀ rest, Reader.startsFunction (tokens ++ rest) = false

namespace StartsWith

variable {kinds more : List TokenKind} {ts us : List Token} {t : Token}

theorem length_pos (h : StartsWith kinds ts) : 0 < ts.length :=
  h.begins.length_pos

theorem mono (h : StartsWith kinds ts) (hk : kinds ⊆ more) : StartsWith more ts :=
  ⟨h.begins.mono hk, h.not_function⟩

theorem append (h : StartsWith kinds ts) (us : List Token) : StartsWith kinds (ts ++ us) := by
  refine ⟨h.begins.append us, fun rest => ?_⟩
  rw [List.append_assoc]
  exact h.not_function _

theorem cons (hk : t.kind ∈ kinds) (hf : t.kind ≠ .fun) (us : List Token) :
    StartsWith kinds (t :: us) := by
  refine ⟨hk, fun rest => ?_⟩
  cases hu : us ++ rest with
  | nil => simp [hu, Reader.startsFunction]
  | cons u vs => simp [hu, Reader.startsFunction, hf]

end StartsWith

/-- A kind of which no phrase begins does not stand first. -/
theorem not_begins_of_begins {kinds other : List TokenKind} {ts : List Token}
    (h : Begins kinds ts) (hd : ∀ k ∈ kinds, k ∉ other) : ¬ Begins other ts := by
  cases ts with
  | nil => exact fun h => h
  | cons t us => exact hd _ h

theorem kind_mem_of_eq {kinds : List TokenKind} {kind : TokenKind} {t : Token}
    (h : t.kind = kind) (hk : kind ∈ kinds) : t.kind ∈ kinds := by
  rwa [h]

theorem not_begins_of_kind {kinds : List TokenKind} {kind : TokenKind} {t : Token}
    (h : t.kind = kind) (hk : kind ∉ kinds) (us : List Token) : ¬ Begins kinds (t :: us) := by
  rw [begins_cons, h]
  exact hk

/-- **How the tokens of a phrase begin.** -/
def Phrase.Starts : Phrase → List Token → Prop
  | expression _, ts | items _, ts | assignment _, ts | ternary _, ts | tier _ _, ts
  | unary _, ts => StartsWith expressionStarts ts
  | call _, ts | primary _, ts => StartsWith primaryStarts ts
  | arguments _, ts => ts = [] ∨ StartsWith expressionStarts ts
  | optional none, ts => ts = []
  | optional (some _), ts => StartsWith expressionStarts ts
  | «variable» _, ts | function _, ts => Begins [.identifier] ts
  | initializer _, ts => Begins (.semicolon :: .var :: expressionStarts) ts
  | functions _, ts => ts = [] ∨ Begins [.identifier] ts
  | statement _ _, ts => StartsWith statementStarts ts
  | declaration _ _, ts => Begins declarationStarts ts
  | declarations _, ts => ts = [] ∨ Begins declarationStarts ts

theorem Tier.starts_operand (level : Tier) (e : Expr) (ts : List Token) :
    (level.operand e).Starts ts = StartsWith expressionStarts ts := by
  cases level <;> rfl

theorem primaryStarts_subset : primaryStarts ⊆ expressionStarts := by decide

theorem expressionStarts_subset : expressionStarts ⊆ statementStarts := by decide

theorem statementStarts_subset : statementStarts ⊆ declarationStarts := by decide

/-- A token that is a phrase by itself. -/
theorem StartsWith.singleton {kinds : List TokenKind} {kind : TokenKind} {t : Token}
    (h : t.kind = kind) (hk : kind ∈ kinds) (hf : kind ≠ .fun) : StartsWith kinds [t] :=
  .cons (h ▸ hk) (h ▸ hf) []

/-- A function without a name does not begin like a declared one. -/
theorem StartsWith.lambda {keyword left : Token} (hk : keyword.kind = .fun)
    (hl : left.kind = .leftParen) (us : List Token) :
    StartsWith primaryStarts (keyword :: left :: us) := by
  refine ⟨?_, fun rest => ?_⟩
  · rw [begins_cons, hk]
    decide
  · simp [Reader.startsFunction, hl]

/-- **The tokens of a phrase begin as they should.** -/
theorem Derives.starts {nearest : Bool} {p : Phrase} {ts : List Token}
    (h : Derives nearest p ts) : p.Starts ts := by
  induction h with
  | single _ ih | sequence _ ih | lastItem _ ih | noAssignment _ ih | noConditional _ ih
  | noCall _ ih | present _ ih => exact ih
  | moreItems _ _ _ ih _ | conditional _ _ _ _ _ ih _ _ => exact ih.append _
  | operand _ ih => rwa [Tier.starts_operand] at ih
  | operator _ _ _ ih _ => exact ih.append _
  | application _ _ _ _ _ ih _ | property _ _ _ ih => exact ih.append _
  | assignProperty _ _ _ _ _ ih _ => exact (ih.append _).mono primaryStarts_subset
  | noUnary _ ih => exact ih.mono primaryStarts_subset
  | assignVariable hn _ _ _ =>
    exact .cons (hn ▸ by decide) (hn ▸ by decide) _
  | unaryOperator ho _ _ =>
    refine .cons ?_ ?_ _
    · exact (by decide : [TokenKind.bang, .minus] ⊆ expressionStarts) ho
    · rintro hf
      simp [hf] at ho
  | noArguments => exact .inl rfl
  | someArguments _ ih => exact .inr ih
  | falseLiteral h | trueLiteral h | nilLiteral h | this h | name h =>
    exact .singleton h (by decide) (by decide)
  | literal h =>
    refine .cons ((by decide : [TokenKind.number, .string] ⊆ primaryStarts) h) ?_ _
    rintro hf
    simp [hf] at h
  | group hl _ _ _ => exact .cons (hl ▸ by decide) (hl ▸ by decide) _
  | lambda hk hl _ _ _ _ _ _ => exact .lambda hk hl _
  | absent => rfl
  | plainVariable hn _ | initializedVariable hn _ _ _ _ | function hn _ _ _ _ _ _ _ =>
    exact kind_mem_of_eq hn (by decide)
  | noInitializer hk | variableInitializer hk _ _ => exact kind_mem_of_eq hk (by decide)
  | expressionInitializer _ _ ih =>
    exact (ih.append _).begins.mono (by decide)
  | noFunctions | noDeclarations => exact .inl rfl
  | moreFunctions _ _ ih _ | moreDeclarations _ _ ih _ => exact .inr (ih.append _)
  | expressionStatement _ _ ih => exact (ih.append _).mono expressionStarts_subset
  | print hk _ _ _ | «return» hk _ _ _ | block hk _ _ _ | «while» hk _ _ _ _ _ _
  | «for» hk _ _ _ _ _ _ _ _ _ _ _ | ifOnly hk _ _ _ _ _ _ | ifElse hk _ _ _ _ _ _ _ _ _ _ =>
    exact .cons (hk ▸ by decide) (hk ▸ by decide) _
  | «class» hk _ _ _ _ _ | functionDeclaration hk _ _ | variableDeclaration hk _ _ =>
    exact kind_mem_of_eq hk (by decide)
  | statementDeclaration _ ih => exact ih.begins.mono statementStarts_subset

end ScopedScript

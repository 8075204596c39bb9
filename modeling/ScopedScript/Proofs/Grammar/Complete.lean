import ScopedScript.Proofs.Grammar.Sound
import ScopedScript.Proofs.Grammar.Starts

/-!
# What is derived is read

On tokens that derive a phrase, the reader of that phrase makes its tree and leaves what
comes after, unless the next token would extend the phrase.  Reading spends one step of the
bound on nesting per reader, so the bound is stated in tokens: eight steps a token are more
than enough, as the last summand says for each reader.

Calls and operators group to the left, so their derivations nest where the readers loop.
What is said of them is therefore what the loop does from the innermost derivation on: the
first operand is read, and from there the loop gets to the whole phrase.

## Main definitions

* `Tier.followers`, `ternaryFollowers`, `assignmentFollowers`, `expressionFollowers`: the
  tokens that would extend an expression.
* `Phrase.IsRead p tokens`: the reader of the phrase makes its tree.

## Main results

* `Derives.isRead`: a phrase of the grammar is read, where each `else` belongs to the nearest
  `if`.
* `readExpression_complete`, `readProgram_complete`: and so are whole inputs.
-/

namespace ScopedScript

/-! ## What extends an expression -/

open Reader

/-- The tokens that extend a call. -/
def callFollowers : List TokenKind := [.leftParen, .dot]

namespace Tier

/-- The tokens that extend operands joined by a level's operators. -/
def followers (level : Tier) : List TokenKind :=
  (levelsFrom level).flatMap Level.kinds ++ callFollowers

/-- The tokens that extend an operand of a level. -/
def operandFollowers (level : Tier) : List TokenKind :=
  (levelsBelow level).flatMap Level.kinds ++ callFollowers

/-- What extends operands joined by a level's operators is such an operator, or extends an operand.
-/
theorem followers_eq (level : Tier) :
    level.followers = level.operators ++ level.operandFollowers := by
  rw [followers, levelsFrom_eq]
  simp [operandFollowers, levelOf]

/-- An operator of a level does not extend an operand of it. -/
theorem not_mem_operandFollowers (level : Tier) :
    ∀ kind ∈ level.operators, kind ∉ level.operandFollowers := by
  cases level <;> decide

end Tier

/-- The tokens that extend a conditional expression. -/
def ternaryFollowers : List TokenKind := .question :: Tier.or.followers

/-- The tokens that extend an assignment. -/
def assignmentFollowers : List TokenKind := .equal :: ternaryFollowers

/-- The tokens that extend an expression. -/
def expressionFollowers : List TokenKind := .comma :: assignmentFollowers

/-- The tokens that extend a statement. -/
def statementFollowers (dangling : Bool) : List TokenKind := if dangling then [.else] else []

/-! ## Being read -/

/-- The reader makes the tree from the tokens, whatever comes after them, if that does not
begin with one of `followers`. -/
def Reader.Makes {α : Type} (reader : Reader α) (followers : List TokenKind) (tree : α)
    (ts : List Token) : Prop :=
  ∀ ⦃rest : List Token⦄, ¬ Begins followers rest → reader (ts ++ rest) = .ok tree rest

/-- The items up to a closing brace are read, whatever comes after it. -/
def Reader.MakesAll {α : Type} (item : Reader α) (trees : List α) (ts : List Token) : Prop :=
  ∀ ⦃closing : Token⦄, closing.kind = .rightBrace → ∀ ⦃bound : Nat⦄ ⦃rest : List Token⦄,
    (ts ++ closing :: rest).length ≤ bound →
    untilBrace item bound (ts ++ closing :: rest) = .ok trees (closing :: rest)

/-- **The reader of a phrase makes its tree**, with a bound on nesting that grows with the
tokens. -/
def Phrase.IsRead : Phrase → List Token → Prop
  | expression e, ts => ∀ ⦃depth⦄, 8 * ts.length ≤ depth + 2 →
      (expressionOf (Reader.assignment depth)).Makes expressionFollowers e ts
  | items es, ts => ∀ ⦃depth rest⦄, 8 * ts.length ≤ depth + 2 →
      ¬ Begins expressionFollowers rest →
      ∃ head tail mid, es = head :: tail ∧
        Reader.assignment depth (ts ++ rest) = .ok head mid ∧
        ∀ ⦃bound⦄, mid.length ≤ bound →
          commaTail (Reader.assignment depth) bound mid = .ok tail rest
  | assignment e, ts => ∀ ⦃depth⦄, 8 * ts.length ≤ depth + 2 →
      (Reader.assignment depth).Makes assignmentFollowers e ts
  | ternary e, ts => ∀ ⦃depth⦄, 8 * ts.length ≤ depth + 3 →
      (Reader.ternary depth).Makes ternaryFollowers e ts
  | tier level e, ts => ∀ ⦃depth rest⦄, 8 * ts.length ≤ depth + 4 →
      ¬ Begins level.operandFollowers rest →
      ∃ first mid,
        operators (Reader.unary depth) (levelsBelow level) (ts ++ rest) = .ok first mid ∧
        ∀ ⦃bound⦄, mid.length ≤ bound → ∃ bound', rest.length ≤ bound' ∧
          operatorChain (levelOf level) (operators (Reader.unary depth) (levelsBelow level))
              bound first mid =
            operatorChain (levelOf level) (operators (Reader.unary depth) (levelsBelow level))
              bound' e rest
  | unary e, ts => ∀ ⦃depth⦄, 8 * ts.length ≤ depth + 4 →
      (Reader.unary depth).Makes callFollowers e ts
  | call e, ts => ∀ ⦃depth⦄ (rest), 8 * ts.length ≤ depth + 5 →
      ∃ first mid, Reader.primary depth (ts ++ rest) = .ok first mid ∧
        ∀ ⦃bound⦄, mid.length ≤ bound → ∃ bound', rest.length ≤ bound' ∧
          applications (Reader.assignment depth) bound first mid =
            applications (Reader.assignment depth) bound' e rest
  | arguments es, ts => ∀ ⦃depth⦄, 8 * ts.length ≤ depth + 2 → es.length ≤ maxArity →
      ∀ ⦃right : Token⦄, right.kind = .rightParen →
        (Reader.arguments (Reader.assignment depth)).Makes [] (right, es) (ts ++ [right])
  | primary e, ts => ∀ ⦃depth⦄, 8 * ts.length ≤ depth + 5 → (Reader.primary depth).Makes [] e ts
  | optional none, ts => ts = []
  | optional (some e), ts => ∀ ⦃depth⦄, 8 * ts.length ≤ depth + 2 →
      (expressionOf (Reader.assignment depth)).Makes expressionFollowers e ts
  | «variable» s, ts => ∀ ⦃depth⦄, 8 * ts.length ≤ depth + 2 →
      (varDeclaration (expressionOf (Reader.assignment depth))).Makes [] s ts
  | initializer s, ts => ∀ ⦃depth⦄, 8 * ts.length ≤ depth + 2 →
      (forInitializer (expressionOf (Reader.assignment depth))).Makes [] s ts
  | function f, ts => ∀ ⦃depth⦄, 8 * ts.length ≤ depth → ∀ kind,
      (Reader.function (Reader.declaration depth) kind).Makes [] f ts
  | functions fs, ts => ∀ ⦃depth⦄, 8 * ts.length ≤ depth →
      (Reader.function (Reader.declaration depth) .method).MakesAll fs ts
  | statement dangling s, ts => ∀ ⦃depth⦄, 8 * ts.length ≤ depth + 1 →
      (Reader.statement depth).Makes (statementFollowers dangling) s ts
  | declaration dangling s, ts => ∀ ⦃depth⦄, 8 * ts.length ≤ depth →
      (Reader.declaration depth).Makes (statementFollowers dangling) s ts
  | declarations ss, ts => ∀ ⦃depth⦄, 8 * ts.length ≤ depth →
      (Reader.declaration depth).MakesAll ss ts

/-! ## Tokens that are there -/

@[simp]
theorem not_begins_empty (ts : List Token) : ¬ Begins [] ts := by
  cases ts <;> simp

/-- What begins with none of some tokens begins with none of fewer. -/
theorem not_begins_of_subset {kinds more : List TokenKind} {ts : List Token}
    (h : ¬ Begins more ts) (hk : kinds ⊆ more) : ¬ Begins kinds ts :=
  fun hb => h (hb.mono hk)

namespace Reader

variable {kind : TokenKind} {kinds : List TokenKind} {t : Token} {ts rest : List Token}

theorem expect_cons {what : Expectation} (h : t.kind = kind) (hk : kind ≠ .eof) :
    expect kind what (t :: rest) = .ok t rest :=
  (expect_eq_ok_iff hk).2 ⟨rfl, h⟩

theorem accept_cons (h : t.kind = kind) (hk : kind ≠ .eof) :
    accept kind (t :: rest) = .ok true rest :=
  (accept_eq_true_iff hk).2 ⟨t, rfl, h⟩

/-- A token that does not come next is not accepted, and nothing is taken. -/
theorem accept_of_not_begins (h : ¬ Begins [kind] ts) (hk : kind ≠ .eof) :
    accept kind ts = .ok false ts :=
  (accept_eq_false_iff hk).2 ⟨rfl, h⟩

theorem nextIs_cons (h : t.kind = kind) (hk : kind ≠ .eof) :
    nextIs kind (t :: rest) = .ok true (t :: rest) :=
  (nextIs_eq_ok_iff hk).2 ⟨by simp [h], rfl⟩

theorem nextIs_of_not_begins (h : ¬ Begins [kind] ts) (hk : kind ≠ .eof) :
    nextIs kind ts = .ok false ts :=
  (nextIs_eq_ok_iff hk).2 ⟨by simp [h], rfl⟩

theorem peek?_cons (h : t.kind ≠ .eof) : peek? (t :: rest) = .ok (some t) (t :: rest) := by
  simp [peek?, atEnd, h]

theorem skip_cons : skip (t :: rest) = .ok () rest := rfl

/-- An assignment takes tokens off the front, so it does not lengthen the input. -/
theorem length_assignment_le {depth : Nat} {e : Expr}
    (h : assignment depth ts = .ok e rest) : rest.length ≤ ts.length := by
  obtain ⟨used, rfl, -⟩ := (sound depth).assignment h
  simp

end Reader

namespace Phrase.IsRead

variable {nearest : Bool} {ts us : List Token}

/-! ## Expressions -/

/-- A list of items is read up to where no comma comes next. -/
theorem commaList {es : List Expr} (h : (items es).IsRead ts) {depth : Nat}
    (hd : 8 * ts.length ≤ depth + 2) :
    (Reader.commaList (Reader.assignment depth)).Makes expressionFollowers es ts := by
  intro rest hr
  obtain ⟨head, tail, mid, rfl, hh, ht⟩ := h hd hr
  rw [Reader.commaList, bind_of_ok hh, bind_of_ok (get_eq_ok_iff.2 ⟨rfl, rfl⟩),
    bind_of_ok (ht (Nat.le_refl _))]
  rfl

theorem single {e : Expr} (h : (items [e]).IsRead ts) : (expression e).IsRead ts :=
  fun _ hd _ hr => map_eq_ok_iff.2 ⟨[e], h.commaList hd hr, rfl⟩

theorem sequence {e e' : Expr} {es : List Expr} (h : (items (e :: e' :: es)).IsRead ts) :
    (expression (.sequence (e :: e' :: es))).IsRead ts :=
  fun _ hd _ hr => map_eq_ok_iff.2 ⟨e :: e' :: es, h.commaList hd hr, rfl⟩

/-- A single item is a list: the loop for the others finds no comma. -/
theorem lastItem {e : Expr} (h : (assignment e).IsRead ts) : (items [e]).IsRead ts := by
  intro depth rest hd hr
  have ha : ¬ Begins assignmentFollowers rest := not_begins_of_subset hr (by decide)
  refine ⟨e, [], rest, rfl, h hd ha, fun bound _ => ?_⟩
  cases bound with
  | zero => rfl
  | succ bound =>
    rw [commaTail, bind_of_ok
      (accept_of_not_begins (not_begins_of_subset hr (by decide)) (by decide))]
    rfl

/-- An item, a comma and more items are a list. -/
theorem moreItems {e : Expr} {es : List Expr} {comma : Token} (h : (assignment e).IsRead ts)
    (hc : comma.kind = .comma) (hs : (items es).IsRead us) :
    (items (e :: es)).IsRead (ts ++ comma :: us) := by
  intro depth rest hd hr
  simp only [List.length_append, List.length_cons] at hd
  obtain ⟨head, tail, mid, rfl, hh, ht⟩ := @hs depth rest (by omega) hr
  -- the first item ends at the comma, so the rest is what the loop after it sees
  refine ⟨e, head :: tail, comma :: (us ++ rest), rfl, ?_, fun bound hb => ?_⟩
  · rw [List.append_assoc, List.cons_append]
    exact h (by omega) (not_begins_of_kind hc (by decide) _)
  · obtain ⟨bound, rfl⟩ := Nat.exists_eq_succ_of_ne_zero (n := bound) (by simp at hb; omega)
    have hm := length_assignment_le hh
    simp only [List.length_cons] at hb
    rw [commaTail, bind_of_ok (accept_cons hc (by decide)), if_pos rfl, bind_of_ok hh,
      bind_of_ok (ht (by omega))]
    rfl

/-- An assignment to a variable.  Its target is read as an expression first. -/
theorem assignVariable {name equal : Token} {value : Expr}
    (ht : (ternary (.variable name none)).IsRead [name]) (he : equal.kind = .equal)
    (h : (assignment value).IsRead ts) :
    (assignment (.assign name value none)).IsRead (name :: equal :: ts) := by
  intro depth hd rest hr
  simp only [List.length_cons] at hd
  obtain ⟨depth, rfl⟩ := Nat.exists_eq_succ_of_ne_zero (n := depth) (by omega)
  -- the target is read as an expression first, and only the `=` after it tells
  have hv : Reader.ternary depth (name :: (equal :: (ts ++ rest))) = _ :=
    ht (by simp; omega) (not_begins_of_kind he (by decide) _)
  rw [Reader.assignment, List.cons_append, List.cons_append, bind_of_ok hv,
    bind_of_ok (get_eq_ok_iff.2 ⟨rfl, rfl⟩), bind_of_ok (accept_cons he (by decide)), if_pos rfl,
    bind_of_ok (h (by omega) hr)]
  rfl

/-- An assignment to a property.  Its target is read as an expression first. -/
theorem assignProperty {object value : Expr} {name equal : Token}
    (ht : (ternary (.get object name)).IsRead ts) (he : equal.kind = .equal)
    (h : (assignment value).IsRead us) :
    (assignment (.set object name value)).IsRead (ts ++ equal :: us) := by
  intro depth hd rest hr
  simp only [List.length_append, List.length_cons] at hd
  obtain ⟨depth, rfl⟩ := Nat.exists_eq_succ_of_ne_zero (n := depth) (by omega)
  rw [Reader.assignment, List.append_assoc, List.cons_append,
    bind_of_ok (ht (by omega) (not_begins_of_kind he (by decide) _)),
    bind_of_ok (get_eq_ok_iff.2 ⟨rfl, rfl⟩), bind_of_ok (accept_cons he (by decide)), if_pos rfl,
    bind_of_ok (h (by omega) hr)]
  rfl

/-- What is followed by no equals sign is not assigned to. -/
theorem noAssignment {e : Expr} (hp : 0 < ts.length) (h : (ternary e).IsRead ts) :
    (assignment e).IsRead ts := by
  intro depth hd rest hr
  obtain ⟨depth, rfl⟩ := Nat.exists_eq_succ_of_ne_zero (n := depth) (by omega)
  rw [Reader.assignment,
    bind_of_ok (h (by omega) (not_begins_of_subset hr (by decide))),
    bind_of_ok (get_eq_ok_iff.2 ⟨rfl, rfl⟩),
    bind_of_ok (accept_of_not_begins (not_begins_of_subset hr (by decide)) (by decide))]
  rfl

/-- Operands joined by the operators of a level, as one reader. -/
theorem tier_makes {level : Tier} {e : Expr} (h : (tier level e).IsRead ts) {depth : Nat}
    (hd : 8 * ts.length ≤ depth + 4) :
    (operators (Reader.unary depth) (levelsFrom level)).Makes level.followers e ts := by
  intro rest hr
  rw [Tier.followers_eq] at hr
  have ho : ¬ Begins level.operandFollowers rest := not_begins_of_subset hr (by simp)
  have hl : ¬ Begins level.operators rest := not_begins_of_subset hr (by simp)
  obtain ⟨first, mid, hf, hc⟩ := h hd ho
  obtain ⟨bound, -, hb⟩ := hc (Nat.le_refl _)
  rw [levelsFrom_eq, operators, bind_of_ok hf, bind_of_ok (get_eq_ok_iff.2 ⟨rfl, rfl⟩), hb]
  -- at the whole phrase the loop stops: no operator of the level comes next
  cases bound with
  | zero => rfl
  | succ bound =>
    have hn : acceptAny? (levelOf level).kinds rest = .ok none rest :=
      (acceptAny?_eq_none_iff (eof_not_mem_operators level)).2 ⟨rfl, hl⟩
    rw [operatorChain, bind_of_ok hn]
    rfl

/-- The outermost level of operators is read up to where nothing extends it. -/
theorem or_makes {e : Expr} (h : (tier .or e).IsRead ts) {depth : Nat}
    (hd : 8 * ts.length ≤ depth + 4) :
    (operators (Reader.unary depth) levels).Makes Tier.or.followers e ts :=
  h.tier_makes hd

/-- An operand of a level, by the readers of the tighter levels. -/
theorem operand_makes {level : Tier} {e : Expr} (h : (level.operand e).IsRead ts) {depth : Nat}
    (hd : 8 * ts.length ≤ depth + 4) :
    (operators (Reader.unary depth) (levelsBelow level)).Makes level.operandFollowers e ts := by
  cases level with
  | factor => exact h hd
  | or | and | equality | comparison | term => exact tier_makes h hd

/-- An operand by itself is a phrase of the level: the loop has taken no round yet. -/
theorem operand {level : Tier} {e : Expr} (h : (level.operand e).IsRead ts) :
    (tier level e).IsRead ts :=
  fun _ rest hd hr => ⟨e, rest, h.operand_makes hd hr, fun bound hb => ⟨bound, hb, rfl⟩⟩

/-- One more operator and operand: the loop takes one more round. -/
theorem operator {level : Tier} {left right : Expr} {op : Token}
    (hl : (tier level left).IsRead ts) (ho : op.kind ∈ level.operators)
    (hr : (level.operand right).IsRead us) :
    (tier level (level.join left op right)).IsRead (ts ++ op :: us) := by
  intro depth rest hd hb
  simp only [List.length_append, List.length_cons] at hd
  -- the operands to the left are read up to the operator, which extends none of them
  obtain ⟨first, mid, hf, hc⟩ := @hl depth (op :: (us ++ rest)) (by omega)
    (level.not_mem_operandFollowers _ ho)
  refine ⟨first, mid, by rwa [List.append_assoc], fun bound hm => ?_⟩
  obtain ⟨bound, hb', he⟩ := hc hm
  obtain ⟨bound, rfl⟩ := Nat.exists_eq_succ_of_ne_zero (n := bound) (by simp at hb'; omega)
  refine ⟨bound, by simp at hb'; omega, ?_⟩
  have hn : acceptAny? (levelOf level).kinds (op :: (us ++ rest)) = .ok (some op) (us ++ rest) :=
    (acceptAny?_eq_some_iff (eof_not_mem_operators level)).2 ⟨rfl, ho⟩
  rw [he, operatorChain, bind_of_ok hn]
  exact bind_of_ok (hr.operand_makes (by omega) hb)

/-- A condition with both of its results. -/
theorem conditional {c a b : Expr} {question colon : Token} {vs : List Token}
    (hc : (tier .or c).IsRead ts) (hq : question.kind = .question)
    (ha : (ternary a).IsRead us) (hk : colon.kind = .colon) (hb : (ternary b).IsRead vs) :
    (ternary (.conditional c a b)).IsRead (ts ++ question :: (us ++ colon :: vs)) := by
  intro depth hd rest hr
  simp only [List.length_append, List.length_cons] at hd
  obtain ⟨depth, rfl⟩ := Nat.exists_eq_succ_of_ne_zero (n := depth) (by omega)
  simp only [List.append_assoc, List.cons_append]
  rw [Reader.ternary,
    bind_of_ok (hc.or_makes (by omega) (not_begins_of_kind hq (by decide) _)),
    bind_of_ok (accept_cons hq (by decide)), if_pos rfl,
    bind_of_ok (ha (by omega) (not_begins_of_kind hk (by decide) _)),
    bind_of_ok (expect_cons hk (by decide)), bind_of_ok (hb (by omega) hr)]
  rfl

/-- What is followed by no question mark is not a condition. -/
theorem noConditional {e : Expr} (hp : 0 < ts.length) (h : (tier .or e).IsRead ts) :
    (ternary e).IsRead ts := by
  intro depth hd rest hr
  obtain ⟨depth, rfl⟩ := Nat.exists_eq_succ_of_ne_zero (n := depth) (by omega)
  rw [Reader.ternary,
    bind_of_ok (h.or_makes (by omega) (not_begins_of_subset hr (by decide))),
    bind_of_ok (accept_of_not_begins (not_begins_of_subset hr (by decide)) (by decide))]
  rfl

/-- An operand behind a prefix operator. -/
theorem unaryOperator {op : Token} {e : Expr} (ho : op.kind ∈ [TokenKind.bang, .minus])
    (h : (unary e).IsRead ts) : (unary (.unary op e)).IsRead (op :: ts) := by
  intro depth hd rest hr
  simp only [List.length_cons] at hd
  obtain ⟨depth, rfl⟩ := Nat.exists_eq_succ_of_ne_zero (n := depth) (by omega)
  rw [Reader.unary, List.cons_append,
    bind_of_ok ((acceptAny?_eq_some_iff (by decide)).2 ⟨rfl, ho⟩)]
  exact bind_of_ok (h (by omega) hr)

/-- A call is read where no prefix operator comes: it begins with a primary expression, and neither
a parenthesis nor a dot comes after it. -/
theorem noUnary {e : Expr} (hs : StartsWith primaryStarts ts) (h : (call e).IsRead ts) :
    (unary e).IsRead ts := by
  intro depth hd rest hr
  have hp := hs.length_pos
  obtain ⟨depth, rfl⟩ := Nat.exists_eq_succ_of_ne_zero (n := depth) (by omega)
  -- the innermost call is read first, and the loop gets from it to the whole call
  obtain ⟨first, mid, hf, hc⟩ := @h depth rest (by omega)
  obtain ⟨bound, -, hb⟩ := hc (Nat.le_refl _)
  have hn : ¬ Begins [.bang, .minus] (ts ++ rest) :=
    not_begins_of_begins (hs.begins.append rest) (by decide)
  rw [Reader.unary, bind_of_ok ((acceptAny?_eq_none_iff (by decide)).2 ⟨rfl, hn⟩)]
  dsimp only
  rw [bind_of_ok hf, bind_of_ok (get_eq_ok_iff.2 ⟨rfl, rfl⟩), hb]
  cases bound with
  | zero => rfl
  | succ bound =>
    rw [applications,
      bind_of_ok (accept_of_not_begins (not_begins_of_subset hr (by decide)) (by decide)),
      if_neg Bool.false_ne_true,
      bind_of_ok (accept_of_not_begins (not_begins_of_subset hr (by decide)) (by decide))]
    rfl

theorem noCall {e : Expr} (h : (primary e).IsRead ts) : (call e).IsRead ts :=
  fun _ rest hd => ⟨e, rest, h hd (not_begins_empty rest), fun bound hb => ⟨bound, hb, rfl⟩⟩

/-- A callee with arguments: the loop takes one more round. -/
theorem application {callee : Expr} {args : List Expr} {left right : Token}
    (hc : (call callee).IsRead ts) (hl : left.kind = .leftParen)
    (ha : (arguments args).IsRead us) (hm : args.length ≤ maxArity)
    (hr : right.kind = .rightParen) :
    (call (.call callee right args)).IsRead (ts ++ left :: (us ++ [right])) := by
  intro depth rest hd
  simp only [List.length_append, List.length_cons, List.length_nil] at hd
  obtain ⟨first, mid, hf, he⟩ := @hc depth (left :: ((us ++ [right]) ++ rest)) (by omega)
  refine ⟨first, mid, by rwa [List.append_assoc], fun bound hb => ?_⟩
  obtain ⟨bound, hb', he⟩ := he hb
  obtain ⟨bound, rfl⟩ := Nat.exists_eq_succ_of_ne_zero (n := bound) (by simp at hb'; omega)
  refine ⟨bound, by simp at hb'; omega, ?_⟩
  rw [he, applications, bind_of_ok (accept_cons hl (by decide)), if_pos rfl]
  exact bind_of_ok (ha (by omega) hm hr (not_begins_empty rest))

/-- A property of an object: the loop takes one more round. -/
theorem property {object : Expr} {dot name : Token} (ho : (call object).IsRead ts)
    (hd : dot.kind = .dot) (hn : name.kind = .identifier) :
    (call (.get object name)).IsRead (ts ++ [dot, name]) := by
  intro depth rest hl
  simp only [List.length_append, List.length_cons, List.length_nil] at hl
  obtain ⟨first, mid, hf, he⟩ := @ho depth (dot :: name :: rest) (by omega)
  refine ⟨first, mid, by rwa [List.append_assoc], fun bound hb => ?_⟩
  obtain ⟨bound, hb', he⟩ := he hb
  obtain ⟨bound, rfl⟩ := Nat.exists_eq_succ_of_ne_zero (n := bound) (by simp at hb'; omega)
  refine ⟨bound, by simp at hb'; omega, ?_⟩
  have hp : ¬ Begins [.leftParen] (dot :: name :: rest) := not_begins_of_kind hd (by decide) _
  rw [he, applications, bind_of_ok (accept_of_not_begins hp (by decide)), if_neg Bool.false_ne_true,
    bind_of_ok (accept_cons hd (by decide)), if_pos rfl]
  exact bind_of_ok (expect_cons hn (by decide))

/-- The empty list of arguments ends at once. -/
theorem noArguments : (arguments []).IsRead [] := by
  intro depth _ _ right hr rest _
  rw [Reader.arguments, List.nil_append, List.cons_append, List.nil_append,
    bind_of_ok (nextIs_cons hr (by decide)), if_pos rfl]
  simp only [pure_bind]
  rw [bind_of_ok (get_eq_ok_iff.2 ⟨rfl, rfl⟩), bind_of_ok (expect_cons hr (by decide)),
    if_neg (by simp)]
  rfl

/-- Arguments are read as a list of items.  The first one begins with no closing parenthesis, so the
list is not taken for an empty one. -/
theorem someArguments {es : List Expr} (hs : StartsWith expressionStarts ts)
    (h : (items es).IsRead ts) : (arguments es).IsRead ts := by
  intro depth hd hm right hr rest _
  -- an argument begins with no closing parenthesis, so the list is not taken for an empty one
  have hn : ¬ Begins [.rightParen] (ts ++ (right :: rest)) :=
    not_begins_of_begins (hs.begins.append _) (by decide)
  rw [Reader.arguments, List.append_assoc, List.cons_append, List.nil_append,
    bind_of_ok (nextIs_of_not_begins hn (by decide)), if_neg Bool.false_ne_true,
    bind_of_ok (h.commaList hd (not_begins_of_kind hr (by decide) _))]
  dsimp only
  rw [bind_of_ok (get_eq_ok_iff.2 ⟨rfl, rfl⟩), bind_of_ok (expect_cons hr (by decide)),
    if_neg (by omega)]
  rfl

/-! ## Primary expressions -/

/-- A token that is a primary expression by itself. -/
theorem token {t : Token} {e : Expr}
    (h : ∀ depth rest, Reader.primary (depth + 1) (t :: rest) = .ok e rest) :
    (primary e).IsRead [t] := by
  intro depth hd rest _
  simp only [List.length_cons] at hd
  obtain ⟨depth, rfl⟩ := Nat.exists_eq_succ_of_ne_zero (n := depth) (by omega)
  exact h depth rest

theorem name {t : Token} (h : t.kind = .identifier) :
    (primary (.variable t none)).IsRead [t] := by
  refine token fun depth rest => ?_
  rw [Reader.primary, bind_of_ok (peek?_cons (by simp [h]))]
  simp only [h]
  rfl

theorem literal {t : Token} (h : t.kind ∈ [TokenKind.number, .string]) :
    (primary (.literal t.literal.value)).IsRead [t] := by
  refine token fun depth rest => ?_
  rw [Reader.primary, bind_of_ok (peek?_cons (by rintro hk; simp [hk] at h))]
  simp only [List.mem_cons, List.not_mem_nil, or_false] at h
  rcases h with h | h <;> simp only [h] <;> rfl

/-- An expression in parentheses. -/
theorem group {e : Expr} {left right : Token} (hl : left.kind = .leftParen)
    (h : (expression e).IsRead ts) (hr : right.kind = .rightParen) :
    (primary (.group e)).IsRead (left :: (ts ++ [right])) := by
  intro depth hd rest _
  simp only [List.length_append, List.length_cons, List.length_nil] at hd
  obtain ⟨depth, rfl⟩ := Nat.exists_eq_succ_of_ne_zero (n := depth) (by omega)
  rw [Reader.primary, List.cons_append, bind_of_ok (peek?_cons (by simp [hl]))]
  simp only [hl, List.append_assoc, List.cons_append, List.nil_append]
  rw [bind_of_ok skip_cons, bind_of_ok (h (by omega) (not_begins_of_kind hr (by decide) _)),
    bind_of_ok (expect_cons hr (by decide))]
  rfl

/-- A call is read as a conditional expression, and so as the target of an assignment. -/
theorem ternary_of_call {e : Expr} (hs : StartsWith primaryStarts ts) (h : (call e).IsRead ts) :
    (ternary e).IsRead ts :=
  noConditional hs.length_pos (operand (operand (operand (operand (operand (operand
    (noUnary hs h)))))))

end Phrase.IsRead

/-! ## Functions and classes -/

namespace Reader

variable {ts rest : List Token}

/-- Names are read as parameters as long as there is room for them. -/
theorem parameterNames_complete (owner : Owner) {names : List Token} {room : Nat}
    (h : Names names ts) (hl : names.length ≤ room) (hr : ¬ Begins [.comma] rest) :
    parameterNames owner room (ts ++ rest) = .ok names rest := by
  induction h generalizing room with
  | one hn =>
    obtain ⟨room, rfl⟩ := Nat.exists_eq_succ_of_ne_zero (n := room) (by simp at hl; omega)
    rw [parameterNames, List.cons_append, List.nil_append, bind_of_ok (expect_cons hn (by decide)),
      bind_of_ok (accept_of_not_begins hr (by decide))]
    rfl
  | more hn hc h ih =>
    obtain ⟨room, rfl⟩ := Nat.exists_eq_succ_of_ne_zero (n := room) (by simp at hl; omega)
    rw [parameterNames, List.cons_append, List.cons_append,
      bind_of_ok (expect_cons hn (by decide)), bind_of_ok (accept_cons hc (by decide)), if_pos rfl,
      bind_of_ok (ih (by simpa using hl))]
    rfl

theorem begins_names {names : List Token} (h : Names names ts) : Begins [.identifier] ts := by
  cases h with
  | one hn | more hn _ _ => simp [hn]

/-- Parameters in parentheses are read, whatever comes after them. -/
theorem parameters_complete (owner : Owner) {names : List Token} {left right : Token}
    (hl : left.kind = .leftParen) (h : Parameters names ts) (hr : right.kind = .rightParen) :
    parameters owner (left :: (ts ++ right :: rest)) = .ok names rest := by
  rw [parameters, bind_of_ok (expect_cons hl (by decide))]
  cases h with
  | none =>
    rw [List.nil_append, bind_of_ok (nextIs_cons hr (by decide)), if_pos rfl]
    simp only [pure_bind]
    rw [bind_of_ok (expect_cons hr (by decide))]
    rfl
  | some h hm =>
    have hn : ¬ Begins [.rightParen] (ts ++ right :: rest) :=
      not_begins_of_begins ((begins_names h).append _) (by decide)
    rw [bind_of_ok (nextIs_of_not_begins hn (by decide)), if_neg Bool.false_ne_true,
      bind_of_ok (parameterNames_complete owner h hm (not_begins_of_kind hr (by decide) _))]
    dsimp only
    rw [bind_of_ok (expect_cons hr (by decide))]
    rfl

variable {α : Type} {item : Reader α}

/-- Items in braces are read, whatever comes after the closing one. -/
theorem MakesAll.braced {trees : List α} (h : item.MakesAll trees ts) {closing : Token}
    (hc : closing.kind = .rightBrace) (close : Expectation) :
    braced item close (ts ++ closing :: rest) = .ok trees rest := by
  rw [Reader.braced, bind_of_ok (get_eq_ok_iff.2 ⟨rfl, rfl⟩), bind_of_ok (h hc (Nat.le_refl _)),
    bind_of_ok (expect_cons hc (by decide))]
  rfl

theorem MakesAll.nil : item.MakesAll [] [] := by
  intro closing hc bound rest hb
  cases bound with
  | zero => simp at hb
  | succ bound =>
    rw [untilBrace, List.nil_append, bind_of_ok (peek?_cons (by simp [hc])),
      if_pos (by simp [hc])]
    rfl

/-- One item more: it begins like no closing brace, and what comes after it is not taken
for a part of it. -/
theorem MakesAll.cons {kinds followers : List TokenKind} {tree : α} {trees : List α}
    {us : List Token} (hb : Begins kinds ts) (hk : ∀ kind ∈ kinds, kind ≠ .eof ∧ kind ≠ .rightBrace)
    (h : item.Makes followers tree ts)
    (hf : ∀ ⦃closing : Token⦄, closing.kind = .rightBrace → ∀ rest,
      ¬ Begins followers (us ++ closing :: rest)) (hs : item.MakesAll trees us) :
    item.MakesAll (tree :: trees) (ts ++ us) := by
  intro closing hc bound rest hl
  cases ts with
  | nil => exact hb.elim
  | cons t ts =>
    obtain ⟨he, hr⟩ := hk _ hb
    -- an item takes at least one token, so the bound on the items is not used up
    obtain ⟨bound, rfl⟩ := Nat.exists_eq_succ_of_ne_zero (n := bound) (by simp at hl; omega)
    have hi : item (t :: (ts ++ (us ++ closing :: rest))) = _ := h (hf hc rest)
    rw [List.append_assoc, List.cons_append, untilBrace, bind_of_ok (peek?_cons he),
      if_neg (by simpa using hr), bind_of_ok hi, bind_of_ok (hs hc (by simp at hl ⊢; omega))]
    rfl

end Reader

namespace Phrase.IsRead

variable {ts us : List Token}

/-- A function without a name. -/
theorem lambda {keyword left right opening closing : Token} {params ps : List Token}
    {body : List Stmt} (hk : keyword.kind = .fun) (hl : left.kind = .leftParen)
    (hp : Parameters params ps) (hr : right.kind = .rightParen)
    (ho : opening.kind = .leftBrace) (h : (declarations body).IsRead ts)
    (hc : closing.kind = .rightBrace) :
    (primary (.lambda keyword params body)).IsRead
      (keyword :: left :: (ps ++ right :: opening :: (ts ++ [closing]))) := by
  intro depth hd rest _
  simp only [List.length_append, List.length_cons, List.length_nil] at hd
  obtain ⟨depth, rfl⟩ := Nat.exists_eq_succ_of_ne_zero (n := depth) (by omega)
  rw [Reader.primary, List.cons_append, bind_of_ok (peek?_cons (by simp [hk]))]
  simp only [hk, List.append_assoc, List.cons_append, List.nil_append]
  rw [bind_of_ok skip_cons, Reader.lambda, bind_of_ok (parameters_complete _ hl hp hr),
    bind_of_ok (expect_cons ho (by decide)), blockBody,
    bind_of_ok ((@h depth (by omega)).braced hc _)]
  rfl

/-- A function with a name. -/
theorem function {name left right opening closing : Token} {params ps : List Token}
    {body : List Stmt} (hn : name.kind = .identifier) (hl : left.kind = .leftParen)
    (hp : Parameters params ps) (hr : right.kind = .rightParen)
    (ho : opening.kind = .leftBrace) (h : (declarations body).IsRead ts)
    (hc : closing.kind = .rightBrace) :
    (function (.mk name params body)).IsRead
      (name :: left :: (ps ++ right :: opening :: (ts ++ [closing]))) := by
  intro depth hd kind rest _
  simp only [List.length_append, List.length_cons, List.length_nil] at hd
  simp only [List.append_assoc, List.cons_append, List.nil_append]
  rw [Reader.function, bind_of_ok (expect_cons hn (by decide)),
    bind_of_ok (parameters_complete _ hl hp hr), bind_of_ok (expect_cons ho (by decide)), blockBody,
    bind_of_ok ((@h depth (by omega)).braced hc _)]
  rfl

/-- One more method, before the others. -/
theorem moreFunctions {f : FunctionDecl} {fs : List FunctionDecl} (hb : Begins [.identifier] ts)
    (h : (Phrase.function f).IsRead ts) (hs : (functions fs).IsRead us) :
    (functions (f :: fs)).IsRead (ts ++ us) := by
  intro depth hd
  simp only [List.length_append] at hd
  exact .cons hb (by decide) (h (by omega) .method) (fun _ _ _ => not_begins_empty _)
    (hs (by omega))

/-- A class with its methods. -/
theorem «class» {name keyword opening closing : Token} {methods : List FunctionDecl}
    (hk : keyword.kind = .class) (hn : name.kind = .identifier)
    (ho : opening.kind = .leftBrace) (h : (functions methods).IsRead ts)
    (hc : closing.kind = .rightBrace) :
    (declaration false (.class name methods)).IsRead
      (keyword :: name :: opening :: (ts ++ [closing])) := by
  intro depth hd rest _
  simp only [List.length_append, List.length_cons, List.length_nil] at hd
  obtain ⟨depth, rfl⟩ := Nat.exists_eq_succ_of_ne_zero (n := depth) (by omega)
  simp only [List.append_assoc, List.cons_append, List.nil_append]
  rw [Reader.declaration, bind_of_ok (accept_cons hk (by decide)), if_pos rfl, classDeclaration,
    bind_of_ok (expect_cons hn (by decide)), bind_of_ok (expect_cons ho (by decide)),
    bind_of_ok ((@h depth (by omega)).braced hc _)]
  rfl

/-! ## Statements -/

/-- A variable without a value. -/
theorem plainVariable {name semicolon : Token} (hn : name.kind = .identifier)
    (hs : semicolon.kind = .semicolon) :
    («variable» (.var name none)).IsRead [name, semicolon] := by
  intro depth _ rest _
  have he : ¬ Begins [.equal] (semicolon :: rest) := not_begins_of_kind hs (by decide) _
  simp only [List.cons_append, List.nil_append]
  rw [varDeclaration, bind_of_ok (expect_cons hn (by decide)),
    bind_of_ok (accept_of_not_begins he (by decide)), if_neg Bool.false_ne_true]
  simp only [pure_bind]
  rw [bind_of_ok (expect_cons hs (by decide))]
  rfl

/-- A variable with a value. -/
theorem initializedVariable {name equal semicolon : Token} {e : Expr}
    (hn : name.kind = .identifier) (he : equal.kind = .equal) (h : (expression e).IsRead ts)
    (hs : semicolon.kind = .semicolon) :
    («variable» (.var name (some e))).IsRead (name :: equal :: (ts ++ [semicolon])) := by
  intro depth hd rest _
  simp only [List.length_append, List.length_cons, List.length_nil] at hd
  simp only [List.append_assoc, List.cons_append, List.nil_append]
  have hv := map_eq_ok_iff.2 ⟨e, @h depth (by omega) (semicolon :: rest)
    (not_begins_of_kind hs (by decide) _), rfl (a := some e)⟩
  rw [varDeclaration, bind_of_ok (expect_cons hn (by decide)),
    bind_of_ok (accept_cons he (by decide)), if_pos rfl, bind_of_ok hv]
  dsimp only
  rw [bind_of_ok (expect_cons hs (by decide))]
  rfl

/-- An expression and a semicolon, as a reader. -/
theorem expressionStatement_makes {e : Expr} {semicolon : Token} (h : (expression e).IsRead ts)
    (hs : semicolon.kind = .semicolon) {depth : Nat} (hd : 8 * ts.length ≤ depth + 2) :
    (expressionStatement (expressionOf (Reader.assignment depth))).Makes [] (.expression e)
      (ts ++ [semicolon]) := by
  intro rest _
  rw [expressionStatement, List.append_assoc, List.cons_append, List.nil_append,
    bind_of_ok (h hd (not_begins_of_kind hs (by decide) _)),
    bind_of_ok (expect_cons hs (by decide))]
  rfl

theorem noInitializer {semicolon : Token} (hs : semicolon.kind = .semicolon) :
    (initializer none).IsRead [semicolon] := by
  intro depth _ rest _
  rw [forInitializer, List.cons_append, bind_of_ok (accept_cons hs (by decide))]
  rfl

/-- A loop that declares a variable first.  The declaration begins with its keyword, hence with no
semicolon. -/
theorem variableInitializer {keyword : Token} {s : Stmt} (hk : keyword.kind = .var)
    (h : («variable» s).IsRead ts) : (initializer (some s)).IsRead (keyword :: ts) := by
  intro depth hd rest hr
  simp only [List.length_cons] at hd
  have hs : ¬ Begins [.semicolon] (keyword :: (ts ++ rest)) :=
    not_begins_of_kind hk (by decide) _
  rw [forInitializer, List.cons_append, bind_of_ok (accept_of_not_begins hs (by decide)),
    if_neg Bool.false_ne_true, bind_of_ok (accept_cons hk (by decide)), if_pos rfl]
  exact map_eq_ok_iff.2 ⟨s, h (by omega) hr, rfl⟩

/-- A loop that evaluates an expression first. -/
theorem expressionInitializer {e : Expr} {semicolon : Token}
    (hb : StartsWith expressionStarts ts) (h : (expression e).IsRead ts)
    (hs : semicolon.kind = .semicolon) :
    (initializer (some (.expression e))).IsRead (ts ++ [semicolon]) := by
  intro depth hd rest hr
  simp only [List.length_append, List.length_cons, List.length_nil] at hd
  have hb' := (hb.append [semicolon]).begins.append rest
  rw [forInitializer,
    bind_of_ok (accept_of_not_begins (not_begins_of_begins hb' (by decide)) (by decide)),
    if_neg Bool.false_ne_true,
    bind_of_ok (accept_of_not_begins (not_begins_of_begins hb' (by decide)) (by decide)),
    if_neg Bool.false_ne_true]
  exact map_eq_ok_iff.2 ⟨_, h.expressionStatement_makes hs (by omega) hr, rfl⟩

/-- An expression and a semicolon.  No expression begins with the keyword of another statement. -/
theorem expressionStatement {e : Expr} {semicolon : Token} (hb : StartsWith expressionStarts ts)
    (h : (expression e).IsRead ts) (hs : semicolon.kind = .semicolon) :
    (statement false (.expression e)).IsRead (ts ++ [semicolon]) := by
  intro depth hd rest hr
  simp only [List.length_append, List.length_cons, List.length_nil] at hd
  obtain ⟨depth, rfl⟩ := Nat.exists_eq_succ_of_ne_zero (n := depth) (by omega)
  have hm := @expressionStatement_makes _ _ _ h hs depth (by omega) rest hr
  cases ts with
  | nil => exact hb.begins.elim
  | cons t ts =>
    have hk : t.kind ∈ expressionStarts := hb.begins
    simp only [List.cons_append] at hm ⊢
    have he : t.kind ≠ .eof := by
      intro he
      rw [he] at hk
      exact absurd hk (by decide)
    rw [Reader.statement, bind_of_ok (peek?_cons he)]
    dsimp only
    generalize t.kind = kind at hk
    split <;> first | exact hm | exact absurd hk (by decide)

theorem print {e : Expr} {keyword semicolon : Token} (hk : keyword.kind = .print)
    (h : (expression e).IsRead ts) (hs : semicolon.kind = .semicolon) :
    (statement false (.print e)).IsRead (keyword :: (ts ++ [semicolon])) := by
  intro depth hd rest _
  simp only [List.length_append, List.length_cons, List.length_nil] at hd
  obtain ⟨depth, rfl⟩ := Nat.exists_eq_succ_of_ne_zero (n := depth) (by omega)
  rw [Reader.statement, List.cons_append, bind_of_ok (peek?_cons (by simp [hk]))]
  simp only [hk, List.append_assoc, List.cons_append, List.nil_append]
  rw [bind_of_ok skip_cons, printStatement,
    bind_of_ok (h (by omega) (not_begins_of_kind hs (by decide) _)),
    bind_of_ok (expect_cons hs (by decide))]
  rfl

/-- An expression that may be missing, before a token that tells. -/
theorem optional_makes {o : Option Expr} {t : Token} {kind : TokenKind}
    (h : (optional o).IsRead ts) (hb : (optional o).Starts ts) (ht : t.kind = kind)
    (hk : kind ∉ .eof :: expressionStarts ++ expressionFollowers) {depth : Nat}
    (hd : 8 * ts.length ≤ depth + 2) (rest : List Token) :
    nextIs kind (ts ++ t :: rest) = .ok o.isNone (ts ++ t :: rest) ∧
      (if o.isNone then pure none else some <$> expressionOf (Reader.assignment depth))
        (ts ++ t :: rest) = .ok o (t :: rest) ∧
      ∀ default, (if o.isNone then pure default else expressionOf (Reader.assignment depth))
        (ts ++ t :: rest) = .ok (o.getD default) (t :: rest) := by
  simp only [List.cons_append, List.mem_cons, List.mem_append, not_or] at hk
  obtain ⟨hk, he, hf⟩ := hk
  cases o with
  | none =>
    obtain rfl : ts = [] := h
    exact ⟨nextIs_cons ht hk, rfl, fun _ => rfl⟩
  | some e =>
    have hn : ¬ Begins [kind] (ts ++ t :: rest) :=
      not_begins_of_begins (StartsWith.append hb _).begins (by
        intro k hm hmem
        rw [List.mem_singleton.1 hmem] at hm
        exact he hm)
    have hm : expressionOf (Reader.assignment depth) (ts ++ t :: rest) = .ok e (t :: rest) :=
      h hd (not_begins_of_kind ht hf _)
    exact ⟨nextIs_of_not_begins hn hk, map_eq_ok_iff.2 ⟨e, hm, rfl⟩, fun _ => hm⟩

/-- A `return`, with a value or without one. -/
theorem «return» {value : Option Expr} {keyword semicolon : Token}
    (hk : keyword.kind = .return) (h : (optional value).IsRead ts)
    (hb : (optional value).Starts ts) (hs : semicolon.kind = .semicolon) :
    (statement false (.return keyword value)).IsRead (keyword :: (ts ++ [semicolon])) := by
  intro depth hd rest _
  simp only [List.length_append, List.length_cons, List.length_nil] at hd
  obtain ⟨depth, rfl⟩ := Nat.exists_eq_succ_of_ne_zero (n := depth) (by omega)
  obtain ⟨hn, hv, -⟩ := @optional_makes _ _ semicolon .semicolon h hb hs (by decide) depth
    (by omega) rest
  rw [Reader.statement, List.cons_append, bind_of_ok (peek?_cons (by simp [hk]))]
  simp only [hk, List.append_assoc, List.cons_append, List.nil_append]
  rw [bind_of_ok skip_cons, returnStatement, bind_of_ok hn]
  refine ite_bind_eq_ok_iff.2 ⟨_, _, hv, ?_⟩
  dsimp only
  rw [bind_of_ok (expect_cons hs (by decide))]
  rfl

/-- Declarations in braces. -/
theorem block {ss : List Stmt} {opening closing : Token} (ho : opening.kind = .leftBrace)
    (h : (declarations ss).IsRead ts) (hc : closing.kind = .rightBrace) :
    (statement false (.block ss)).IsRead (opening :: (ts ++ [closing])) := by
  intro depth hd rest _
  simp only [List.length_append, List.length_cons, List.length_nil] at hd
  obtain ⟨depth, rfl⟩ := Nat.exists_eq_succ_of_ne_zero (n := depth) (by omega)
  rw [Reader.statement, List.cons_append, bind_of_ok (peek?_cons (by simp [ho]))]
  simp only [ho, List.append_assoc, List.cons_append, List.nil_append]
  rw [bind_of_ok skip_cons, blockBody, bind_of_ok ((@h depth (by omega)).braced hc _)]
  rfl

/-- A loop ends in its body, and so an `else` extends the one as it extends the other. -/
theorem «while» {c : Expr} {body : Stmt} {d : Bool} {keyword left right : Token}
    (hk : keyword.kind = .while) (hl : left.kind = .leftParen) (hc : (expression c).IsRead ts)
    (hr : right.kind = .rightParen) (hb : (statement d body).IsRead us) :
    (statement d (.loop c body)).IsRead (keyword :: left :: (ts ++ right :: us)) := by
  intro depth hd rest hf
  simp only [List.length_append, List.length_cons] at hd
  obtain ⟨depth, rfl⟩ := Nat.exists_eq_succ_of_ne_zero (n := depth) (by omega)
  rw [Reader.statement, List.cons_append, bind_of_ok (peek?_cons (by simp [hk]))]
  simp only [hk, List.append_assoc, List.cons_append]
  rw [bind_of_ok skip_cons, whileStatement, bind_of_ok (expect_cons hl (by decide)),
    bind_of_ok (hc (by omega) (not_begins_of_kind hr (by decide) _)),
    bind_of_ok (expect_cons hr (by decide)), bind_of_ok (hb (by omega) hf)]
  rfl

/-- A `for` statement, any part of whose head may be missing. -/
theorem «for» {first : Option Stmt} {condition step : Option Expr} {body : Stmt} {d : Bool}
    {keyword left semicolon right : Token} {vs ws : List Token} (hk : keyword.kind = .for)
    (hl : left.kind = .leftParen) (hf : (initializer first).IsRead ts)
    (hc : (optional condition).IsRead us) (hc' : (optional condition).Starts us)
    (hs : semicolon.kind = .semicolon) (hi : (optional step).IsRead vs)
    (hi' : (optional step).Starts vs) (hr : right.kind = .rightParen)
    (hb : (statement d body).IsRead ws) :
    (statement d (forTree first (condition.getD (.literal (.bool true))) step body)).IsRead
      (keyword :: left :: (ts ++ (us ++ semicolon :: (vs ++ right :: ws)))) := by
  intro depth hd rest hrest
  simp only [List.length_append, List.length_cons] at hd
  obtain ⟨depth, rfl⟩ := Nat.exists_eq_succ_of_ne_zero (n := depth) (by omega)
  obtain ⟨hn, -, hv⟩ := @optional_makes _ _ semicolon .semicolon hc hc' hs (by decide) depth
    (by omega) (vs ++ right :: (ws ++ rest))
  obtain ⟨hn', hv', -⟩ := @optional_makes _ _ right .rightParen hi hi' hr (by decide) depth
    (by omega) (ws ++ rest)
  rw [Reader.statement, List.cons_append, bind_of_ok (peek?_cons (by simp [hk]))]
  simp only [hk, List.append_assoc, List.cons_append]
  rw [bind_of_ok skip_cons, forStatement, bind_of_ok (expect_cons hl (by decide)),
    bind_of_ok (hf (by omega) (not_begins_empty _)), bind_of_ok hn]
  refine ite_bind_eq_ok_iff.2 ⟨_, _, hv _, ?_⟩
  dsimp only
  rw [bind_of_ok (expect_cons hs (by decide)), bind_of_ok hn']
  refine ite_bind_eq_ok_iff.2 ⟨_, _, hv', ?_⟩
  rw [bind_of_ok (expect_cons hr (by decide)), bind_of_ok (hb (by omega) hrest),
    forTree_eq_forLoop]
  rfl

/-- A branch that is followed by no `else`. -/
theorem ifOnly {c : Expr} {a : Stmt} {d : Bool} {keyword left right : Token}
    (hk : keyword.kind = .if) (hl : left.kind = .leftParen) (hc : (expression c).IsRead ts)
    (hr : right.kind = .rightParen) (ha : (statement d a).IsRead us) :
    (statement true (.branch c a none)).IsRead (keyword :: left :: (ts ++ right :: us)) := by
  intro depth hd rest hf
  simp only [List.length_append, List.length_cons] at hd
  obtain ⟨depth, rfl⟩ := Nat.exists_eq_succ_of_ne_zero (n := depth) (by omega)
  -- the branch is followed by no `else`, so nothing extends it either
  have hd' : ¬ Begins (statementFollowers d) rest :=
    not_begins_of_subset hf (by cases d <;> decide)
  rw [Reader.statement, List.cons_append, bind_of_ok (peek?_cons (by simp [hk]))]
  simp only [hk, List.append_assoc, List.cons_append]
  rw [bind_of_ok skip_cons, ifStatement, bind_of_ok (expect_cons hl (by decide)),
    bind_of_ok (hc (by omega) (not_begins_of_kind hr (by decide) _)),
    bind_of_ok (expect_cons hr (by decide)), bind_of_ok (ha (by omega) hd'),
    bind_of_ok (accept_of_not_begins hf (by decide))]
  rfl

/-- The first branch of an `if` that has an `else` takes none for itself. -/
theorem ifElse {c : Expr} {a b : Stmt} {d : Bool} {keyword left right other : Token}
    {vs : List Token} (hk : keyword.kind = .if) (hl : left.kind = .leftParen)
    (hc : (expression c).IsRead ts) (hr : right.kind = .rightParen)
    (ha : (statement false a).IsRead us) (he : other.kind = .else)
    (hb : (statement d b).IsRead vs) :
    (statement d (.branch c a (some b))).IsRead
      (keyword :: left :: (ts ++ right :: (us ++ other :: vs))) := by
  intro depth hd rest hf
  simp only [List.length_append, List.length_cons] at hd
  obtain ⟨depth, rfl⟩ := Nat.exists_eq_succ_of_ne_zero (n := depth) (by omega)
  rw [Reader.statement, List.cons_append, bind_of_ok (peek?_cons (by simp [hk]))]
  simp only [hk, List.append_assoc, List.cons_append]
  -- the branch takes no `else` for itself, so the one that comes next belongs to this `if`
  rw [bind_of_ok skip_cons, ifStatement, bind_of_ok (expect_cons hl (by decide)),
    bind_of_ok (hc (by omega) (not_begins_of_kind hr (by decide) _)),
    bind_of_ok (expect_cons hr (by decide)), bind_of_ok (ha (by omega) (not_begins_empty _)),
    bind_of_ok (accept_cons he (by decide)), if_pos rfl]
  refine bind_eq_ok_iff.2 ⟨some b, rest, map_eq_ok_iff.2 ⟨b, hb (by omega) hf, rfl⟩, rfl⟩

/-! ## Declarations -/

/-- A function declaration is told from a lambda by the name after its keyword. -/
theorem functionDeclaration {keyword : Token} {f : FunctionDecl} (hk : keyword.kind = .fun)
    (hb : Begins [.identifier] ts) (h : (Phrase.function f).IsRead ts) :
    (declaration false (.function f)).IsRead (keyword :: ts) := by
  intro depth hd rest hr
  simp only [List.length_cons] at hd
  obtain ⟨depth, rfl⟩ := Nat.exists_eq_succ_of_ne_zero (n := depth) (by omega)
  have hc : ¬ Begins [.class] (keyword :: (ts ++ rest)) := not_begins_of_kind hk (by decide) _
  -- the keyword of a function declaration has a name after it, that of a lambda has not
  have hf : startsFunction (keyword :: (ts ++ rest)) = true := by
    cases ts with
    | nil => exact hb.elim
    | cons name ts =>
      have hn : name.kind = .identifier := List.mem_singleton.1 hb
      simp [startsFunction, hk, hn]
  rw [Reader.declaration, List.cons_append, bind_of_ok (accept_of_not_begins hc (by decide)),
    if_neg Bool.false_ne_true, bind_of_ok (get_eq_ok_iff.2 ⟨rfl, rfl⟩), if_pos hf,
    bind_of_ok skip_cons, bind_of_ok (h (by omega) .function (not_begins_empty _))]
  rfl

theorem variableDeclaration {keyword : Token} {s : Stmt} (hk : keyword.kind = .var)
    (h : («variable» s).IsRead ts) : (declaration false s).IsRead (keyword :: ts) := by
  intro depth hd rest hr
  simp only [List.length_cons] at hd
  obtain ⟨depth, rfl⟩ := Nat.exists_eq_succ_of_ne_zero (n := depth) (by omega)
  have hc : ¬ Begins [.class] (keyword :: (ts ++ rest)) := not_begins_of_kind hk (by decide) _
  have hf : startsFunction (keyword :: (ts ++ rest)) = false :=
    (StartsWith.cons (List.mem_singleton_self _) (by simp [hk]) ts).not_function rest
  rw [Reader.declaration, List.cons_append, bind_of_ok (accept_of_not_begins hc (by decide)),
    if_neg Bool.false_ne_true, bind_of_ok (get_eq_ok_iff.2 ⟨rfl, rfl⟩), if_neg (by simp [hf]),
    bind_of_ok (accept_cons hk (by decide)), if_pos rfl]
  exact h (by omega) (not_begins_empty _)

/-- A declaration that begins like a statement is read as one. -/
theorem statementDeclaration {d : Bool} {s : Stmt} (hb : StartsWith statementStarts ts)
    (h : (statement d s).IsRead ts) : (declaration d s).IsRead ts := by
  intro depth hd rest hr
  have hp := hb.length_pos
  obtain ⟨depth, rfl⟩ := Nat.exists_eq_succ_of_ne_zero (n := depth) (by omega)
  have hb' := hb.begins.append rest
  rw [Reader.declaration,
    bind_of_ok (accept_of_not_begins (not_begins_of_begins hb' (by decide)) (by decide)),
    if_neg Bool.false_ne_true, bind_of_ok (get_eq_ok_iff.2 ⟨rfl, rfl⟩),
    if_neg (by simp [hb.not_function rest]),
    bind_of_ok (accept_of_not_begins (not_begins_of_begins hb' (by decide)) (by decide)),
    if_neg Bool.false_ne_true]
  exact h (by omega) hr

/-- No declaration begins with an `else`, so none is taken for a part of the one before. -/
theorem not_begins_followers (d : Bool) {ss : List Stmt} {rest : List Token}
    (h : (declarations ss).Starts us) (hr : ¬ Begins [.else] rest) :
    ¬ Begins (statementFollowers d) (us ++ rest) := by
  -- either nothing is declared any more, or the next declaration begins with no `else`
  rcases h with rfl | h
  · exact not_begins_of_subset hr (by cases d <;> decide)
  · exact not_begins_of_begins (h.append rest) (by cases d <;> decide)

/-- One more declaration before the others.  None of them begins with `else`. -/
theorem moreDeclarations {d : Bool} {s : Stmt} {ss : List Stmt}
    (hb : Begins declarationStarts ts) (h : (declaration d s).IsRead ts)
    (hb' : (declarations ss).Starts us) (hs : (declarations ss).IsRead us) :
    (declarations (s :: ss)).IsRead (ts ++ us) := by
  intro depth hd
  simp only [List.length_append] at hd
  refine .cons hb (by decide) (h (by omega)) (fun closing hc rest => ?_) (hs (by omega))
  exact not_begins_followers d hb' (not_begins_of_kind hc (by decide) _)

end Phrase.IsRead

/-! ## Derivations -/

/-- **A phrase of the grammar is read**, where each `else` belongs to the nearest `if`. -/
theorem Derives.isRead {p : Phrase} {ts : List Token} (h : Derives true p ts) : p.IsRead ts := by
  -- One case per rule of the grammar: the lemma above that is named like the rule.
  induction h with
  | single _ ih => exact ih.single
  | sequence _ ih => exact ih.sequence
  | lastItem _ ih => exact ih.lastItem
  | moreItems _ hc _ ih ihs => exact ih.moreItems hc ihs
  | assignVariable hn he _ ih =>
    have hs := StartsWith.singleton hn (by decide : _ ∈ primaryStarts) (by decide)
    have hv := (Phrase.IsRead.name hn).noCall.ternary_of_call hs
    exact .assignVariable hv he ih
  | @assignProperty object value dot name equal ts us ho hd hn he _ ih ih' =>
    have ht := (ih.property hd hn).ternary_of_call (ho.starts.append _)
    have := ht.assignProperty he ih'
    rwa [List.append_assoc] at this
  | noAssignment h ih => exact ih.noAssignment h.starts.length_pos
  | conditional _ hq _ hk _ ihc iha ihb => exact ihc.conditional hq iha hk ihb
  | noConditional h ih => exact ih.noConditional h.starts.length_pos
  | operand _ ih => exact ih.operand
  | operator _ ho _ ihl ihr => exact ihl.operator ho ihr
  | unaryOperator ho _ ih => exact ih.unaryOperator ho
  | noUnary h ih => exact ih.noUnary h.starts
  | noCall _ ih => exact ih.noCall
  | application _ hl _ hm hr ihc iha => exact ihc.application hl iha hm hr
  | property _ hd hn ih => exact ih.property hd hn
  | noArguments => exact .noArguments
  | someArguments h ih => exact ih.someArguments h.starts
  | falseLiteral h | trueLiteral h | nilLiteral h | this h =>
    refine .token fun depth rest => ?_
    rw [Reader.primary, bind_of_ok (peek?_cons (by simp [h]))]
    simp only [h]
    rfl
  | literal h => exact .literal h
  | name h => exact .name h
  | group hl _ hr ih => exact ih.group hl hr
  | lambda hk hl hp hr ho _ hc ih => exact .lambda hk hl hp hr ho ih hc
  | absent => rfl
  | present _ ih => exact ih
  | plainVariable hn hs => exact .plainVariable hn hs
  | initializedVariable hn he _ hs ih => exact .initializedVariable hn he ih hs
  | noInitializer hs => exact .noInitializer hs
  | variableInitializer hk _ ih => exact ih.variableInitializer hk
  | expressionInitializer h hs ih => exact ih.expressionInitializer h.starts hs
  | function hn hl hp hr ho _ hc ih => exact .function hn hl hp hr ho ih hc
  | noFunctions | noDeclarations => exact fun _ _ => .nil
  | moreFunctions h _ ih ihs => exact ih.moreFunctions h.starts ihs
  | expressionStatement h hs ih => exact ih.expressionStatement h.starts hs
  | print hk _ hs ih => exact ih.print hk hs
  | «return» hk h hs ih => exact ih.return hk h.starts hs
  | block ho _ hc ih => exact ih.block ho hc
  | «while» hk hl _ hr _ ihc ihb => exact ihc.while hk hl hr ihb
  | «for» hk hl _ hc hs hi hr _ ihf ihc ihi ihb =>
    exact ihf.for hk hl ihc hc.starts hs ihi hi.starts hr ihb
  | ifOnly hk hl _ hr _ ihc iha => exact ihc.ifOnly hk hl hr iha
  | ifElse hk hl _ hr _ hd he _ ihc iha ihb =>
    obtain rfl := hd rfl
    exact ihc.ifElse hk hl hr iha he ihb
  | «class» hk hn ho _ hc ih => exact ih.class hk hn ho hc
  | functionDeclaration hk h ih => exact ih.functionDeclaration hk h.starts
  | variableDeclaration hk _ ih => exact ih.variableDeclaration hk
  | statementDeclaration h ih => exact ih.statementDeclaration h.starts
  | moreDeclarations h hs ih ihs => exact ih.moreDeclarations h.starts hs.starts ihs

/-! ## Whole inputs -/

/-- An expression is read as a whole input. -/
theorem readExpression_complete {tokens : List Token} {e : Expr}
    (h : Derives true (.expression e) tokens) : readExpression tokens = .ok e [] := by
  have he := @Derives.isRead _ _ h (depthBound tokens) (by unfold depthBound; omega) []
    (not_begins_nil _)
  rw [List.append_nil] at he
  rw [readExpression, bind_of_ok (get_eq_ok_iff.2 ⟨rfl, rfl⟩), bind_of_ok he,
    bind_of_ok (get_eq_ok_iff.2 ⟨rfl, rfl⟩)]
  rfl

theorem not_atEnd_of_begins {kinds : List TokenKind} {ts : List Token} (h : Begins kinds ts)
    (hk : .eof ∉ kinds) : atEnd ts = false := by
  cases ts with
  | nil => exact h.elim
  | cons t ts =>
    rw [atEnd, beq_eq_false_iff_ne]
    rintro ht
    exact hk (ht ▸ h)

/-- **Every program is read**, one declaration at a time, if the bounds are large enough. -/
theorem readProgramWithin_complete {tokens : List Token} {ss : List Stmt} {depth bound : Nat}
    (h : Derives true (.declarations ss) tokens) (hd : 8 * tokens.length ≤ depth)
    (hb : tokens.length ≤ bound) : readProgramWithin depth bound tokens = ⟨ss, [], [], none⟩ := by
  induction ss generalizing tokens bound with
  | nil =>
    cases h
    cases bound <;> simp [readProgramWithin, atEnd]
  | cons s ss ih =>
    cases h with
    | @moreDeclarations d _ _ ts us h hs =>
      simp only [List.length_append] at hd hb
      have hf := Phrase.IsRead.not_begins_followers d hs.starts (not_begins_nil [.else])
      rw [List.append_nil] at hf
      have hm := @Derives.isRead _ _ h depth (by omega) us hf
      have hb' : Begins declarationStarts ts := h.starts
      have hn : atEnd (ts ++ us) = false := not_atEnd_of_begins (hb'.append us) (by decide)
      have hp := hb'.length_pos
      obtain ⟨bound, rfl⟩ := Nat.exists_eq_succ_of_ne_zero (n := bound) (by omega)
      rw [readProgramWithin, hn, if_neg Bool.false_ne_true, hm]
      dsimp only
      rw [ih hs (by omega) (by omega)]

/-- A program is read without an error, up to its end. -/
theorem readProgram_complete {tokens : List Token} {ss : List Stmt}
    (h : Derives true (.declarations ss) tokens) : readProgram tokens = ⟨ss, [], [], none⟩ :=
  readProgramWithin_complete h (by unfold depthBound; omega) (Nat.le_refl _)

end ScopedScript

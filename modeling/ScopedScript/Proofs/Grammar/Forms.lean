import ScopedScript.Proofs.Grammar.Starts

/-!
# A grammar that leaves the last word to the readers

The grammar once more, without trees, in the form in which it is written down: the right-hand sides
of its rules are sequences, alternatives and repetitions.  It is relaxed in two ways.  Anything that
may stand to the left of `?` may stand to the left of `=`, too, and there may be any number of
parameters and arguments.  Readers judge both when they have read on: an assignment target once the
value has been read, the number of arguments once the closing parenthesis has.  So this is the
grammar that readers go by from token to token.

Only the rules that refer back to themselves have a name in the grammar; the others are spelled out
where they are used.

## Main definitions

* `Form`: right-hand sides.  `Form.Matches form tokens`: the tokens are of this form.
* `Nonterminal.rule`: the grammar.
* `Form.first`, `Form.nullable`: by which tokens a form begins, and whether it may be empty.

## Main results

* `Form.Matches.begins`: the tokens of a form begin as they should.
* `Form.Matches.not_startsFunction`: which forms do not begin like a declared function.
-/

namespace ScopedScript

/-! ## Forms -/

/-- The rules that refer back to themselves. -/
inductive Nonterminal where
  | declaration
  | statement
  | assignment
  | ternary
  | unary
  | primary
deriving DecidableEq

/-- **The right-hand side of a rule**: nothing, a token of one of some kinds, another rule, one
thing after the other, one or the other, or any number of one thing. -/
inductive Form where
  | empty
  | token (kinds : List TokenKind)
  | ref (rule : Nonterminal)
  | seq (first second : Form)
  | alt (left right : Form)
  | many (item : Form)

namespace Form

/-- A token of one kind. -/
def kind (kind : TokenKind) : Form := .token [kind]

/-- No tokens are of this form. -/
def never : Form := .token []

/-- One thing after the other. -/
def all : List Form → Form
  | [] => .empty
  | [form] => form
  | form :: forms => .seq form (all forms)

/-- One of several things. -/
def any : List Form → Form
  | [] => never
  | [form] => form
  | form :: forms => .alt form (any forms)

/-- Something that may be left out. -/
def opt (form : Form) : Form := .alt form .empty

/-- One or more things with commas between them. -/
def commaSeparated (item : Form) : Form := .seq item (.many (.seq (kind .comma) item))

/-- Operands with operators between them. -/
def chain (operators : List TokenKind) (operand : Form) : Form :=
  .seq operand (.many (.seq (.token operators) operand))

/-! ## The grammar -/

/-- expression ::= assignment ( "," assignment )* -/
def expression : Form := commaSeparated (.ref .assignment)

/-- parameters ::= "(" ( IDENTIFIER ( "," IDENTIFIER )* )? ")" -/
def parameters : Form :=
  all [kind .leftParen, opt (commaSeparated (kind .identifier)), kind .rightParen]

/-- What comes after the opening brace of a block: declaration* "}" -/
def body : Form := .seq (.many (.ref .declaration)) (kind .rightBrace)

/-- function ::= IDENTIFIER parameters "{" declaration* "}" -/
def function : Form := all [kind .identifier, parameters, kind .leftBrace, body]

/-- What comes after the keyword of a class: IDENTIFIER "{" function* "}" -/
def classTail : Form :=
  all [kind .identifier, kind .leftBrace, .seq (.many function) (kind .rightBrace)]

/-- What comes after the keyword of a variable: IDENTIFIER ( "=" expression )? ";" -/
def varTail : Form :=
  all [kind .identifier, opt (.seq (kind .equal) expression), kind .semicolon]

/-- expression ";" -/
def expressionStatement : Form := .seq expression (kind .semicolon)

/-- The initializer of a for loop, with its semicolon. -/
def initializer : Form :=
  any [kind .semicolon, .seq (kind .var) varTail, expressionStatement]

/-- What comes after the keyword of a for loop. -/
def forTail : Form :=
  all [kind .leftParen, initializer, opt expression, kind .semicolon, opt expression,
    kind .rightParen, .ref .statement]

/-- "else" statement -/
def otherwise : Form := .seq (kind .else) (.ref .statement)

/-- What comes after the keyword of an `if`. -/
def ifTail : Form :=
  all [kind .leftParen, expression, kind .rightParen, .ref .statement, opt otherwise]

/-- What comes after the keyword of a while loop. -/
def whileTail : Form := all [kind .leftParen, expression, kind .rightParen, .ref .statement]

/-- "(" expression? ")" without the first token. -/
def arguments : Form := .seq (opt expression) (kind .rightParen)

/-- ( "(" expression? ")" | "." IDENTIFIER )* -/
def calls : Form :=
  .many (.alt (.seq (kind .leftParen) arguments) (.seq (kind .dot) (kind .identifier)))

/-- call ::= primary ( "(" expression? ")" | "." IDENTIFIER )* -/
def call : Form := .seq (.ref .primary) calls

/-- factor ::= unary ( ( "/" | "*" ) unary )* -/
def factor : Form := chain [.slash, .star] (.ref .unary)

/-- term ::= factor ( ( "-" | "+" ) factor )* -/
def term : Form := chain [.minus, .plus] factor

/-- comparison ::= term ( ( ">" | ">=" | "<" | "<=" ) term )* -/
def comparison : Form := chain [.greater, .greaterEqual, .less, .lessEqual] term

/-- equality ::= comparison ( ( "!=" | "==" ) comparison )* -/
def equality : Form := chain [.bangEqual, .equalEqual] comparison

/-- and ::= equality ( "and" equality )* -/
def logicAnd : Form := chain [.and] equality

/-- or ::= and ( "or" and )* -/
def logicOr : Form := chain [.or] logicAnd

end Form

open Form in
/-- **The grammar**, relaxed: an assignment may have any conditional expression as its target. -/
def Nonterminal.rule : Nonterminal → Form
  | declaration =>
    any [.seq (kind .class) classTail, .seq (kind .fun) function, .seq (kind .var) varTail,
      .ref .statement]
  | statement =>
    any [.seq (kind .for) forTail, .seq (kind .if) ifTail,
      .seq (kind .print) expressionStatement,
      .seq (kind .return) (.seq (opt expression) (kind .semicolon)),
      .seq (kind .while) whileTail, .seq (kind .leftBrace) body, expressionStatement]
  | assignment => .seq (.ref .ternary) (opt (.seq (kind .equal) (.ref .assignment)))
  | ternary =>
    .seq logicOr (opt (all [kind .question, .ref .ternary, kind .colon, .ref .ternary]))
  | unary => .alt (.seq (.token [.bang, .minus]) (.ref .unary)) call
  | primary =>
    any [kind .false, kind .true, kind .nil, kind .number, kind .string, kind .this,
      kind .identifier, .seq (kind .fun) (all [parameters, kind .leftBrace, body]),
      .seq (kind .leftParen) (.seq expression (kind .rightParen))]

/-- **The tokens are of this form.** -/
inductive Form.Matches : Form → List Token → Prop where
  | empty : Matches .empty []
  | token {kinds : List TokenKind} {t : Token} (h : t.kind ∈ kinds) : Matches (.token kinds) [t]
  | ref {rule : Nonterminal} {ts : List Token} (h : Matches rule.rule ts) : Matches (.ref rule) ts
  | seq {a b : Form} {ts us : List Token} (ha : Matches a ts) (hb : Matches b us) :
    Matches (.seq a b) (ts ++ us)
  | left {a b : Form} {ts : List Token} (h : Matches a ts) : Matches (.alt a b) ts
  | right {a b : Form} {ts : List Token} (h : Matches b ts) : Matches (.alt a b) ts
  | done {a : Form} : Matches (.many a) []
  | more {a : Form} {ts us : List Token} (h : Matches a ts) (hs : Matches (.many a) us) :
    Matches (.many a) (ts ++ us)

namespace Form

variable {a b : Form} {kinds : List TokenKind} {rule : Nonterminal} {ts : List Token}

@[simp]
theorem matches_empty_iff : Matches .empty ts ↔ ts = [] :=
  ⟨fun h => by cases h; rfl, fun h => h ▸ .empty⟩

@[simp]
theorem matches_token_iff : Matches (.token kinds) ts ↔ ∃ t, ts = [t] ∧ t.kind ∈ kinds := by
  constructor
  · intro h
    cases h with
    | token h => exact ⟨_, rfl, h⟩
  · rintro ⟨t, rfl, h⟩
    exact .token h

theorem matches_ref_iff : Matches (.ref rule) ts ↔ Matches rule.rule ts :=
  ⟨fun h => by cases h; assumption, .ref⟩

theorem matches_seq_iff :
    Matches (.seq a b) ts ↔ ∃ us vs, ts = us ++ vs ∧ Matches a us ∧ Matches b vs := by
  constructor
  · intro h
    cases h with
    | seq ha hb => exact ⟨_, _, rfl, ha, hb⟩
  · rintro ⟨us, vs, rfl, ha, hb⟩
    exact .seq ha hb

theorem matches_alt_iff : Matches (.alt a b) ts ↔ Matches a ts ∨ Matches b ts := by
  constructor
  · intro h
    cases h with
    | left h => exact .inl h
    | right h => exact .inr h
  · rintro (h | h)
    · exact .left h
    · exact .right h

/-- Any number of things is none, or one and then any number. -/
theorem matches_many_iff :
    Matches (.many a) ts ↔ Matches (.alt (.seq a (.many a)) .empty) ts := by
  rw [matches_alt_iff, matches_seq_iff, matches_empty_iff]
  constructor
  · intro h
    cases h with
    | done => exact .inr rfl
    | more h hs => exact .inl ⟨_, _, rfl, h, hs⟩
  · rintro (⟨us, vs, rfl, h, hs⟩ | rfl)
    · exact .more h hs
    · exact .done

theorem matches_seq_assoc {c : Form} :
    Matches (.seq (.seq a b) c) ts ↔ Matches (.seq a (.seq b c)) ts := by
  simp only [matches_seq_iff]
  constructor
  · rintro ⟨_, ws, rfl, ⟨us, vs, rfl, hu, hv⟩, hw⟩
    exact ⟨us, vs ++ ws, List.append_assoc .., hu, vs, ws, rfl, hv, hw⟩
  · rintro ⟨us, _, rfl, hu, vs, ws, rfl, hv, hw⟩
    exact ⟨us ++ vs, ws, (List.append_assoc ..).symm, ⟨us, vs, rfl, hu, hv⟩, hw⟩

/-- What may be left out is there, or what comes after it is there alone. -/
theorem matches_opt_seq_iff :
    Matches (.seq (.opt a) b) ts ↔ Matches (.seq a b) ts ∨ Matches b ts := by
  simp only [opt, matches_seq_iff, matches_alt_iff, matches_empty_iff]
  constructor
  · rintro ⟨us, vs, rfl, hu | rfl, hv⟩
    · exact .inl ⟨us, vs, rfl, hu, hv⟩
    · exact .inr hv
  · rintro (⟨us, vs, rfl, hu, hv⟩ | h)
    · exact ⟨us, vs, rfl, .inl hu, hv⟩
    · exact ⟨[], ts, rfl, .inr rfl, h⟩

theorem matches_seq_empty_iff : Matches (.seq a .empty) ts ↔ Matches a ts := by
  simp [matches_seq_iff]

/-- One thing and another, any number of times. -/
theorem matches_many_seq_iff : Matches (.many (.seq a b)) ts ↔
    Matches (.alt (.seq a (.seq b (.many (.seq a b)))) .empty) ts := by
  rw [matches_many_iff, matches_alt_iff, matches_alt_iff, matches_seq_assoc]

/-- One of two things, any number of times. -/
theorem matches_many_alt_iff : Matches (.many (.alt a b)) ts ↔
    Matches (.seq a (.many (.alt a b))) ts ∨ Matches (.seq b (.many (.alt a b))) ts ∨ ts = [] := by
  rw [matches_many_iff, matches_alt_iff, matches_empty_iff]
  simp only [matches_seq_iff, matches_alt_iff]
  constructor
  · rintro (⟨us, vs, rfl, hu | hu, hv⟩ | h)
    · exact .inl ⟨us, vs, rfl, hu, hv⟩
    · exact .inr (.inl ⟨us, vs, rfl, hu, hv⟩)
    · exact .inr (.inr h)
  · rintro (⟨us, vs, rfl, hu, hv⟩ | ⟨us, vs, rfl, hu, hv⟩ | h)
    · exact .inl ⟨us, vs, rfl, .inl hu, hv⟩
    · exact .inl ⟨us, vs, rfl, .inr hu, hv⟩
    · exact .inr h

/-- Any number of things before something else. -/
theorem matches_many_before_iff : Matches (.seq (.many a) b) ts ↔
    Matches b ts ∨ Matches (.seq a (.seq (.many a) b)) ts := by
  rw [← matches_seq_assoc]
  simp only [matches_seq_iff (b := b), matches_many_iff (a := a), matches_alt_iff,
    matches_empty_iff]
  constructor
  · rintro ⟨us, vs, rfl, hu | rfl, hv⟩
    · exact .inr ⟨us, vs, rfl, hu, hv⟩
    · exact .inl hv
  · rintro (hv | ⟨us, vs, rfl, hu, hv⟩)
    · exact ⟨[], ts, rfl, .inr rfl, hv⟩
    · exact ⟨us, vs, rfl, .inl hu, hv⟩

/-! ## How forms begin -/

/-- Whether no tokens at all are of this form.  No rule allows it. -/
def nullable : Form → Bool
  | empty => true
  | token _ => false
  | ref _ => false
  | seq a b => a.nullable && b.nullable
  | alt a b => a.nullable || b.nullable
  | many _ => true

end Form

/-- The kinds that the tokens of a rule begin with. -/
def Nonterminal.starts : Nonterminal → List TokenKind
  | declaration => declarationStarts
  | statement => statementStarts
  | assignment | ternary | unary => expressionStarts
  | primary => primaryStarts

/-- The kinds that the tokens of a form begin with. -/
def Form.first : Form → List TokenKind
  | empty => []
  | token kinds => kinds
  | ref rule => rule.starts
  | seq a b => if a.nullable then a.first ++ b.first else a.first
  | alt a b => a.first ++ b.first
  | many a => a.first

/-- The rules begin as they should. -/
theorem Nonterminal.starts_rule (rule : Nonterminal) :
    rule.rule.nullable = false ∧ rule.rule.first ⊆ rule.starts := by
  cases rule <;> decide

namespace Form

variable {form a b : Form} {kinds : List TokenKind} {ts : List Token}

/-- **How the tokens of a form begin.** -/
theorem Matches.begins (h : Matches form ts) :
    ts = [] ∧ form.nullable = true ∨ Begins form.first ts := by
  induction h with
  | empty => exact .inl ⟨rfl, rfl⟩
  | token h => exact .inr h
  | @ref rule ts _ ih =>
    obtain ⟨hn, hs⟩ := rule.starts_rule
    rcases ih with ⟨-, h⟩ | h
    · rw [hn] at h
      cases h
    · exact .inr (h.mono hs)
  | @seq a b ts us _ _ iha ihb =>
    rcases iha with ⟨rfl, ha⟩ | ha
    · rcases ihb with ⟨rfl, hb⟩ | hb
      · exact .inl ⟨rfl, by simp [nullable, ha, hb]⟩
      · exact .inr (hb.mono (by simp [first, ha]))
    · refine .inr ((ha.append us).mono ?_)
      rw [first]
      split <;> simp
  | left _ ih => exact ih.imp (.imp_right fun h => by simp [nullable, h]) (.mono (by simp [first]))
  | right _ ih => exact ih.imp (.imp_right fun h => by simp [nullable, h]) (.mono (by simp [first]))
  | done => exact .inl ⟨rfl, rfl⟩
  | @more a ts us _ _ ih ihs =>
    rcases ih with ⟨rfl, -⟩ | h
    · exact ihs
    · exact .inr (h.append us)

theorem Matches.begins_of_not_nullable (h : Matches form ts) (hn : form.nullable = false) :
    Begins form.first ts := by
  rcases h.begins with ⟨-, h⟩ | h
  · rw [hn] at h
    cases h
  · exact h

/-! ## What comes after a form -/

/-- **The tokens of the form, and what comes after them, do not begin with one of the kinds.**
What comes after are tokens of the form `trailing`, any number of times, and then something that
does not begin with one of `followers`. -/
def avoids (form : Form) (kinds : List TokenKind) (trailing : Form)
    (followers : List TokenKind) : Bool :=
  kinds.all fun kind => !form.first.contains kind &&
    (!form.nullable || !trailing.first.contains kind && followers.contains kind)

theorem not_begins_of_avoids {trailing : Form} {followers : List TokenKind}
    (h : form.avoids kinds trailing followers = true) {blocks : List (List Token)}
    {rest : List Token} (hf : Matches form ts) (hb : ∀ block ∈ blocks, Matches trailing block)
    (hr : ¬ Begins followers rest) : ¬ Begins kinds (ts ++ (blocks.flatten ++ rest)) := by
  have h (kind : TokenKind) (hk : kind ∈ kinds) : kind ∉ form.first ∧
      (form.nullable = true → kind ∉ trailing.first ∧ kind ∈ followers) := by
    have := List.all_eq_true.1 h kind hk
    grind
  rcases hf.begins with ⟨rfl, hn⟩ | hf
  · rw [List.nil_append]
    induction blocks with
    | nil => exact fun hk => hr (hk.mono fun kind hk => ((h kind hk).2 hn).2)
    | cons block blocks ih =>
      rcases (hb block (by simp)).begins with ⟨rfl, -⟩ | hblock
      · exact ih fun block hm => hb block (by simp [hm])
      · rw [List.flatten_cons, List.append_assoc]
        exact not_begins_of_begins (hblock.append _) fun kind hf hk => ((h kind hk).2 hn).1 hf
  · exact not_begins_of_begins (hf.append _) fun kind hf hk => (h kind hk).1 hf

/-! ## Forms that tokens can have -/

end Form

/-- The rules in an order in which each has an alternative that refers to earlier ones only. -/
def Nonterminal.rank : Nonterminal → Nat
  | primary => 0
  | unary => 1
  | ternary => 2
  | assignment => 3
  | statement => 4
  | declaration => 5

/-- Whether there are tokens of the form, if there are some of the rules of a rank below. -/
def Form.productive (limit : Nat) : Form → Bool
  | empty => true
  | token kinds => !kinds.isEmpty
  | ref rule => rule.rank < limit
  | seq a b => a.productive limit && b.productive limit
  | alt a b => a.productive limit || b.productive limit
  | many _ => true

namespace Form

variable {form a b : Form} {kinds : List TokenKind} {ts : List Token}

theorem exists_matches_of_rank {limit : Nat}
    (hr : ∀ rule : Nonterminal, rule.rank < limit → ∃ ts, Matches (.ref rule) ts)
    (h : form.productive limit = true) : ∃ ts, Matches form ts := by
  induction form with
  | empty => exact ⟨[], .empty⟩
  | token kinds =>
    cases kinds with
    | nil => cases h
    | cons kind kinds => exact ⟨[⟨kind, "", .absent, 0⟩], .token (by simp)⟩
  | ref rule => exact hr rule (of_decide_eq_true h)
  | seq a b iha ihb =>
    obtain ⟨ha, hb⟩ := Bool.and_eq_true_iff.1 h
    obtain ⟨ts, ha⟩ := iha ha
    obtain ⟨us, hb⟩ := ihb hb
    exact ⟨ts ++ us, .seq ha hb⟩
  | alt a b iha ihb =>
    rcases Bool.or_eq_true_iff.1 h with ha | hb
    · obtain ⟨ts, ha⟩ := iha ha
      exact ⟨ts, .left ha⟩
    · obtain ⟨ts, hb⟩ := ihb hb
      exact ⟨ts, .right hb⟩
  | many a => exact ⟨[], .done⟩

/-- There are tokens of every rule. -/
theorem exists_matches_ref (rule : Nonterminal) : ∃ ts, Matches (.ref rule) ts := by
  have hp : rule.rule.productive rule.rank = true := by cases rule <;> decide
  obtain ⟨ts, h⟩ := exists_matches_of_rank (fun earlier _ => exists_matches_ref earlier) hp
  exact ⟨ts, .ref h⟩
termination_by rule.rank

theorem exists_matches (h : form.productive 6 = true) : ∃ ts, Matches form ts :=
  exists_matches_of_rank (fun rule _ => exists_matches_ref rule) h

/-! ## Forms put together -/

/-- **One form after another**: there are tokens of the second, and they do not begin with one of
the kinds that extend the first. -/
def joins (second : Form) (extending : List TokenKind) (trailing : Form)
    (followers : List TokenKind) : Bool :=
  second.productive 6 && second.avoids extending trailing followers

/-- **A token decides** whether `yes` comes after it, or `no` without it. -/
def decides (kinds : List TokenKind) (yes no trailing : Form) (followers : List TokenKind) : Bool :=
  !kinds.contains .eof && (seq (.token kinds) yes).productive 6 &&
    no.avoids kinds trailing followers

/-- **A form may be left out** before a token of one kind, with which the second one begins. -/
def omits (kind : TokenKind) (form second : Form) (extending : List TokenKind) (trailing : Form)
    (followers : List TokenKind) : Bool :=
  kind != .eof && !second.nullable && second.first.all (· == kind) &&
    (seq form second).avoids [kind] trailing followers && second.joins extending trailing followers

/-- **Things of the form may stand before a closing brace.** -/
def fillsBraces (form : Form) (extending : List TokenKind) : Bool :=
  !form.nullable && form.first.all (fun kind => kind != .rightBrace && kind != .eof) &&
    (seq (.many form) (.kind .rightBrace)).joins extending .never []

/-! ## Declared functions -/

/-- Whether the form is that of a single token. -/
def isToken : Form → Bool
  | token _ => true
  | _ => false

/-- Whether no tokens of the form begin like a declared function, by the keyword and a name. -/
def noFunction : Form → Bool
  | empty => true
  | token kinds => !kinds.contains .fun
  | ref rule => rule != .declaration
  | seq a b =>
    (a.noFunction || a.isToken && !b.nullable && !b.first.contains .identifier) &&
      (!a.nullable || b.noFunction)
  | alt a b => a.noFunction && b.noFunction
  | many a => a.noFunction

/-- Tokens that begin with a single one do not begin like a declared function. -/
theorem startsFunction_cons_eq_false {t : Token} (us : List Token)
    (h : t.kind ≠ .fun ∨ ∃ u vs, us = u :: vs ∧ u.kind ≠ .identifier) :
    Reader.startsFunction (t :: us) = false := by
  rcases us with _ | ⟨u, vs⟩
  · rfl
  · rcases h with h | ⟨_, _, he, h⟩
    · simp [Reader.startsFunction, h]
    · cases he
      simp [Reader.startsFunction, h]

/-- **Where only a statement may stand there is no declared function**, whatever comes after. -/
theorem Matches.not_startsFunction (h : Matches form ts) (hf : form.noFunction = true) :
    ts = [] ∨ ∀ rest, Reader.startsFunction (ts ++ rest) = false := by
  induction h with
  | empty => exact .inl rfl
  | token h =>
    refine .inr fun rest => startsFunction_cons_eq_false rest (.inl ?_)
    rintro hk
    simp_all [noFunction]
  | @ref rule ts _ ih => exact ih (by cases rule <;> first | decide | cases hf)
  | @seq a b ts us ha hb iha ihb =>
    obtain ⟨h, hrest⟩ := Bool.and_eq_true_iff.1 hf
    rcases Bool.or_eq_true_iff.1 h with h | h
    · rcases iha h with rfl | h
      · have ha : a.nullable = true := ha.begins.elim And.right (not_begins_nil _).elim
        exact ihb (by simpa [ha] using hrest)
      · exact .inr fun rest => by rw [List.append_assoc]; exact h _
    · rw [Bool.and_eq_true_iff, Bool.and_eq_true_iff] at h
      obtain ⟨⟨ht, hn⟩, hi⟩ := h
      cases ha with
      | @token kinds t _ =>
        have hb := hb.begins_of_not_nullable (by simpa using hn)
        rcases us with _ | ⟨u, us⟩
        · exact hb.elim
        · refine .inr fun rest => startsFunction_cons_eq_false _ (.inr ⟨u, us ++ rest, rfl, ?_⟩)
          rintro hu
          simp_all
      | _ => cases ht
  | left _ ih => exact ih (Bool.and_eq_true_iff.1 hf).1
  | right _ ih => exact ih (Bool.and_eq_true_iff.1 hf).2
  | done => exact .inl rfl
  | @more a ts us _ _ ih ihs =>
    rcases ih hf with rfl | h
    · exact ihs hf
    · exact .inr fun rest => by rw [List.append_assoc]; exact h _

theorem Matches.before (ha : Matches a ts) (hb : Matches b []) : Matches (.seq a b) ts := by
  simpa using ha.seq hb

/-- A function without a name makes a statement, so a statement can begin with the keyword. -/
theorem exists_matches_lambda {t : Token} (ht : t.kind = .fun) :
    ∃ ts, Matches (.ref .statement) (t :: ts) := by
  have hk : Matches (kind .fun) [t] := .token (by simp [ht])
  obtain ⟨ts, hl⟩ : ∃ ts, Matches (all [parameters, kind .leftBrace, body]) ts :=
    exists_matches (by decide)
  obtain ⟨us, hs⟩ : ∃ us, Matches (kind .semicolon) us := exists_matches (by decide)
  have hp : Matches (.ref .primary) ([t] ++ ts) :=
    .ref (.right (.right (.right (.right (.right (.right (.right (.left (.seq hk hl)))))))))
  have hu : Matches (.ref .unary) ([t] ++ ts) := .ref (.right (hp.before .done))
  have ho : Matches logicOr ([t] ++ ts) :=
    (((((hu.before .done).before .done).before .done).before .done).before .done).before .done
  have ha : Matches (.ref .assignment) ([t] ++ ts) :=
    .ref (.before (.ref (ho.before (.right .empty))) (.right .empty))
  exact ⟨ts ++ us, .ref (.right (.right (.right (.right (.right (.right
    ((ha.before .done).seq hs)))))))⟩

end Form

end ScopedScript

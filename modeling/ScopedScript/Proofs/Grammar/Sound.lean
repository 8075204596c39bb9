import ScopedScript.Proofs.Grammar
import ScopedScript.Proofs.Grammar.Tokens

/-!
# What is read is derived

A reader that succeeds has read a phrase of the grammar: the tokens it took off the front
of its input derive the tree it made.  An `else` that could join the statement just read is
not left over, so that every `else` belongs to the nearest `if`.

The readers are made from each other level by level; each has one lemma here, which asks of
the readers it is made from what their own lemmas say.  The six readers that refer back to
each other are put together at the end, by induction on the bound on nesting.

## Main definitions

* `Reader.Reads reader result`: what a reader takes and makes when it succeeds.
* `Reader.Sound depth`: the six readers at a depth read phrases.

## Main results

* `Reader.sound`: they do at every depth.
* `readProgramWithin_sound`, `readExpression_sound`: and so do the readers of whole inputs.
-/

namespace ScopedScript

namespace Reader

variable {α : Type}

/-- **What a reader reads**: where it succeeds, it has taken some tokens off the front, and
`result` holds of what it made, these tokens, and the tokens left. -/
def Reads (reader : Reader α) (result : α → List Token → List Token → Prop) : Prop :=
  ∀ ⦃ts rest : List Token⦄ ⦃a : α⦄, reader ts = .ok a rest →
    ∃ used, ts = used ++ rest ∧ result a used rest

/-- What a reader of a phrase reads. -/
abbrev ReadsPhrase (reader : Reader α) (phrase : α → Phrase) : Prop :=
  Reads reader fun a used _ => Derives true (phrase a) used

/-- What a reader of a statement reads: an `else` that the statement could take is not left
over. -/
def ReadsStatement (reader : Reader Stmt) (phrase : Bool → Stmt → Phrase) : Prop :=
  Reads reader fun s used rest =>
    ∃ dangling, Derives true (phrase dangling s) used ∧
      (dangling = true → ¬ Begins [.else] rest)

/-! ## Lists -/

/-- What is read after an item makes a list together with it. -/
theorem commaTail_sound {item : Reader Expr} (hi : ReadsPhrase item .assignment) {bound : Nat}
    {ts rest : List Token} {es : List Expr} (h : commaTail item bound ts = .ok es rest) :
    ∃ used, ts = used ++ rest ∧ ∀ {e : Expr} {first : List Token},
      Derives true (.assignment e) first → Derives true (.items (e :: es)) (first ++ used) := by
  -- Whatever item was read before the tail: with the tail it makes a list of items.
  induction bound generalizing ts es with
  | zero =>
    obtain ⟨rfl, rfl⟩ := pure_eq_ok_iff.1 h
    exact ⟨[], rfl, fun he => by simpa using .lastItem he⟩
  | succ bound ih =>
    simp only [commaTail, bind_eq_ok_iff] at h
    obtain ⟨b, mid, hb, h⟩ := h
    cases b with
    | false =>
      obtain ⟨rfl, -⟩ := (accept_eq_false_iff (by decide)).1 hb
      obtain ⟨rfl, rfl⟩ := pure_eq_ok_iff.1 h
      exact ⟨[], rfl, fun he => by simpa using .lastItem he⟩
    | true =>
      obtain ⟨comma, rfl, hc⟩ := (accept_eq_true_iff (by decide)).1 hb
      simp only [if_true, bind_eq_ok_iff] at h
      obtain ⟨e, mid', he, es', mid'', hs, h⟩ := h
      obtain ⟨rfl, rfl⟩ := pure_eq_ok_iff.1 h
      obtain ⟨us, rfl, hu⟩ := hi he
      obtain ⟨vs, rfl, hv⟩ := ih hs
      exact ⟨comma :: (us ++ vs), by simp, fun hf => .moreItems hf hc (hv hu)⟩

/-- A list of items is read from items with commas between them. -/
theorem commaList_sound {item : Reader Expr} (hi : ReadsPhrase item .assignment) :
    ReadsPhrase (commaList item) .items := by
  intro ts rest es h
  simp only [commaList, bind_eq_ok_iff] at h
  obtain ⟨e, mid, he, n, mid', hn, es', mid'', hs, h⟩ := h
  obtain ⟨rfl, rfl⟩ := pure_eq_ok_iff.1 h
  obtain ⟨rfl, rfl⟩ := get_eq_ok_iff.1 hn
  obtain ⟨us, rfl, hu⟩ := hi he
  obtain ⟨vs, rfl, hv⟩ := commaTail_sound hi hs
  exact ⟨us ++ vs, by simp, hv hu⟩

/-- One item is an expression, and several are a sequence. -/
theorem expressionOf_sound {item : Reader Expr} (hi : ReadsPhrase item .assignment) :
    ReadsPhrase (expressionOf item) .expression := by
  intro ts rest e h
  obtain ⟨es, hs, rfl⟩ := map_eq_ok_iff.1 h
  obtain ⟨us, rfl, hu⟩ := commaList_sound hi hs
  refine ⟨us, rfl, ?_⟩
  match es, hu with
  | [e], hu => exact .single hu
  | e :: e' :: es, hu => exact .sequence hu
  | [], hu => cases hu

/-- Items up to a closing brace, where `one` holds of each and `all` can be put together
from that. -/
theorem untilBrace_sound {item : Reader α} (one : α → List Token → Prop)
    (all : List α → List Token → Prop) (hi : Reads item fun a used _ => one a used)
    (hnil : all [] [])
    (hcons : ∀ {a as ts us}, one a ts → all as us → all (a :: as) (ts ++ us)) (bound : Nat) :
    Reads (untilBrace item bound) fun as used _ => all as used := by
  induction bound with
  | zero =>
    intro ts rest as h
    obtain ⟨rfl, rfl⟩ := pure_eq_ok_iff.1 h
    exact ⟨[], rfl, hnil⟩
  | succ bound ih =>
    intro ts rest as h
    simp only [untilBrace, bind_eq_ok_iff, peek?_eq_ok_iff] at h
    obtain ⟨next?, _, ⟨-, rfl⟩, h⟩ := h
    split at h
    · obtain ⟨rfl, rfl⟩ := pure_eq_ok_iff.1 h
      exact ⟨[], rfl, hnil⟩
    · simp only [bind_eq_ok_iff] at h
      obtain ⟨a, mid, ha, as', mid', hs, h⟩ := h
      obtain ⟨rfl, rfl⟩ := pure_eq_ok_iff.1 h
      obtain ⟨us, rfl, hu⟩ := hi ha
      obtain ⟨vs, rfl, hv⟩ := ih hs
      exact ⟨us ++ vs, by simp, hcons hu hv⟩

/-- What is read up to a closing brace is what its items are made of, for any property of items that
goes over to lists. -/
theorem braced_sound {item : Reader α} (one : α → List Token → Prop)
    (all : List α → List Token → Prop) (hi : Reads item fun a used _ => one a used)
    (hnil : all [] [])
    (hcons : ∀ {a as ts us}, one a ts → all as us → all (a :: as) (ts ++ us))
    (close : Expectation) :
    Reads (braced item close) fun as used _ =>
      ∃ us closing, used = us ++ [closing] ∧ closing.kind = .rightBrace ∧ all as us := by
  intro ts rest as h
  simp only [braced, bind_eq_ok_iff] at h
  obtain ⟨n, mid, hn, as', mid', hs, t, mid'', ht, h⟩ := h
  obtain ⟨rfl, rfl⟩ := get_eq_ok_iff.1 hn
  obtain ⟨rfl, rfl⟩ := pure_eq_ok_iff.1 h
  obtain ⟨us, rfl, hu⟩ := untilBrace_sound one all hi hnil hcons _ hs
  obtain ⟨rfl, hk⟩ := (expect_eq_ok_iff (by decide)).1 ht
  exact ⟨us ++ [t], by simp, us, t, rfl, hk, hu⟩

/-! ## Operators -/

/-- The levels that a reader of a tier goes through, in the readers' own table. -/
def levelsFrom : Tier → List Level
  | .or => levels
  | .and => levels.drop 1
  | .equality => levels.drop 2
  | .comparison => levels.drop 3
  | .term => levels.drop 4
  | .factor => levels.drop 5

/-- The level of a tier in the readers' own table. -/
def levelOf (tier : Tier) : Level := ⟨tier.operators, tier.join⟩

/-- The levels tighter than a tier. -/
def levelsBelow : Tier → List Level
  | .or => levelsFrom .and
  | .and => levelsFrom .equality
  | .equality => levelsFrom .comparison
  | .comparison => levelsFrom .term
  | .term => levelsFrom .factor
  | .factor => []

theorem levelsFrom_eq (tier : Tier) : levelsFrom tier = levelOf tier :: levelsBelow tier := by
  cases tier <;> rfl

theorem eof_not_mem_operators (tier : Tier) : TokenKind.eof ∉ tier.operators := by
  cases tier <;> decide

/-- What the loop of a level reads behind its first operand makes a phrase of the level together
with it. -/
theorem operatorChain_sound {tier : Tier} {operand : Reader Expr}
    (ho : ReadsPhrase operand tier.operand) {bound : Nat} {left e : Expr}
    {ts rest : List Token}
    (h : operatorChain (levelOf tier) operand bound left ts = .ok e rest) :
    ∃ used, ts = used ++ rest ∧ ∀ {first : List Token},
      Derives true (.tier tier left) first → Derives true (.tier tier e) (first ++ used) := by
  -- The operands read so far are a phrase of the level; each round makes a longer one.
  induction bound generalizing left ts with
  | zero =>
    obtain ⟨rfl, rfl⟩ := pure_eq_ok_iff.1 h
    exact ⟨[], rfl, fun hl => by simpa using hl⟩
  | succ bound ih =>
    simp only [operatorChain, bind_eq_ok_iff] at h
    obtain ⟨op?, mid, hop, h⟩ := h
    cases op? with
    | none =>
      obtain ⟨rfl, -⟩ := (acceptAny?_eq_none_iff (eof_not_mem_operators tier)).1 hop
      obtain ⟨rfl, rfl⟩ := pure_eq_ok_iff.1 h
      exact ⟨[], rfl, fun hl => by simpa using hl⟩
    | some op =>
      obtain ⟨rfl, hk⟩ := (acceptAny?_eq_some_iff (eof_not_mem_operators tier)).1 hop
      simp only [bind_eq_ok_iff] at h
      obtain ⟨right, mid', hr, h⟩ := h
      obtain ⟨us, rfl, hu⟩ := ho hr
      obtain ⟨vs, rfl, hv⟩ := ih h
      refine ⟨op :: (us ++ vs), by simp, fun {first} hl => ?_⟩
      have := hv (.operator hl hk hu)
      simpa using this

/-- One level of operators, given the reader of the levels below it. -/
theorem operators_step {tier : Tier} {operand : Reader Expr}
    (ho : ReadsPhrase (operators operand (levelsBelow tier)) tier.operand) :
    ReadsPhrase (operators operand (levelsFrom tier)) (.tier tier) := by
  intro ts rest e h
  rw [levelsFrom_eq] at h
  simp only [operators, bind_eq_ok_iff] at h
  obtain ⟨left, mid, hl, n, mid', hn, h⟩ := h
  obtain ⟨rfl, rfl⟩ := get_eq_ok_iff.1 hn
  obtain ⟨us, rfl, hu⟩ := ho hl
  obtain ⟨vs, rfl, hv⟩ := operatorChain_sound ho h
  exact ⟨us ++ vs, by simp, hv (.operand hu)⟩

/-- The levels of operators are read from the tightest one outwards. -/
theorem operators_sound {operand : Reader Expr} (ho : ReadsPhrase operand .unary) :
    ReadsPhrase (operators operand levels) (.tier .or) := by
  have factor : ReadsPhrase (operators operand (levelsFrom .factor)) (.tier .factor) :=
    operators_step ho
  have term : ReadsPhrase (operators operand (levelsFrom .term)) (.tier .term) :=
    operators_step factor
  have comparison : ReadsPhrase (operators operand (levelsFrom .comparison))
      (.tier .comparison) := operators_step term
  have equality : ReadsPhrase (operators operand (levelsFrom .equality)) (.tier .equality) :=
    operators_step comparison
  have and : ReadsPhrase (operators operand (levelsFrom .and)) (.tier .and) :=
    operators_step equality
  exact @operators_step .or operand and

/-! ## Calls -/

/-- Arguments are read up to the closing parenthesis, and there are not too many. -/
theorem arguments_sound {item : Reader Expr} (hi : ReadsPhrase item .assignment) :
    Reads (arguments item) fun made used _ =>
      ∃ us, used = us ++ [made.1] ∧ made.1.kind = .rightParen ∧
        made.2.length ≤ maxArity ∧ Derives true (.arguments made.2) us := by
  intro ts rest made h
  simp only [arguments, bind_eq_ok_iff, ite_bind_eq_ok_iff] at h
  obtain ⟨b, mid, hb, args, mid', ha, here, mid'', hh, paren, mid₃, hp, h⟩ := h
  obtain ⟨-, rfl⟩ := (nextIs_eq_ok_iff (by decide)).1 hb
  obtain ⟨rfl, rfl⟩ := get_eq_ok_iff.1 hh
  obtain ⟨rfl, hk⟩ := (expect_eq_ok_iff (by decide)).1 hp
  have hargs : ∃ us, ts = us ++ paren :: mid₃ ∧ Derives true (.arguments args) us := by
    cases b with
    | true =>
      obtain ⟨rfl, rfl⟩ := pure_eq_ok_iff.1 ha
      exact ⟨[], rfl, .noArguments⟩
    | false =>
      obtain ⟨us, rfl, hu⟩ := commaList_sound hi ha
      exact ⟨us, rfl, .someArguments hu⟩
  obtain ⟨us, rfl, hu⟩ := hargs
  split at h
  · simp at h
  · rename_i hm
    obtain ⟨rfl, rfl⟩ := pure_eq_ok_iff.1 h
    exact ⟨us ++ [paren], by simp, us, rfl, hk, Nat.not_lt.1 hm, hu⟩

/-- What the loop of calls reads behind a callee makes a call together with it. -/
theorem applications_sound {item : Reader Expr} (hi : ReadsPhrase item .assignment)
    {bound : Nat} {callee e : Expr} {ts rest : List Token}
    (h : applications item bound callee ts = .ok e rest) :
    ∃ used, ts = used ++ rest ∧ ∀ {first : List Token},
      Derives true (.call callee) first → Derives true (.call e) (first ++ used) := by
  -- The callee read so far is a call; each round applies it or takes a property of it.
  induction bound generalizing callee ts with
  | zero =>
    obtain ⟨rfl, rfl⟩ := pure_eq_ok_iff.1 h
    exact ⟨[], rfl, fun hc => by simpa using hc⟩
  | succ bound ih =>
    simp only [applications, bind_eq_ok_iff] at h
    obtain ⟨b, mid, hb, h⟩ := h
    cases b with
    | true =>
      obtain ⟨left, rfl, hl⟩ := (accept_eq_true_iff (by decide)).1 hb
      simp only [if_true, bind_eq_ok_iff] at h
      obtain ⟨⟨paren, args⟩, mid', ha, h⟩ := h
      obtain ⟨_, rfl, us, rfl, hr, hm, hu⟩ := arguments_sound hi ha
      obtain ⟨vs, rfl, hv⟩ := ih h
      refine ⟨left :: (us ++ [paren] ++ vs), by simp, fun {first} hc => ?_⟩
      simpa using hv (.application hc hl hu hm hr)
    | false =>
      obtain ⟨rfl, -⟩ := (accept_eq_false_iff (by decide)).1 hb
      simp only [Bool.false_eq_true, if_false, bind_eq_ok_iff] at h
      obtain ⟨b, mid', hb, h⟩ := h
      cases b with
      | true =>
        obtain ⟨dot, rfl, hd⟩ := (accept_eq_true_iff (by decide)).1 hb
        simp only [if_true, bind_eq_ok_iff] at h
        obtain ⟨name, mid'', rn, h⟩ := h
        obtain ⟨rfl, hn⟩ := (expect_eq_ok_iff (by decide)).1 rn
        obtain ⟨vs, rfl, hv⟩ := ih h
        refine ⟨dot :: name :: vs, by simp, fun {first} hc => ?_⟩
        simpa using hv (.property hc hd hn)
      | false =>
        obtain ⟨rfl, -⟩ := (accept_eq_false_iff (by decide)).1 hb
        obtain ⟨rfl, rfl⟩ := pure_eq_ok_iff.1 h
        exact ⟨[], rfl, fun hc => by simpa using hc⟩

/-! ## Functions and classes -/

/-- Names with commas between them are read, and not more than there is room for. -/
theorem parameterNames_sound (owner : Owner) (room : Nat) :
    Reads (parameterNames owner room) fun names used _ =>
      Names names used ∧ names.length ≤ room := by
  induction room with
  | zero =>
    intro ts rest names h
    simp only [parameterNames, bind_eq_ok_iff] at h
    obtain ⟨us, mid, -, h⟩ := h
    cases us <;> simp at h
  | succ room ih =>
    intro ts rest names h
    simp only [parameterNames, bind_eq_ok_iff] at h
    obtain ⟨name, mid, rn, b, mid', hb, h⟩ := h
    obtain ⟨rfl, hn⟩ := (expect_eq_ok_iff (by decide)).1 rn
    cases b with
    | true =>
      obtain ⟨comma, rfl, hc⟩ := (accept_eq_true_iff (by decide)).1 hb
      simp only [if_true, bind_eq_ok_iff] at h
      obtain ⟨names', mid'', hs, h⟩ := h
      obtain ⟨rfl, rfl⟩ := pure_eq_ok_iff.1 h
      obtain ⟨us, rfl, hu, hl⟩ := ih hs
      exact ⟨name :: comma :: us, by simp, .more hn hc hu, by simpa using hl⟩
    | false =>
      obtain ⟨rfl, -⟩ := (accept_eq_false_iff (by decide)).1 hb
      obtain ⟨rfl, rfl⟩ := pure_eq_ok_iff.1 h
      exact ⟨[name], by simp, .one hn, by simp⟩

/-- Parameters are read from parentheses with names in them. -/
theorem parameters_sound (owner : Owner) :
    Reads (parameters owner) fun names used _ =>
      ∃ left ps right, used = left :: (ps ++ [right]) ∧ left.kind = .leftParen ∧
        Parameters names ps ∧ right.kind = .rightParen := by
  intro ts rest names h
  simp only [parameters, bind_eq_ok_iff, ite_bind_eq_ok_iff] at h
  obtain ⟨left, mid, rl, b, mid', hb, names', mid'', hs, right, mid₃, rr, h⟩ := h
  obtain ⟨rfl, hl⟩ := (expect_eq_ok_iff (by decide)).1 rl
  obtain ⟨-, rfl⟩ := (nextIs_eq_ok_iff (by decide)).1 hb
  obtain ⟨rfl, hr⟩ := (expect_eq_ok_iff (by decide)).1 rr
  obtain ⟨rfl, rfl⟩ := pure_eq_ok_iff.1 h
  cases b with
  | true =>
    obtain ⟨rfl, rfl⟩ := pure_eq_ok_iff.1 hs
    exact ⟨[left, right], by simp, left, [], right, rfl, hl, .none, hr⟩
  | false =>
    obtain ⟨ps, rfl, hn, hm⟩ := parameterNames_sound owner maxArity hs
    exact ⟨left :: (ps ++ [right]), by simp, left, ps, right, rfl, hl, .some hn hm, hr⟩

/-- The body of a block is read up to the closing brace.  Within braces it does not matter whether
an `else` could follow. -/
theorem blockBody_sound {declaration : Reader Stmt}
    (hd : ReadsStatement declaration .declaration) :
    Reads (blockBody declaration) fun ss used _ =>
      ∃ us closing, used = us ++ [closing] ∧ closing.kind = .rightBrace ∧
        Derives true (.declarations ss) us := by
  refine braced_sound (fun s used => ∃ d, Derives true (.declaration d s) used)
    (fun ss used => Derives true (.declarations ss) used) (fun ts rest s h => ?_)
    .noDeclarations ?_ _
  · obtain ⟨used, rfl, d, h, -⟩ := hd h
    exact ⟨used, rfl, d, h⟩
  · rintro s ss ts us ⟨d, h⟩ hs
    exact .moreDeclarations h hs

/-- A function is read from its name, its parameters and its body. -/
theorem function_sound {declaration : Reader Stmt}
    (hd : ReadsStatement declaration .declaration) (kind : FunctionKind) :
    ReadsPhrase (function declaration kind) .function := by
  intro ts rest f h
  simp only [function, bind_eq_ok_iff] at h
  obtain ⟨name, mid, rn, params, mid', rp, opening, mid'', ro, body, mid₃, hb, h⟩ := h
  obtain ⟨rfl, hn⟩ := (expect_eq_ok_iff (by decide)).1 rn
  obtain ⟨_, rfl, left, ps, right, rfl, hl, hp, hr⟩ := parameters_sound _ rp
  obtain ⟨rfl, ho⟩ := (expect_eq_ok_iff (by decide)).1 ro
  obtain ⟨_, rfl, us, closing, rfl, hc, hu⟩ := blockBody_sound hd hb
  obtain ⟨rfl, rfl⟩ := pure_eq_ok_iff.1 h
  exact ⟨name :: left :: (ps ++ right :: opening :: (us ++ [closing])), by simp,
    .function hn hl hp hr ho hu hc⟩

/-- A lambda is read from what follows its keyword. -/
theorem lambda_sound {declaration : Reader Stmt}
    (hd : ReadsStatement declaration .declaration) {keyword : Token}
    (hk : keyword.kind = .fun) {ts rest : List Token} {e : Expr}
    (h : lambda declaration keyword ts = .ok e rest) :
    ∃ used, ts = used ++ rest ∧ Derives true (.primary e) (keyword :: used) := by
  simp only [lambda, bind_eq_ok_iff] at h
  obtain ⟨params, mid', rp, opening, mid'', ro, body, mid₃, hb, h⟩ := h
  obtain ⟨_, rfl, left, ps, right, rfl, hl, hp, hr⟩ := parameters_sound _ rp
  obtain ⟨rfl, ho⟩ := (expect_eq_ok_iff (by decide)).1 ro
  obtain ⟨_, rfl, us, closing, rfl, hc, hu⟩ := blockBody_sound hd hb
  obtain ⟨rfl, rfl⟩ := pure_eq_ok_iff.1 h
  exact ⟨left :: (ps ++ right :: opening :: (us ++ [closing])), by simp,
    .lambda hk hl hp hr ho hu hc⟩

/-- A class is read from what follows its keyword. -/
theorem classDeclaration_sound {declaration : Reader Stmt}
    (hd : ReadsStatement declaration .declaration) {keyword : Token}
    (hk : keyword.kind = .class) {ts rest : List Token} {s : Stmt}
    (h : classDeclaration declaration ts = .ok s rest) :
    ∃ used, ts = used ++ rest ∧ Derives true (.declaration false s) (keyword :: used) := by
  simp only [classDeclaration, bind_eq_ok_iff] at h
  obtain ⟨name, mid, rn, opening, mid', ro, methods, mid'', hm, h⟩ := h
  obtain ⟨rfl, hn⟩ := (expect_eq_ok_iff (by decide)).1 rn
  obtain ⟨rfl, ho⟩ := (expect_eq_ok_iff (by decide)).1 ro
  obtain ⟨_, rfl, us, closing, rfl, hc, hu⟩ :=
    braced_sound (fun f used => Derives true (.function f) used)
      (fun fs used => Derives true (.functions fs) used) (function_sound hd .method)
      .noFunctions .moreFunctions _ hm
  obtain ⟨rfl, rfl⟩ := pure_eq_ok_iff.1 h
  exact ⟨name :: opening :: (us ++ [closing]), by simp, .class hk hn ho hu hc⟩

/-! ## Statements -/

/-- A variable is read from what follows its keyword. -/
theorem varDeclaration_sound {expression : Reader Expr}
    (he : ReadsPhrase expression .expression) :
    ReadsPhrase (varDeclaration expression) .variable := by
  intro ts rest s h
  simp only [varDeclaration, bind_eq_ok_iff, ite_bind_eq_ok_iff] at h
  obtain ⟨name, mid, rn, b, mid', hb, value, mid'', hv, semicolon, mid₃, rs, h⟩ := h
  obtain ⟨rfl, hn⟩ := (expect_eq_ok_iff (by decide)).1 rn
  obtain ⟨rfl, hs⟩ := (expect_eq_ok_iff (by decide)).1 rs
  obtain ⟨rfl, rfl⟩ := pure_eq_ok_iff.1 h
  cases b with
  | true =>
    obtain ⟨equal, rfl, hq⟩ := (accept_eq_true_iff (by decide)).1 hb
    obtain ⟨e, hr, rfl⟩ := map_eq_ok_iff.1 hv
    obtain ⟨us, rfl, hu⟩ := he hr
    exact ⟨name :: equal :: (us ++ [semicolon]), by simp, .initializedVariable hn hq hu hs⟩
  | false =>
    obtain ⟨rfl, -⟩ := (accept_eq_false_iff (by decide)).1 hb
    obtain ⟨rfl, rfl⟩ := pure_eq_ok_iff.1 hv
    exact ⟨[name, semicolon], by simp, .plainVariable hn hs⟩

/-- An expression statement is read from an expression and a semicolon. -/
theorem expressionStatement_sound {expression : Reader Expr}
    (he : ReadsPhrase expression .expression) :
    Reads (expressionStatement expression) fun s used _ =>
      ∃ e us semicolon, s = .expression e ∧ used = us ++ [semicolon] ∧
        Derives true (.expression e) us ∧ semicolon.kind = .semicolon := by
  intro ts rest s h
  simp only [expressionStatement, bind_eq_ok_iff] at h
  obtain ⟨e, mid, hr, semicolon, mid', rs, h⟩ := h
  obtain ⟨us, rfl, hu⟩ := he hr
  obtain ⟨rfl, hs⟩ := (expect_eq_ok_iff (by decide)).1 rs
  obtain ⟨rfl, rfl⟩ := pure_eq_ok_iff.1 h
  exact ⟨us ++ [semicolon], by simp, e, us, semicolon, rfl, rfl, hu, hs⟩

theorem printStatement_sound {expression : Reader Expr}
    (he : ReadsPhrase expression .expression) {keyword : Token} (hk : keyword.kind = .print)
    {ts rest : List Token} {s : Stmt} (h : printStatement expression ts = .ok s rest) :
    ∃ used, ts = used ++ rest ∧ Derives true (.statement false s) (keyword :: used) := by
  simp only [printStatement, bind_eq_ok_iff] at h
  obtain ⟨e, mid, hr, semicolon, mid', rs, h⟩ := h
  obtain ⟨us, rfl, hu⟩ := he hr
  obtain ⟨rfl, hs⟩ := (expect_eq_ok_iff (by decide)).1 rs
  obtain ⟨rfl, rfl⟩ := pure_eq_ok_iff.1 h
  exact ⟨us ++ [semicolon], by simp, .print hk hu hs⟩

/-- An expression that is read unless the input goes on in a certain way. -/
theorem optional_sound {expression : Reader Expr} (he : ReadsPhrase expression .expression)
    (b : Bool) :
    ReadsPhrase (if b then pure none else some <$> expression) .optional := by
  intro ts rest value h
  cases b with
  | true =>
    obtain ⟨rfl, rfl⟩ := pure_eq_ok_iff.1 h
    exact ⟨[], rfl, .absent⟩
  | false =>
    obtain ⟨e, hr, rfl⟩ := map_eq_ok_iff.1 h
    obtain ⟨us, rfl, hu⟩ := he hr
    exact ⟨us, rfl, .present hu⟩

theorem returnStatement_sound {expression : Reader Expr}
    (he : ReadsPhrase expression .expression) {keyword : Token} (hk : keyword.kind = .return)
    {ts rest : List Token} {s : Stmt}
    (h : returnStatement expression keyword ts = .ok s rest) :
    ∃ used, ts = used ++ rest ∧ Derives true (.statement false s) (keyword :: used) := by
  simp only [returnStatement, bind_eq_ok_iff, ite_bind_eq_ok_iff] at h
  obtain ⟨b, mid, hb, value, mid', hv, semicolon, mid'', rs, h⟩ := h
  obtain ⟨-, rfl⟩ := (nextIs_eq_ok_iff (by decide)).1 hb
  obtain ⟨us, rfl, hu⟩ := optional_sound he b hv
  obtain ⟨rfl, hs⟩ := (expect_eq_ok_iff (by decide)).1 rs
  obtain ⟨rfl, rfl⟩ := pure_eq_ok_iff.1 h
  exact ⟨us ++ [semicolon], by simp, .return hk hu hs⟩

/-- A loop can take an `else` exactly if its body can. -/
theorem whileStatement_sound {expression : Reader Expr} {statement : Reader Stmt}
    (he : ReadsPhrase expression .expression) (hst : ReadsStatement statement .statement)
    {keyword : Token} (hk : keyword.kind = .while) {ts rest : List Token} {s : Stmt}
    (h : whileStatement expression statement ts = .ok s rest) :
    ∃ used, ts = used ++ rest ∧ ∃ dangling,
      Derives true (.statement dangling s) (keyword :: used) ∧
      (dangling = true → ¬ Begins [.else] rest) := by
  simp only [whileStatement, bind_eq_ok_iff] at h
  obtain ⟨left, mid, rl, c, mid', hc, right, mid'', rr, body, mid₃, hb, h⟩ := h
  obtain ⟨rfl, hl⟩ := (expect_eq_ok_iff (by decide)).1 rl
  obtain ⟨us, rfl, hu⟩ := he hc
  obtain ⟨rfl, hr⟩ := (expect_eq_ok_iff (by decide)).1 rr
  obtain ⟨vs, rfl, d, hv, hd⟩ := hst hb
  obtain ⟨rfl, rfl⟩ := pure_eq_ok_iff.1 h
  exact ⟨left :: (us ++ right :: vs), by simp, d, .while hk hl hu hr hv, hd⟩

/-- A first branch that an `else` follows was not left open. -/
theorem ifStatement_sound {expression : Reader Expr} {statement : Reader Stmt}
    (he : ReadsPhrase expression .expression) (hst : ReadsStatement statement .statement)
    {keyword : Token} (hk : keyword.kind = .if) {ts rest : List Token} {s : Stmt}
    (h : ifStatement expression statement ts = .ok s rest) :
    ∃ used, ts = used ++ rest ∧ ∃ dangling,
      Derives true (.statement dangling s) (keyword :: used) ∧
      (dangling = true → ¬ Begins [.else] rest) := by
  simp only [ifStatement, bind_eq_ok_iff, ite_bind_eq_ok_iff] at h
  obtain ⟨left, mid, rl, c, mid', hc, right, mid'', rr, a, mid₃, ha, b, mid₄, hb, other?, mid₅,
    ho, h⟩ := h
  obtain ⟨rfl, hl⟩ := (expect_eq_ok_iff (by decide)).1 rl
  obtain ⟨us, rfl, hu⟩ := he hc
  obtain ⟨rfl, hr⟩ := (expect_eq_ok_iff (by decide)).1 rr
  obtain ⟨vs, rfl, d, hv, hd⟩ := hst ha
  obtain ⟨rfl, rfl⟩ := pure_eq_ok_iff.1 h
  cases b with
  | true =>
    -- the first branch was not left open, since an `else` follows it
    obtain ⟨other, rfl, hother⟩ := (accept_eq_true_iff (by decide)).1 hb
    obtain ⟨s, hs, rfl⟩ := map_eq_ok_iff.1 ho
    obtain ⟨ws, rfl, d', hw, hd'⟩ := hst hs
    have hclosed : d = false := by
      cases d with
      | false => rfl
      | true => exact absurd (by simp [hother]) (hd rfl)
    exact ⟨left :: (us ++ right :: (vs ++ other :: ws)), by simp, d',
      .ifElse hk hl hu hr hv (fun _ => hclosed) hother hw, hd'⟩
  | false =>
    obtain ⟨rfl, hn⟩ := (accept_eq_false_iff (by decide)).1 hb
    obtain ⟨rfl, rfl⟩ := pure_eq_ok_iff.1 ho
    exact ⟨left :: (us ++ right :: vs), by simp, true, .ifOnly hk hl hu hr hv, fun _ => hn⟩

/-- The first part of a `for` statement is a declaration, an expression or nothing. -/
theorem forInitializer_sound {expression : Reader Expr}
    (he : ReadsPhrase expression .expression) :
    ReadsPhrase (forInitializer expression) .initializer := by
  intro ts rest first h
  simp only [forInitializer, bind_eq_ok_iff] at h
  obtain ⟨b, mid, hb, h⟩ := h
  cases b with
  | true =>
    obtain ⟨semicolon, rfl, hs⟩ := (accept_eq_true_iff (by decide)).1 hb
    obtain ⟨rfl, rfl⟩ := pure_eq_ok_iff.1 h
    exact ⟨[semicolon], rfl, .noInitializer hs⟩
  | false =>
    obtain ⟨rfl, -⟩ := (accept_eq_false_iff (by decide)).1 hb
    simp only [Bool.false_eq_true, if_false, bind_eq_ok_iff] at h
    obtain ⟨b, mid', hb', h⟩ := h
    cases b with
    | true =>
      obtain ⟨keyword, rfl, hk⟩ := (accept_eq_true_iff (by decide)).1 hb'
      obtain ⟨s, hs, rfl⟩ := map_eq_ok_iff.1 h
      obtain ⟨us, rfl, hu⟩ := varDeclaration_sound he hs
      exact ⟨keyword :: us, by simp, .variableInitializer hk hu⟩
    | false =>
      obtain ⟨rfl, -⟩ := (accept_eq_false_iff (by decide)).1 hb'
      obtain ⟨s, hs, rfl⟩ := map_eq_ok_iff.1 h
      obtain ⟨_, rfl, e, us, semicolon, rfl, rfl, hu, hs⟩ := expressionStatement_sound he hs
      exact ⟨us ++ [semicolon], rfl, .expressionInitializer hu hs⟩

/-- The tree that the reader makes of a `for` statement is the one that the grammar says. -/
theorem forTree_eq_forLoop (first : Option Stmt) (condition : Expr) (step : Option Expr)
    (body : Stmt) : forTree first condition step body = forLoop first condition step body := by
  cases first <;> cases step <;> rfl

/-- **The parts of a for statement**, as they are read. -/
theorem forStatement_parts {expression : Reader Expr} {statement : Reader Stmt}
    (he : ReadsPhrase expression .expression) (hst : ReadsStatement statement .statement)
    {tokens rest : List Token} {s : Stmt}
    (h : forStatement expression statement tokens = .ok s rest) :
    ∃ (first : Option Stmt) (condition step : Option Expr) (body : Stmt) (dangling : Bool)
      (left semicolon right : Token) (ts us vs ws : List Token),
      tokens = left :: (ts ++ (us ++ semicolon :: (vs ++ right :: ws))) ++ rest ∧
        s = forLoop first (condition.getD (.literal (.bool true))) step body ∧
        left.kind = .leftParen ∧ Derives true (.initializer first) ts ∧
        Derives true (.optional condition) us ∧ semicolon.kind = .semicolon ∧
        Derives true (.optional step) vs ∧ right.kind = .rightParen ∧
        Derives true (.statement dangling body) ws ∧ (dangling = true → ¬ Begins [.else] rest) := by
  simp only [forStatement, bind_eq_ok_iff, ite_bind_eq_ok_iff] at h
  obtain ⟨left, mid, rl, first, mid', hf, b, mid'', hb, c, mid₃, hc, semicolon, mid₄, rs, b',
    mid₅, hb', step, mid₆, hi, right, mid₇, rr, body, mid₈, hbody, h⟩ := h
  obtain ⟨rfl, hl⟩ := (expect_eq_ok_iff (by decide)).1 rl
  obtain ⟨us, rfl, hu⟩ := forInitializer_sound he hf
  obtain ⟨-, rfl⟩ := (nextIs_eq_ok_iff (by decide)).1 hb
  have hcond : ∃ condition : Option Expr, c = condition.getD (.literal (.bool true)) ∧
      ∃ vs, mid' = vs ++ mid₃ ∧ Derives true (.optional condition) vs := by
    cases b with
    | true =>
      obtain ⟨rfl, rfl⟩ := pure_eq_ok_iff.1 hc
      exact ⟨none, rfl, [], rfl, .absent⟩
    | false =>
      obtain ⟨vs, rfl, hv⟩ := he hc
      exact ⟨some c, rfl, vs, rfl, .present hv⟩
  obtain ⟨condition, rfl, vs, rfl, hv⟩ := hcond
  obtain ⟨rfl, hs⟩ := (expect_eq_ok_iff (by decide)).1 rs
  obtain ⟨-, rfl⟩ := (nextIs_eq_ok_iff (by decide)).1 hb'
  obtain ⟨ws, rfl, hw⟩ := optional_sound he b' hi
  obtain ⟨rfl, hr⟩ := (expect_eq_ok_iff (by decide)).1 rr
  obtain ⟨xs, rfl, d, hx, hd⟩ := hst hbody
  obtain ⟨rfl, rfl⟩ := pure_eq_ok_iff.1 h
  exact ⟨first, condition, step, body, d, left, semicolon, right, us, vs, ws, xs, by simp, rfl, hl,
    hu, hv, hs, hw, hr, hx, hd⟩

/-- A `for` statement is read from what follows its keyword, and ends in its body. -/
theorem forStatement_sound {expression : Reader Expr} {statement : Reader Stmt}
    (he : ReadsPhrase expression .expression) (hst : ReadsStatement statement .statement)
    {keyword : Token} (hk : keyword.kind = .for) {ts rest : List Token} {s : Stmt}
    (h : forStatement expression statement ts = .ok s rest) :
    ∃ used, ts = used ++ rest ∧ ∃ dangling,
      Derives true (.statement dangling s) (keyword :: used) ∧
      (dangling = true → ¬ Begins [.else] rest) := by
  obtain ⟨first, condition, step, body, d, left, semicolon, right, us, vs, ws, xs, rfl, rfl, hl, hu,
    hv, hs, hw, hr, hx, hd⟩ := forStatement_parts he hst h
  refine ⟨_, rfl, d, ?_, hd⟩
  rw [← forTree_eq_forLoop]
  exact .for hk hl hu hv hs hw hr hx

/-! ## Assignment targets

The target of an assignment is read like any other expression and judged afterwards by its
tree.  A tree that is a variable or a property can only have come from the right tokens. -/

/-- A phrase of a level whose tree no operator of the level made is an operand. -/
theorem operand_of_tier {nearest : Bool} {level : Tier} {e : Expr} {ts : List Token}
    (h : Derives nearest (.tier level e) ts) (hj : ∀ left op right, e ≠ level.join left op right) :
    Derives nearest (level.operand e) ts := by
  generalize hp : Phrase.tier level e = p at h
  cases h with
  | operand h =>
    cases hp
    exact h
  | operator hl ho hr =>
    cases hp
    exact absurd rfl (hj _ _ _)
  | _ => cases hp

/-- A conditional-level phrase whose tree is made by none of the operators is a call. -/
theorem call_of_ternary {nearest : Bool} {e : Expr} {ts : List Token}
    (h : Derives nearest (.ternary e) ts) (hc : ∀ c a b, e ≠ .conditional c a b)
    (hl : ∀ left op right, e ≠ .logical left op right)
    (hb : ∀ left op right, e ≠ .binary left op right) (hu : ∀ op operand, e ≠ .unary op operand) :
    Derives nearest (.call e) ts := by
  have hor : Derives nearest (.tier .or e) ts := by
    cases h with
    | conditional => exact absurd rfl (hc _ _ _)
    | noConditional h => exact h
  -- each level adds nothing to a tree that its operators do not make
  have hand : Derives nearest (.tier .and e) ts := operand_of_tier hor hl
  have hequality : Derives nearest (.tier .equality e) ts := operand_of_tier hand hl
  have hcomparison : Derives nearest (.tier .comparison e) ts := operand_of_tier hequality hb
  have hterm : Derives nearest (.tier .term e) ts := operand_of_tier hcomparison hb
  have hfactor : Derives nearest (.tier .factor e) ts := operand_of_tier hterm hb
  have hunary : Derives nearest (.unary e) ts := operand_of_tier hfactor hb
  cases hunary with
  | unaryOperator => exact absurd rfl (hu _ _)
  | noUnary h => exact h

/-- A variable is a phrase of one token only: its name. -/
theorem variable_of_ternary {nearest : Bool} {name : Token} {hops : Option Int}
    {scopes : List Scope} {ts : List Token}
    (h : Derives nearest (.ternary (.variable name hops scopes)) ts) :
    ts = [name] ∧ name.kind = .identifier := by
  have hcall := call_of_ternary h (by simp) (by simp) (by simp) (by simp)
  cases hcall with
  | noCall hprimary =>
    cases hprimary with
    | name hn => exact ⟨rfl, hn⟩

/-- A property is a call that ends in a dot and its name. -/
theorem property_of_ternary {nearest : Bool} {object : Expr} {name : Token} {ts : List Token}
    (h : Derives nearest (.ternary (.get object name)) ts) :
    ∃ us dot, ts = us ++ [dot, name] ∧ Derives nearest (.call object) us ∧ dot.kind = .dot ∧
      name.kind = .identifier := by
  have hcall := call_of_ternary h (by simp) (by simp) (by simp) (by simp)
  cases hcall with
  | noCall h => cases h
  | property ho hd hn => exact ⟨_, _, rfl, ho, hd, hn⟩

/-! ## The readers that refer back to each other -/

/-- **The six readers at a depth read phrases.** -/
structure Sound (depth : Nat) : Prop where
  assignment : ReadsPhrase (assignment depth) .assignment
  ternary : ReadsPhrase (ternary depth) .ternary
  unary : ReadsPhrase (unary depth) .unary
  primary : ReadsPhrase (primary depth) .primary
  statement : ReadsStatement (statement depth) .statement
  declaration : ReadsStatement (declaration depth) .declaration

/-- What was read as the target says what is assigned, if anything. -/
theorem assignment_sound {depth : Nat} (ih : Sound depth) :
    ReadsPhrase (assignment (depth + 1)) .assignment := by
  intro ts rest e h
  simp only [assignment, bind_eq_ok_iff] at h
  obtain ⟨target, mid, ht, here, mid', hh, b, mid'', hb, h⟩ := h
  obtain ⟨rfl, rfl⟩ := get_eq_ok_iff.1 hh
  obtain ⟨us, rfl, hu⟩ := ih.ternary ht
  cases b with
  | false =>
    obtain ⟨rfl, -⟩ := (accept_eq_false_iff (by decide)).1 hb
    obtain ⟨rfl, rfl⟩ := pure_eq_ok_iff.1 h
    exact ⟨us, rfl, .noAssignment hu⟩
  | true =>
    obtain ⟨equal, rfl, he⟩ := (accept_eq_true_iff (by decide)).1 hb
    simp only [if_true, bind_eq_ok_iff] at h
    obtain ⟨value, mid₃, hv, h⟩ := h
    obtain ⟨vs, rfl, hvs⟩ := ih.assignment hv
    split at h
    · obtain ⟨rfl, rfl⟩ := pure_eq_ok_iff.1 h
      obtain ⟨rfl, hn⟩ := variable_of_ternary hu
      exact ⟨_ :: equal :: vs, by simp, .assignVariable hn he hvs⟩
    · obtain ⟨rfl, rfl⟩ := pure_eq_ok_iff.1 h
      obtain ⟨ws, dot, rfl, ho, hd, hn⟩ := property_of_ternary hu
      exact ⟨ws ++ dot :: _ :: equal :: vs, by simp, .assignProperty ho hd hn he hvs⟩
    · simp at h

theorem ternary_sound {depth : Nat} (ih : Sound depth) :
    ReadsPhrase (ternary (depth + 1)) .ternary := by
  intro ts rest e h
  simp only [ternary, bind_eq_ok_iff] at h
  obtain ⟨c, mid, hc, b, mid', hb, h⟩ := h
  obtain ⟨us, rfl, hu⟩ := operators_sound ih.unary hc
  cases b with
  | false =>
    obtain ⟨rfl, -⟩ := (accept_eq_false_iff (by decide)).1 hb
    obtain ⟨rfl, rfl⟩ := pure_eq_ok_iff.1 h
    exact ⟨us, rfl, .noConditional hu⟩
  | true =>
    obtain ⟨question, rfl, hq⟩ := (accept_eq_true_iff (by decide)).1 hb
    simp only [if_true, bind_eq_ok_iff] at h
    obtain ⟨a, mid'', ra, colon, mid₃, rk, b, mid₄, rb, h⟩ := h
    obtain ⟨vs, rfl, hv⟩ := ih.ternary ra
    obtain ⟨rfl, hk⟩ := (expect_eq_ok_iff (by decide)).1 rk
    obtain ⟨ws, rfl, hw⟩ := ih.ternary rb
    obtain ⟨rfl, rfl⟩ := pure_eq_ok_iff.1 h
    exact ⟨us ++ question :: (vs ++ colon :: ws), by simp, .conditional hu hq hv hk hw⟩

/-- Prefix operators are read first, and then a call with all that is applied to it. -/
theorem unary_sound {depth : Nat} (ih : Sound depth) :
    ReadsPhrase (unary (depth + 1)) .unary := by
  intro ts rest e h
  simp only [unary, bind_eq_ok_iff] at h
  obtain ⟨op?, mid, hop, h⟩ := h
  cases op? with
  | some op =>
    obtain ⟨rfl, ho⟩ := (acceptAny?_eq_some_iff (by decide)).1 hop
    simp only [bind_eq_ok_iff] at h
    obtain ⟨operand, mid', hr, h⟩ := h
    obtain ⟨us, rfl, hu⟩ := ih.unary hr
    obtain ⟨rfl, rfl⟩ := pure_eq_ok_iff.1 h
    exact ⟨op :: us, by simp, .unaryOperator ho hu⟩
  | none =>
    obtain ⟨rfl, -⟩ := (acceptAny?_eq_none_iff (by decide)).1 hop
    simp only [bind_eq_ok_iff] at h
    obtain ⟨callee, mid', hc, n, mid'', hn, h⟩ := h
    obtain ⟨rfl, rfl⟩ := get_eq_ok_iff.1 hn
    obtain ⟨us, rfl, hu⟩ := ih.primary hc
    obtain ⟨vs, rfl, hv⟩ := applications_sound ih.assignment h
    exact ⟨us ++ vs, by simp, .noUnary (hv (.noCall hu))⟩

/-- The token that is peeked at stands first. -/
theorem peek?_eq_some {ts rest : List Token} {t : Token} (h : peek? ts = .ok (some t) rest) :
    ts = rest ∧ ∃ us, ts = t :: us := by
  obtain ⟨ht, rfl⟩ := peek?_eq_ok_iff.1 h
  refine ⟨rfl, ?_⟩
  cases ts with
  | nil => simp at ht
  | cons t' us =>
    by_cases ha : atEnd (t' :: us) = true
    · simp [ha] at ht
    · simp only [ha, List.head?_cons] at ht
      cases ht
      exact ⟨us, rfl⟩

/-- The next token decides which primary expression is read. -/
theorem primary_sound {depth : Nat} (ih : Sound depth) :
    ReadsPhrase (primary (depth + 1)) .primary := by
  intro ts rest e h
  simp only [primary, bind_eq_ok_iff] at h
  obtain ⟨t?, mid, ht, h⟩ := h
  cases t? with
  | none => simp at h
  | some t =>
    obtain ⟨rfl, us, rfl⟩ := peek?_eq_some ht
    dsimp only at h
    generalize hk : t.kind = kind at h
    split at h
    case h_8 hk =>
      simp only [bind_eq_ok_iff, skip_eq_ok_iff, List.tail_cons] at h
      obtain ⟨_, _, rfl, h⟩ := h
      obtain ⟨vs, rfl, hv⟩ := lambda_sound ih.declaration hk h
      exact ⟨t :: vs, by simp, hv⟩
    case h_9 hk =>
      simp only [bind_eq_ok_iff, skip_eq_ok_iff, List.tail_cons] at h
      obtain ⟨_, _, rfl, e, mid', he, right, mid'', rr, h⟩ := h
      obtain ⟨vs, rfl, hv⟩ := expressionOf_sound ih.assignment he
      obtain ⟨rfl, hr⟩ := (expect_eq_ok_iff (by decide)).1 rr
      obtain ⟨rfl, rfl⟩ := pure_eq_ok_iff.1 h
      exact ⟨t :: (vs ++ [right]), by simp, .group hk hv hr⟩
    case h_10 => simp at h
    all_goals
      rename_i hk
      simp only [bind_eq_ok_iff, skip_eq_ok_iff, List.tail_cons, pure_eq_ok_iff] at h
      obtain ⟨_, _, rfl, rfl, rfl⟩ := h
      refine ⟨[t], rfl, ?_⟩
    · exact .falseLiteral hk
    · exact .trueLiteral hk
    · exact .nilLiteral hk
    · exact .literal (by simp [hk])
    · exact .literal (by simp [hk])
    · exact .this hk
    · exact .name hk

theorem expressionStatement_reads {expression : Reader Expr}
    (he : ReadsPhrase expression .expression) :
    ReadsStatement (expressionStatement expression) .statement := by
  intro ts rest s h
  obtain ⟨_, rfl, e, us, semicolon, rfl, rfl, hu, hs⟩ := expressionStatement_sound he h
  exact ⟨_, rfl, false, .expressionStatement hu hs, by simp⟩

/-- The next token decides which statement is read, and where it is no keyword, an expression. -/
theorem statement_sound {depth : Nat} (ih : Sound depth) :
    ReadsStatement (statement (depth + 1)) .statement := by
  have he := expressionOf_sound ih.assignment
  intro ts rest s h
  simp only [statement, bind_eq_ok_iff] at h
  obtain ⟨t?, mid, ht, h⟩ := h
  cases t? with
  | none =>
    obtain ⟨-, rfl⟩ := peek?_eq_ok_iff.1 ht
    exact expressionStatement_reads he h
  | some t =>
    obtain ⟨rfl, us, rfl⟩ := peek?_eq_some ht
    dsimp only at h
    generalize hk : t.kind = kind at h
    split at h
    case h_7 => exact expressionStatement_reads he h
    all_goals
      simp only [bind_eq_ok_iff, skip_eq_ok_iff, List.tail_cons] at h
      obtain ⟨_, _, rfl, h⟩ := h
    case h_1 =>
      obtain ⟨vs, rfl, d, hv, hd⟩ := forStatement_sound he ih.statement hk h
      exact ⟨t :: vs, by simp, d, hv, hd⟩
    case h_2 =>
      obtain ⟨vs, rfl, d, hv, hd⟩ := ifStatement_sound he ih.statement hk h
      exact ⟨t :: vs, by simp, d, hv, hd⟩
    case h_3 =>
      obtain ⟨vs, rfl, hv⟩ := printStatement_sound he hk h
      exact ⟨t :: vs, by simp, false, hv, by simp⟩
    case h_4 =>
      obtain ⟨vs, rfl, hv⟩ := returnStatement_sound he hk h
      exact ⟨t :: vs, by simp, false, hv, by simp⟩
    case h_5 =>
      obtain ⟨vs, rfl, d, hv, hd⟩ := whileStatement_sound he ih.statement hk h
      exact ⟨t :: vs, by simp, d, hv, hd⟩
    case h_6 =>
      obtain ⟨ss, mid, hs, h⟩ := h
      obtain ⟨rfl, rfl⟩ := pure_eq_ok_iff.1 h
      obtain ⟨_, rfl, vs, closing, rfl, hc, hv⟩ := blockBody_sound ih.declaration hs
      exact ⟨t :: (vs ++ [closing]), by simp, false, .block hk hv hc, by simp⟩

theorem startsFunction_eq_true {ts : List Token} (h : startsFunction ts = true) :
    ∃ keyword us, ts = keyword :: us ∧ keyword.kind = .fun := by
  unfold startsFunction at h
  split at h
  · simp only [Bool.and_eq_true, beq_iff_eq] at h
    exact ⟨_, _, rfl, h.1⟩
  · simp at h

/-- A function is declared only where a name comes after the keyword; otherwise it is a lambda. -/
theorem declaration_sound {depth : Nat} (ih : Sound depth) :
    ReadsStatement (declaration (depth + 1)) .declaration := by
  intro ts rest s h
  simp only [declaration, bind_eq_ok_iff] at h
  obtain ⟨b, mid, hb, h⟩ := h
  cases b with
  | true =>
    obtain ⟨keyword, rfl, hk⟩ := (accept_eq_true_iff (by decide)).1 hb
    obtain ⟨us, rfl, hu⟩ := classDeclaration_sound ih.declaration hk h
    exact ⟨keyword :: us, by simp, false, hu, by simp⟩
  | false =>
    obtain ⟨rfl, -⟩ := (accept_eq_false_iff (by decide)).1 hb
    simp only [Bool.false_eq_true, if_false, bind_eq_ok_iff] at h
    obtain ⟨_, _, hg, h⟩ := h
    obtain ⟨rfl, rfl⟩ := get_eq_ok_iff.1 hg
    -- `fun` begins a function only before a name, otherwise a lambda in a statement
    split at h
    · rename_i hf
      obtain ⟨keyword, us, rfl, hk⟩ := startsFunction_eq_true hf
      simp only [bind_eq_ok_iff, skip_eq_ok_iff, List.tail_cons] at h
      obtain ⟨_, _, rfl, f, mid, hr, h⟩ := h
      obtain ⟨rfl, rfl⟩ := pure_eq_ok_iff.1 h
      obtain ⟨vs, rfl, hv⟩ := function_sound ih.declaration .function hr
      exact ⟨keyword :: vs, by simp, false, .functionDeclaration hk hv, by simp⟩
    · simp only [bind_eq_ok_iff] at h
      obtain ⟨b, mid', hb', h⟩ := h
      cases b with
      | true =>
        obtain ⟨keyword, rfl, hk⟩ := (accept_eq_true_iff (by decide)).1 hb'
        obtain ⟨us, rfl, hu⟩ := varDeclaration_sound (expressionOf_sound ih.assignment) h
        exact ⟨keyword :: us, by simp, false, .variableDeclaration hk hu, by simp⟩
      | false =>
        obtain ⟨rfl, -⟩ := (accept_eq_false_iff (by decide)).1 hb'
        obtain ⟨us, rfl, d, hu, hd⟩ := ih.statement h
        exact ⟨us, rfl, d, .statementDeclaration hu, hd⟩

/-- **What is read is derived**, at every depth. -/
theorem sound (depth : Nat) : Sound depth := by
  induction depth with
  | zero =>
    constructor <;> intro ts rest a h
    · simp [assignment] at h
    · simp [ternary] at h
    · simp [unary] at h
    · simp [primary] at h
    · simp [statement] at h
    · simp [declaration] at h
  | succ depth ih =>
    exact ⟨assignment_sound ih, ternary_sound ih, unary_sound ih, primary_sound ih,
      statement_sound ih, declaration_sound ih⟩

end Reader

/-! ## Whole inputs -/

/-- An expression that is read as a whole input ends where the input ends. -/
theorem readExpression_sound {tokens rest : List Token} {e : Expr}
    (h : readExpression tokens = .ok e rest) :
    ∃ used, tokens = used ++ rest ∧ atEnd rest = true ∧ Derives true (.expression e) used := by
  simp only [readExpression, bind_eq_ok_iff] at h
  obtain ⟨_, _, hg, e', mid, he, _, _, hg', h⟩ := h
  obtain ⟨rfl, rfl⟩ := get_eq_ok_iff.1 hg
  obtain ⟨rfl, rfl⟩ := get_eq_ok_iff.1 hg'
  obtain ⟨us, rfl, hu⟩ := Reader.expressionOf_sound (Reader.sound _).assignment he
  split at h
  · rename_i ha
    obtain ⟨rfl, rfl⟩ := pure_eq_ok_iff.1 h
    exact ⟨us, rfl, ha, hu⟩
  · simp at h

/-- Every statement of a program that is read without an error is derived from the tokens
it was read from. -/
theorem readProgramWithin_sound {depth bound : Nat} {tokens : List Token}
    (hh : (readProgramWithin depth bound tokens).halt = none)
    (he : (readProgramWithin depth bound tokens).errors = []) :
    ∃ used, tokens = used ++ (readProgramWithin depth bound tokens).rest ∧
      Derives true (.declarations (readProgramWithin depth bound tokens).statements) used := by
  induction bound generalizing tokens with
  | zero => exact ⟨[], rfl, .noDeclarations⟩
  | succ bound ih =>
    simp only [readProgramWithin] at hh he ⊢
    by_cases ha : atEnd tokens = true
    · simp only [ha, if_true]
      exact ⟨[], rfl, .noDeclarations⟩
    · simp only [ha, Bool.false_eq_true, if_false] at hh he ⊢
      cases hd : Reader.declaration depth tokens with
      | ok s mid =>
        rw [hd] at hh he
        obtain ⟨us, rfl, d, hu, -⟩ := (Reader.sound depth).declaration hd
        obtain ⟨vs, hm, hv⟩ := ih hh he
        refine ⟨us ++ vs, ?_, .moreDeclarations hu hv⟩
        rw [List.append_assoc, ← hm]
      | error failure mid =>
        -- a declaration that is not read leaves an error or a halt, and there is none
        rw [hd] at hh he
        cases failure with
        | error e => simp at he
        | halt h => simp at hh

end ScopedScript

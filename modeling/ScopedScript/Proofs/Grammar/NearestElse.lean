import ScopedScript.Proofs.Grammar

/-!
# The nearest `if` can always have the `else`

The grammar as it is written leaves open which `if` an `else` belongs to.  Giving every
`else` to the nearest open `if` does not lose a program: tokens that are a phrase in any way
are also the phrase of the same kind in which each `else` belongs to the nearest `if`, if
with another tree.

The point is an `if` with an `else` whose first branch could have taken that `else`.  Then
the branch takes it, at its innermost open `if`, and the outer `if` has none.

## Main definitions

* `Phrase.Regroups p tokens`: the tokens are a phrase of the kind of `p` in which each
  `else` belongs to the nearest `if`.

## Main results

* `Derives.attachElse`: a statement that could take an `else` takes it.
* `Derives.regroups`: every phrase of the grammar regroups.
-/

namespace ScopedScript

/-- **A statement that could take an `else` takes it.** -/
theorem Derives.attachElse {a b : Stmt} {d : Bool} {other : Token} {us vs : List Token}
    (h : Derives true (.statement true a) us) (he : other.kind = .else)
    (hb : Derives true (.statement d b) vs) :
    ∃ d s, Derives true (.statement d s) (us ++ other :: vs) := by
  -- Induction on the derivation; only the phrases that end in an open `if` can be `p`.
  generalize hp : Phrase.statement true a = p at h
  induction h generalizing a with
  | «while» hk hl hc hr _ _ ih =>
    cases hp
    obtain ⟨d, s, hs⟩ := ih rfl
    exact ⟨d, .loop _ s, by simpa using .while hk hl hc hr hs⟩
  | «for» hk hl hf hc hs hi hr _ _ _ _ ih =>
    simp only [Phrase.statement.injEq] at hp
    obtain ⟨rfl, -⟩ := hp
    obtain ⟨d, s, hb⟩ := ih rfl
    exact ⟨d, _, by simpa using Derives.for hk hl hf hc hs hi hr hb⟩
  | @ifOnly _ _ d _ _ _ _ _ hk hl hc hr ha _ ih =>
    cases d with
    | true =>
      -- the branch is open itself, so its own innermost `if` is nearer
      obtain ⟨d, s, hs⟩ := ih rfl
      exact ⟨true, .branch _ s none, by simpa using .ifOnly hk hl hc hr hs⟩
    | false =>
      -- the branch is closed, so this `if` is the nearest open one
      exact ⟨_, .branch _ _ (some b), by simpa using .ifElse hk hl hc hr ha (fun _ => rfl) he hb⟩
  | ifElse hk hl hc hr ha hd he' _ _ _ ih =>
    cases hp
    obtain ⟨d, s, hs⟩ := ih rfl
    exact ⟨d, .branch _ _ (some s), by simpa using .ifElse hk hl hc hr ha hd he' hs⟩
  | _ => cases hp

/-- **The tokens are a phrase of the same kind** in which each `else` belongs to the nearest
`if`.  Lists of arguments keep their length, on which the grammar has a bound. -/
def Phrase.Regroups : Phrase → List Token → Prop
  | expression _, ts => ∃ e, Derives true (.expression e) ts
  | items es, ts => ∃ es', es'.length = es.length ∧ Derives true (.items es') ts
  | assignment _, ts => ∃ e, Derives true (.assignment e) ts
  | ternary _, ts => ∃ e, Derives true (.ternary e) ts
  | tier level _, ts => ∃ e, Derives true (.tier level e) ts
  | unary _, ts => ∃ e, Derives true (.unary e) ts
  | call _, ts => ∃ e, Derives true (.call e) ts
  | arguments es, ts => ∃ es', es'.length = es.length ∧ Derives true (.arguments es') ts
  | primary _, ts => ∃ e, Derives true (.primary e) ts
  | optional _, ts => ∃ o, Derives true (.optional o) ts
  | «variable» _, ts => ∃ s, Derives true (.variable s) ts
  | initializer _, ts => ∃ s, Derives true (.initializer s) ts
  | function _, ts => ∃ f, Derives true (.function f) ts
  | functions _, ts => ∃ fs, Derives true (.functions fs) ts
  | statement _ _, ts => ∃ d s, Derives true (.statement d s) ts
  | declaration _ _, ts => ∃ d s, Derives true (.declaration d s) ts
  | declarations _, ts => ∃ ss, Derives true (.declarations ss) ts

theorem Tier.regroups_operand {level : Tier} {e : Expr} {ts : List Token}
    (h : (level.operand e).Regroups ts) : ∃ e', Derives true (level.operand e') ts := by
  cases level <;> exact h

/-- **Every phrase of the grammar regroups.** -/
theorem Derives.regroups {nearest : Bool} {p : Phrase} {ts : List Token}
    (h : Derives nearest p ts) : p.Regroups ts := by
  induction h with
  | single _ ih =>
    obtain ⟨es, hl, h⟩ := ih
    obtain ⟨e, rfl⟩ := List.length_eq_one_iff.1 hl
    exact ⟨e, .single h⟩
  | sequence _ ih =>
    obtain ⟨es, hl, h⟩ := ih
    match es, hl with
    | e :: e' :: es, _ => exact ⟨_, .sequence h⟩
  | lastItem _ ih =>
    obtain ⟨e, h⟩ := ih
    exact ⟨[e], rfl, .lastItem h⟩
  | moreItems _ hc _ ih ihs =>
    obtain ⟨e, h⟩ := ih
    obtain ⟨es, hl, hs⟩ := ihs
    exact ⟨e :: es, by simp [hl], .moreItems h hc hs⟩
  | assignVariable hn he _ ih =>
    obtain ⟨e, h⟩ := ih
    exact ⟨_, .assignVariable hn he h⟩
  | assignProperty _ hd hn he _ iho ih =>
    obtain ⟨o, ho⟩ := iho
    obtain ⟨e, h⟩ := ih
    exact ⟨_, .assignProperty ho hd hn he h⟩
  | noAssignment _ ih =>
    obtain ⟨e, h⟩ := ih
    exact ⟨e, .noAssignment h⟩
  | conditional _ hq _ hk _ ihc iha ihb =>
    obtain ⟨c, hc⟩ := ihc
    obtain ⟨a, ha⟩ := iha
    obtain ⟨b, hb⟩ := ihb
    exact ⟨_, .conditional hc hq ha hk hb⟩
  | noConditional _ ih =>
    obtain ⟨e, h⟩ := ih
    exact ⟨e, .noConditional h⟩
  | operand _ ih =>
    obtain ⟨e, h⟩ := Tier.regroups_operand ih
    exact ⟨e, .operand h⟩
  | operator _ ho _ ihl ihr =>
    obtain ⟨l, hl⟩ := ihl
    obtain ⟨r, hr⟩ := Tier.regroups_operand ihr
    exact ⟨_, .operator hl ho hr⟩
  | unaryOperator ho _ ih =>
    obtain ⟨e, h⟩ := ih
    exact ⟨_, .unaryOperator ho h⟩
  | noUnary _ ih =>
    obtain ⟨e, h⟩ := ih
    exact ⟨e, .noUnary h⟩
  | noCall _ ih =>
    obtain ⟨e, h⟩ := ih
    exact ⟨e, .noCall h⟩
  | application _ hl _ hm hr ihc iha =>
    obtain ⟨c, hc⟩ := ihc
    obtain ⟨es, he, ha⟩ := iha
    exact ⟨_, .application hc hl ha (by omega) hr⟩
  | property _ hd hn ih =>
    obtain ⟨o, ho⟩ := ih
    exact ⟨_, .property ho hd hn⟩
  | noArguments => exact ⟨[], rfl, .noArguments⟩
  | someArguments _ ih =>
    obtain ⟨es, hl, h⟩ := ih
    exact ⟨es, hl, .someArguments h⟩
  | falseLiteral h => exact ⟨_, .falseLiteral h⟩
  | trueLiteral h => exact ⟨_, .trueLiteral h⟩
  | nilLiteral h => exact ⟨_, .nilLiteral h⟩
  | literal h => exact ⟨_, .literal h⟩
  | this h => exact ⟨_, .this h⟩
  | name h => exact ⟨_, .name h⟩
  | group hl _ hr ih =>
    obtain ⟨e, h⟩ := ih
    exact ⟨_, .group hl h hr⟩
  | lambda hk hl hp hr ho _ hc ih =>
    obtain ⟨ss, h⟩ := ih
    exact ⟨_, .lambda hk hl hp hr ho h hc⟩
  | absent => exact ⟨none, .absent⟩
  | present _ ih =>
    obtain ⟨e, h⟩ := ih
    exact ⟨some e, .present h⟩
  | plainVariable hn hs => exact ⟨_, .plainVariable hn hs⟩
  | initializedVariable hn he _ hs ih =>
    obtain ⟨e, h⟩ := ih
    exact ⟨_, .initializedVariable hn he h hs⟩
  | noInitializer hs => exact ⟨none, .noInitializer hs⟩
  | variableInitializer hk _ ih =>
    obtain ⟨s, h⟩ := ih
    exact ⟨some s, .variableInitializer hk h⟩
  | expressionInitializer _ hs ih =>
    obtain ⟨e, h⟩ := ih
    exact ⟨_, .expressionInitializer h hs⟩
  | function hn hl hp hr ho _ hc ih =>
    obtain ⟨ss, h⟩ := ih
    exact ⟨_, .function hn hl hp hr ho h hc⟩
  | noFunctions => exact ⟨[], .noFunctions⟩
  | moreFunctions _ _ ih ihs =>
    obtain ⟨f, h⟩ := ih
    obtain ⟨fs, hs⟩ := ihs
    exact ⟨f :: fs, .moreFunctions h hs⟩
  | expressionStatement _ hs ih =>
    obtain ⟨e, h⟩ := ih
    exact ⟨_, _, .expressionStatement h hs⟩
  | print hk _ hs ih =>
    obtain ⟨e, h⟩ := ih
    exact ⟨_, _, .print hk h hs⟩
  | «return» hk _ hs ih =>
    obtain ⟨o, h⟩ := ih
    exact ⟨_, _, .return hk h hs⟩
  | block ho _ hc ih =>
    obtain ⟨ss, h⟩ := ih
    exact ⟨_, _, .block ho h hc⟩
  | «while» hk hl _ hr _ ihc ihb =>
    obtain ⟨c, hc⟩ := ihc
    obtain ⟨d, b, hb⟩ := ihb
    exact ⟨d, _, .while hk hl hc hr hb⟩
  | «for» hk hl _ _ hs _ hr _ ihf ihc ihi ihb =>
    obtain ⟨f, hf⟩ := ihf
    obtain ⟨c, hc⟩ := ihc
    obtain ⟨i, hi⟩ := ihi
    obtain ⟨d, b, hb⟩ := ihb
    exact ⟨d, _, .for hk hl hf hc hs hi hr hb⟩
  | ifOnly hk hl _ hr _ ihc iha =>
    obtain ⟨c, hc⟩ := ihc
    obtain ⟨d, a, ha⟩ := iha
    exact ⟨true, _, .ifOnly hk hl hc hr ha⟩
  | ifElse hk hl _ hr _ _ he _ ihc iha ihb =>
    obtain ⟨c, hc⟩ := ihc
    obtain ⟨d, a, ha⟩ := iha
    obtain ⟨d', b, hb⟩ := ihb
    cases d with
    | true =>
      obtain ⟨d, s, hs⟩ := ha.attachElse he hb
      exact ⟨true, _, .ifOnly hk hl hc hr hs⟩
    | false => exact ⟨d', _, .ifElse hk hl hc hr ha (fun _ => rfl) he hb⟩
  | «class» hk hn ho _ hc ih =>
    obtain ⟨fs, h⟩ := ih
    exact ⟨false, _, .class hk hn ho h hc⟩
  | functionDeclaration hk _ ih =>
    obtain ⟨f, h⟩ := ih
    exact ⟨false, _, .functionDeclaration hk h⟩
  | variableDeclaration hk _ ih =>
    obtain ⟨s, h⟩ := ih
    exact ⟨false, s, .variableDeclaration hk h⟩
  | statementDeclaration _ ih =>
    obtain ⟨d, s, h⟩ := ih
    exact ⟨d, s, .statementDeclaration h⟩
  | noDeclarations => exact ⟨[], .noDeclarations⟩
  | moreDeclarations _ _ ih ihs =>
    obtain ⟨d, s, h⟩ := ih
    obtain ⟨ss, hs⟩ := ihs
    exact ⟨s :: ss, .moreDeclarations h hs⟩

end ScopedScript

import ScopedScript.Proofs.Results
import ScopedScript.Tree.Parse

/-!
# What the readers of single tokens do

A reader that succeeds has taken some tokens off the front of its input.  For the readers
that others are made of, this module says which results they can have, as equivalences, so
that they serve both for taking a successful reading apart and for putting one together.

## Main definitions

* `Begins kinds tokens`: the first token is of one of the kinds.

## Main results

* `Reader.expect_eq_ok_iff`, `Reader.acceptAny?_eq_some_iff`, `Reader.accept_eq_true_iff`,
  `Reader.nextIs_eq_ok_iff`: the readers of single tokens.
-/

namespace ScopedScript

/-- The first token is of one of the given kinds. -/
def Begins (kinds : List TokenKind) : List Token → Prop
  | [] => False
  | token :: _ => token.kind ∈ kinds

@[simp]
theorem not_begins_nil (kinds : List TokenKind) : ¬ Begins kinds [] := id

@[simp]
theorem begins_cons (kinds : List TokenKind) (token : Token) (rest : List Token) :
    Begins kinds (token :: rest) ↔ token.kind ∈ kinds := Iff.rfl

theorem Begins.mono {kinds more : List TokenKind} (hk : kinds ⊆ more) {tokens : List Token}
    (h : Begins kinds tokens) : Begins more tokens := by
  cases tokens with
  | nil => exact h
  | cons token rest => exact hk h

theorem Begins.length_pos {kinds : List TokenKind} {ts : List Token} (h : Begins kinds ts) :
    0 < ts.length := by
  cases ts with
  | nil => exact h.elim
  | cons token rest => simp

theorem Begins.append {kinds : List TokenKind} {ts : List Token} (h : Begins kinds ts)
    (us : List Token) : Begins kinds (ts ++ us) := by
  cases ts with
  | nil => exact h.elim
  | cons t ts => exact h

namespace Reader

variable {α : Type}

/-! ## Tokens passed over -/

@[simp]
theorem fail_ne_ok (fault : ParseFault) (ts rest : List Token) (a : α) :
    fail fault ts = .ok a rest ↔ False := by
  simp [fail]

@[simp]
theorem failAt_ne_ok (fault : ParseFault) (blamed ts rest : List Token) (a : α) :
    failAt fault blamed ts = .ok a rest ↔ False := by
  change EStateM.Result.error _ ts = .ok a rest ↔ False
  simp

@[simp]
theorem skip_eq_ok_iff {ts rest : List Token} {u : Unit} :
    skip ts = .ok u rest ↔ ts.tail = rest := by
  simp [skip]

theorem peek?_eq_ok_iff {ts rest : List Token} {t? : Option Token} :
    peek? ts = .ok t? rest ↔ (if atEnd ts then none else ts.head?) = t? ∧ ts = rest := by
  simp [peek?]

/-! ## Single tokens -/

/-- A token is taken exactly when it stands first and is of one of the kinds. -/
theorem acceptAny?_eq_some_iff {kinds : List TokenKind} (hk : TokenKind.eof ∉ kinds)
    {ts rest : List Token} {t : Token} :
    acceptAny? kinds ts = .ok (some t) rest ↔ ts = t :: rest ∧ t.kind ∈ kinds := by
  unfold acceptAny?
  split
  · simp
  · split <;> grind

/-- No token is taken exactly when none of the kinds stands first. -/
theorem acceptAny?_eq_none_iff {kinds : List TokenKind} (hk : TokenKind.eof ∉ kinds)
    {ts rest : List Token} :
    acceptAny? kinds ts = .ok none rest ↔ ts = rest ∧ ¬ Begins kinds ts := by
  unfold acceptAny?
  split
  · simp [eq_comm]
  · split <;> grind [begins_cons]

theorem accept_eq_true_iff {kind : TokenKind} (hk : kind ≠ .eof) {ts rest : List Token} :
    accept kind ts = .ok true rest ↔ ∃ t, ts = t :: rest ∧ t.kind = kind := by
  have hk' : TokenKind.eof ∉ [kind] := by simpa using hk.symm
  simp only [accept, bind_eq_ok_iff, pure_eq_ok_iff]
  constructor
  · rintro ⟨t?, mid, h, hs, rfl⟩
    obtain ⟨t, rfl⟩ := Option.isSome_iff_exists.1 hs
    obtain ⟨rfl, ht⟩ := (acceptAny?_eq_some_iff hk').1 h
    exact ⟨t, rfl, List.mem_singleton.1 ht⟩
  · rintro ⟨t, rfl, ht⟩
    exact ⟨some t, rest, (acceptAny?_eq_some_iff hk').2 ⟨rfl, by simp [ht]⟩, rfl, rfl⟩

theorem accept_eq_false_iff {kind : TokenKind} (hk : kind ≠ .eof) {ts rest : List Token} :
    accept kind ts = .ok false rest ↔ ts = rest ∧ ¬ Begins [kind] ts := by
  have hk' : TokenKind.eof ∉ [kind] := by simpa using hk.symm
  simp only [accept, bind_eq_ok_iff, pure_eq_ok_iff]
  constructor
  · rintro ⟨t?, mid, h, hs, rfl⟩
    obtain rfl : t? = none := by simpa using hs
    exact (acceptAny?_eq_none_iff hk').1 h
  · intro h
    exact ⟨none, rest, (acceptAny?_eq_none_iff hk').2 h, rfl, rfl⟩

theorem nextIs_eq_ok_iff {kind : TokenKind} (hk : kind ≠ .eof) {ts rest : List Token}
    {b : Bool} : nextIs kind ts = .ok b rest ↔ (b = true ↔ Begins [kind] ts) ∧ ts = rest := by
  simp only [nextIs, bind_eq_ok_iff, pure_eq_ok_iff, peek?_eq_ok_iff]
  have hb : ((if atEnd ts then none else ts.head?).any (·.kind == kind)) = true ↔
      Begins [kind] ts := by
    cases ts with
    | nil => simp [atEnd]
    | cons t us => by_cases ht : t.kind = .eof <;> grind [atEnd, begins_cons]
  constructor
  · rintro ⟨_, _, ⟨rfl, rfl⟩, rfl, rfl⟩
    exact ⟨hb, rfl⟩
  · rintro ⟨h, rfl⟩
    exact ⟨_, _, ⟨rfl, rfl⟩, Bool.eq_iff_iff.2 (hb.trans h.symm), rfl⟩

theorem expect_eq_ok_iff {kind : TokenKind} (hk : kind ≠ .eof) {what : Expectation}
    {ts rest : List Token} {t : Token} :
    expect kind what ts = .ok t rest ↔ ts = t :: rest ∧ t.kind = kind := by
  have hk' : TokenKind.eof ∉ [kind] := by simpa using hk.symm
  simp only [expect, bind_eq_ok_iff]
  constructor
  · rintro ⟨t?, mid, h, h'⟩
    cases t? with
    | none => simp at h'
    | some t' =>
      obtain ⟨rfl, ht⟩ := (acceptAny?_eq_some_iff hk').1 h
      obtain ⟨rfl, rfl⟩ := pure_eq_ok_iff.1 h'
      exact ⟨rfl, List.mem_singleton.1 ht⟩
  · rintro ⟨rfl, ht⟩
    exact ⟨some t, rest, (acceptAny?_eq_some_iff hk').2 ⟨rfl, by simp [ht]⟩, by simp⟩

end Reader

end ScopedScript

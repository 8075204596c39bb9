import ScopedScript.Proofs.Grammar.Parser
import ScopedScript.Proofs.Grammar.Tokens

/-!
# Where a parser stands

A parser with a position goes through a token list as a reader does that takes tokens off its
front: what it has passed over is what the reader has taken, and both come to the same tree or to
the same error.  The position never goes back and never leaves the list.  The parser asks for a
token that is not there in one place only, in a parameter list that is full and whose last
parameter is followed by a comma and the end of the input.

The relation `Parser.Follows` between a step of the parser and a reader carries all of this.  It
has one lemma for each way in which steps are put together, and one for each step that looks at
tokens; the grammar is then gone through reader by reader.

## Main definitions

* `Parser.between before rest`: the parser that has passed over `before`, with `rest` left.
* `InParameters count tokens`: the tokens end in a parameter list, after `count` parameters each
  with a comma.
* `Parser.Follow`, `Parser.Follows`: a step of the parser and a reader come to the same.

## Main results

* `Parser.Follows.bind`, `Parser.Follows.accept`, `Parser.Follows.expect`: steps put together.
* `Parsing.parameters_follows`: the one place where a token may be missing.
-/

namespace ScopedScript

/-! ## Parameter lists that are not finished -/

/-- The last token is of one of the given kinds. -/
def EndsIn (kinds : List TokenKind) (tokens : List Token) : Prop :=
  ∃ start last, tokens = start ++ [last] ∧ last.kind ∈ kinds

theorem EndsIn.mono {kinds more : List TokenKind} {tokens : List Token} (h : EndsIn kinds tokens)
    (hk : kinds ⊆ more) : EndsIn more tokens := by
  obtain ⟨start, last, rfl, hl⟩ := h
  exact ⟨start, last, rfl, hk hl⟩

/-- **The tokens before a parameter list**: a keyword `fun`, or a name after that keyword or after
a brace, as methods have it. -/
def Announces (tokens : List Token) : Prop :=
  EndsIn [.fun] tokens ∨ ∃ start name, tokens = start ++ [name] ∧ name.kind = .identifier ∧
    EndsIn [.fun, .leftBrace, .rightBrace] start

/-- Names with a comma after each. -/
def namesWithCommas (pairs : List (Token × Token)) : List Token :=
  pairs.flatMap fun pair => [pair.1, pair.2]

/-- Each pair is a name and a comma. -/
def AreNames (pairs : List (Token × Token)) : Prop :=
  ∀ pair ∈ pairs, pair.1.kind = .identifier ∧ pair.2.kind = .comma

/-- **The tokens end in a parameter list**, after `count` parameters with a comma each. -/
def InParameters (count : Nat) (tokens : List Token) : Prop :=
  ∃ start opening pairs, tokens = start ++ opening :: namesWithCommas pairs ∧ Announces start ∧
    opening.kind = .leftParen ∧ AreNames pairs ∧ pairs.length = count

namespace InParameters

theorem opened {start : List Token} {opening : Token} (h : Announces start)
    (ho : opening.kind = .leftParen) : InParameters 0 (start ++ [opening]) :=
  ⟨start, opening, [], rfl, h, ho, by simp [AreNames], rfl⟩

/-- One more parameter and a comma: the tokens still end in a parameter list. -/
theorem more {count : Nat} {tokens : List Token} {name comma : Token}
    (h : InParameters count tokens) (hn : name.kind = .identifier) (hc : comma.kind = .comma) :
    InParameters (count + 1) (tokens ++ [name] ++ [comma]) := by
  obtain ⟨start, opening, pairs, rfl, ha, ho, hp, rfl⟩ := h
  refine ⟨start, opening, pairs ++ [(name, comma)], by simp [namesWithCommas], ha, ho, ?_, by simp⟩
  intro pair hm
  rcases List.mem_append.1 hm with hm | hm
  · exact hp pair hm
  · obtain rfl := List.mem_singleton.1 hm
    exact ⟨hn, hc⟩

end InParameters

/-! ## Steps at a position -/

namespace Parser

/-- The parser that has passed over `before`, with `rest` left. -/
def between (before rest : List Token) : Parser := ⟨before ++ rest, before.length⟩

end Parser

open ScopedScript.Parser

namespace Parsing

variable {before rest : List Token} {t : Token}

theorem remaining_between :
    remaining (between before rest) = .ok rest (between before rest) := by
  change EStateM.Result.ok _ _ = _
  simp [between]

theorem left_between : left (between before rest) = .ok rest.length (between before rest) := by
  rw [left, bind_of_ok remaining_between]
  rfl

theorem peek_between :
    peek (between before (t :: rest)) = .ok t (between before (t :: rest)) := by
  change look before.length _ = _
  simp [look, between]

/-- There is no next token when none is left, and then the parser has gone past the end. -/
theorem peek_between_nil :
    peek (between before []) = .error .pastEnd (between before []) := by
  change look before.length _ = _
  simp [look, between]

theorem previous_between :
    previous (between (before ++ [t]) rest) = .ok t (between (before ++ [t]) rest) := by
  simp [previous, look, between]

/-- What is left from the token passed over last is that token and the rest. -/
theorem fromPrevious_between :
    fromPrevious (between (before ++ [t]) rest) =
      .ok (t :: rest) (between (before ++ [t]) rest) := by
  rw [fromPrevious, bind_of_ok previous_between]
  change EStateM.Result.ok _ _ = _
  simp [between]

theorem isAtEnd_between :
    isAtEnd (between before rest) = .ok (atEnd rest) (between before rest) := by
  rw [isAtEnd, bind_of_ok (get_eq_ok_iff.2 ⟨rfl, rfl⟩)]
  cases rest with
  | nil => simp [between, atEnd]
  | cons t rest =>
    rw [if_neg (by simp [between]), bind_of_ok peek_between]
    rfl

/-- Moving on passes over the next token. -/
theorem advance_between (ht : t.kind ≠ .eof) :
    advance (between before (t :: rest)) = .ok t (between (before ++ [t]) rest) := by
  rw [advance, bind_of_ok isAtEnd_between, if_neg (by simp [atEnd, ht]),
    bind_of_ok (modify_eq_ok_iff (u := ⟨⟩).2 rfl)]
  have hb : { between before (t :: rest) with current := before.length + 1 } =
      between (before ++ [t]) rest := by simp [between]
  exact hb ▸ previous_between

/-- Whether the next token is of a kind is a question about the tokens left. -/
theorem check_between {kind : TokenKind} (hk : kind ≠ .eof) (before rest : List Token) :
    ∃ b, check kind (between before rest) = .ok b (between before rest) ∧
      (b = true ↔ Begins [kind] rest) := by
  rw [check, bind_of_ok isAtEnd_between]
  cases rest with
  | nil => exact ⟨false, rfl, by simp⟩
  | cons t rest =>
    by_cases ht : t.kind = .eof
    · exact ⟨false, by rw [if_pos (by simp [atEnd, ht])]; rfl, by simp [ht, hk.symm]⟩
    · refine ⟨t.kind == kind, ?_, by simp⟩
      rw [if_neg (by simp [atEnd, ht]), bind_of_ok peek_between]
      rfl

/-- A token of one of the kinds is passed over. -/
theorem matchAny_cons {kinds : List TokenKind} (hk : .eof ∉ kinds) (ht : t.kind ∈ kinds) :
    matchAny kinds (between before (t :: rest)) = .ok true (between (before ++ [t]) rest) := by
  induction kinds with
  | nil => cases ht
  | cons kind kinds ih =>
    have hk' := not_or.1 (mt List.mem_cons.2 hk)
    obtain ⟨b, hc, hb⟩ := check_between (Ne.symm hk'.1) before (t :: rest)
    rw [matchAny, bind_of_ok hc]
    by_cases he : t.kind = kind
    · have hn : t.kind ≠ .eof := fun h => hk (h ▸ ht)
      rw [if_pos (hb.2 (by simp [he])), bind_of_ok (advance_between hn)]
      rfl
    · rw [if_neg (fun h => he (by simpa using hb.1 h))]
      exact ih hk'.2 ((List.mem_cons.1 ht).resolve_left he)

/-- Nothing is passed over if the next token is of none of the kinds. -/
theorem matchAny_of_not_begins {kinds : List TokenKind} (hk : .eof ∉ kinds)
    (h : ¬ Begins kinds rest) :
    matchAny kinds (between before rest) = .ok false (between before rest) := by
  induction kinds with
  | nil => rfl
  | cons kind kinds ih =>
    have hk' := not_or.1 (mt List.mem_cons.2 hk)
    obtain ⟨b, hc, hb⟩ := check_between (Ne.symm hk'.1) before rest
    rw [matchAny, bind_of_ok hc, if_neg fun hb' => h ((hb.1 hb').mono (by simp))]
    exact ih hk'.2 fun h' => h (h'.mono (by simp))

end Parsing

/-! ## A parser and a reader -/

namespace Parser

variable {α β : Type}

/-- **A step of a parser and a reader come to the same**, from a place between the tokens `before`
and `rest`: to the same value or error, past the same tokens.  After a value `post` holds of the
tokens that have been passed over.  The only other way to end is past the end of the list, in a
parameter list that is full. -/
inductive Follow (before rest : List Token) (post : List Token → Prop) :
    EStateM.Result Fault Parser α → EStateM.Result ParseFailure (List Token) α → Prop
  | ok (a : α) (used left : List Token) (hr : rest = used ++ left) (hp : post (before ++ used)) :
    Follow before rest post (.ok a (between (before ++ used) left)) (.ok a left)
  | error (e : ParseError) (used left : List Token) (hr : rest = used ++ left) :
    Follow before rest post (.error (.error e) (between (before ++ used) left))
      (.error (.error e) left)
  | pastEnd (hf : InParameters maxArity (before ++ rest)) :
    Follow before rest post (.error .pastEnd (between (before ++ rest) []))
      (.error (.halt .pastEnd) [])

/-- **A parser follows a reader** while at most `n` tokens are left, from places where `pre` holds
of the tokens that have been passed over. -/
def Follows (n : Nat) (pre : List Token → Prop) (x : Parsing α) (r : Reader α)
    (post : List Token → Prop) : Prop :=
  ∀ before rest, rest.length ≤ n → pre before →
    Follow before rest post (x (between before rest)) (r rest)

/-- Nothing is known of the tokens that have been passed over. -/
def Anywhere : List Token → Prop := fun _ => True

/-- The token passed over last is `t`, and `pre` held before it. -/
def Past (pre : List Token → Prop) (t : Token) (before : List Token) : Prop :=
  ∃ start, before = start ++ [t] ∧ pre start

/-- The token passed over last is of the given kind, and `pre` held before it. -/
def PastKind (pre : List Token → Prop) (kind : TokenKind) (before : List Token) : Prop :=
  ∃ t, t.kind = kind ∧ Past pre t before

theorem PastKind.endsIn {pre : List Token → Prop} {kind : TokenKind} {before : List Token}
    (h : PastKind pre kind before) : EndsIn [kind] before := by
  obtain ⟨t, ht, start, rfl, -⟩ := h
  exact ⟨start, t, rfl, by simp [ht]⟩

variable {n : Nat} {pre mid post : List Token → Prop} {before used rest : List Token}

theorem Follow.here (a : α) (hp : post before) :
    Follow before rest post (.ok a (between before rest)) (.ok a rest) := by
  have h : Follow before rest post (.ok a (between (before ++ []) rest)) (.ok a rest) :=
    .ok a [] rest rfl (by rwa [List.append_nil])
  rwa [List.append_nil] at h

theorem Follow.errorHere (e : ParseError) :
    Follow before rest post (.error (.error e) (between before rest) : EStateM.Result _ _ α)
      (.error (.error e) rest) := by
  have h : Follow before rest post
      (.error (.error e) (between (before ++ []) rest) : EStateM.Result _ _ α)
      (.error (.error e) rest) := .error e [] rest rfl
  rwa [List.append_nil] at h

theorem Follow.pastEndHere (hf : InParameters maxArity before) :
    Follow before [] post (.error .pastEnd (between before []) : EStateM.Result _ _ α)
      (.error (.halt .pastEnd) []) := by
  have h : Follow before [] post
      (.error .pastEnd (between (before ++ []) []) : EStateM.Result _ _ α)
      (.error (.halt .pastEnd) []) := .pastEnd (by rwa [List.append_nil])
  rwa [List.append_nil] at h

/-- A step that begins further on begins here, with tokens passed over before it. -/
theorem Follow.from {p : EStateM.Result Fault Parser α}
    {r : EStateM.Result ParseFailure (List Token) α} (h : Follow (before ++ used) rest post p r) :
    Follow before (used ++ rest) post p r := by
  cases h with
  | ok a used' left hr hp =>
    rw [List.append_assoc] at hp ⊢
    exact .ok a _ left (by simp [hr]) hp
  | error e used' left hr =>
    rw [List.append_assoc]
    exact .error e _ left (by simp [hr])
  | pastEnd hf =>
    rw [List.append_assoc] at hf ⊢
    exact .pastEnd hf

/-- Less is known of where the step ends. -/
theorem Follow.mono {post' : List Token → Prop} {p : EStateM.Result Fault Parser α}
    {r : EStateM.Result ParseFailure (List Token) α} (h : Follow before rest post p r)
    (hp : ∀ ts, post ts → post' ts) : Follow before rest post' p r := by
  cases h with
  | ok a used left hr h => exact .ok a used left hr (hp _ h)
  | error e used left hr => exact .error e used left hr
  | pastEnd hf => exact .pastEnd hf

namespace Follows

variable {x : Parsing α} {r : Reader α}

/-- A parser that follows a reader does so with fewer tokens, from fewer places, and when less is
asked of where it ends. -/
theorem mono {n' : Nat} {pre' post' : List Token → Prop} (h : Follows n pre x r post)
    (hn : n' ≤ n) (hp : ∀ ts, pre' ts → pre ts) (hq : ∀ ts, post ts → post' ts) :
    Follows n' pre' x r post' :=
  fun before rest hl hb => (h before rest (Nat.le_trans hl hn) (hp _ hb)).mono hq

theorem of_lt {m : Nat} (h : Follows n pre x r post) (hm : m < n) : Follows m pre x r post :=
  h.mono (Nat.le_of_lt hm) (fun _ => id) (fun _ => id)

/-- A step that may be taken anywhere may be taken here. -/
theorem anywhere (h : Follows n Anywhere x r Anywhere) : Follows n pre x r Anywhere :=
  h.mono (Nat.le_refl n) (fun _ _ => trivial) (fun _ => id)

/-- What comes after a step need not be known. -/
theorem forget (h : Follows n pre x r post) : Follows n pre x r Anywhere :=
  h.mono (Nat.le_refl n) (fun _ => id) (fun _ _ => trivial)

theorem pure (a : α) : Follows n pre (pure a) (pure a) pre := by
  intro before rest _ hb
  exact .here a hb

/-- One step after the other. -/
theorem bind {f : α → Parsing β} {g : α → Reader β} (h : Follows n pre x r mid)
    (h' : ∀ a, Follows n mid (f a) (g a) post) : Follows n pre (x >>= f) (r >>= g) post := by
  intro before rest hl hb
  change Follow before rest post (EStateM.bind x f _) (EStateM.bind r g _)
  unfold EStateM.bind
  have hf := h before rest hl hb
  generalize x (between before rest) = p, r rest = q at hf ⊢
  cases hf with
  | ok a used left hr hp =>
    subst hr
    exact (h' a _ left (by simp at hl; omega) hp).from
  | error e used left hr => exact .error e used left hr
  | pastEnd hf => exact .pastEnd hf

/-- A choice that both sides make alike. -/
theorem ite {b : Bool} {x' : Parsing α} {r' : Reader α} (h : Follows n pre x r post)
    (h' : Follows n pre x' r' post) :
    Follows n pre (if b then x else x') (if b then r else r') post := by
  cases b
  · exact h'
  · exact h

/-- A choice with the same step after either side. -/
theorem iteBind {b : Bool} {x' : Parsing α} {r' : Reader α} {f : α → Parsing β}
    {g : α → Reader β} (h : Follows n pre x r mid) (h' : Follows n pre x' r' mid)
    (hf : ∀ a, Follows n mid (f a) (g a) post) :
    Follows n pre (if b then x >>= f else x' >>= f) (if b then r >>= g else r' >>= g) post :=
  (h.bind hf).ite (h'.bind hf)

theorem map (f : α → β) (h : Follows n pre x r post) :
    Follows n pre (f <$> x) (f <$> r) post := by
  rw [← bind_pure_comp, ← bind_pure_comp]
  exact h.bind fun a => .pure _

/-! ## Steps that look at tokens -/

/-- The tokens that are left are the same on both sides. -/
theorem remaining {f : List Token → Parsing α} {g : List Token → Reader α}
    (h : ∀ ts : List Token, Follows n pre (f ts) (g ts) post) :
    Follows n pre (Parsing.remaining >>= f) (get >>= g) post := by
  intro before rest hl hb
  rw [bind_of_ok Parsing.remaining_between, bind_of_ok (get_eq_ok_iff.2 ⟨rfl, rfl⟩)]
  exact h rest before rest hl hb

/-- The number of tokens left bounds a loop. -/
theorem left {f : Nat → Parsing α} {g : List Token → Reader α}
    (h : ∀ ts : List Token, Follows n pre (f ts.length) (g ts) post) :
    Follows n pre (Parsing.left >>= f) (get >>= g) post := by
  rw [Parsing.left, bind_assoc]
  simp only [pure_bind]
  exact .remaining h

/-- Both sides look at the next token. -/
theorem check {kind : TokenKind} (hk : kind ≠ .eof) :
    Follows n pre (Parsing.check kind) (Reader.nextIs kind) pre := by
  intro before rest hl hb
  obtain ⟨b, hc, hb'⟩ := Parsing.check_between hk before rest
  rw [hc, (Reader.nextIs_eq_ok_iff hk).2 ⟨hb', rfl⟩]
  exact Follows.pure b before rest hl hb

/-- A token of one of the kinds is passed over, or there is none. -/
theorem acceptAny {kinds : List TokenKind} (hk : .eof ∉ kinds) {yes no : Parsing α}
    {next : Option Token → Reader α}
    (hyes : ∀ t, t.kind ∈ kinds → ∀ m < n, Follows m (Past pre t) yes (next (some t)) post)
    (hno : Follows n pre no (next none) post) :
    Follows n pre (do if ← Parsing.matchAny kinds then yes else no)
      (Reader.acceptAny? kinds >>= next) post := by
  intro before rest hl hb
  by_cases h : Begins kinds rest
  · cases rest with
    | nil => exact h.elim
    | cons t rest =>
      rw [bind_of_ok (Parsing.matchAny_cons hk h),
        bind_of_ok ((Reader.acceptAny?_eq_some_iff hk).2 ⟨rfl, h⟩)]
      exact (hyes t h rest.length hl _ rest (Nat.le_refl _) ⟨before, rfl, hb⟩).from
  · rw [bind_of_ok (Parsing.matchAny_of_not_begins hk h),
      bind_of_ok ((Reader.acceptAny?_eq_none_iff hk).2 ⟨rfl, h⟩)]
    exact hno before rest hl hb

/-- A token may be passed over, and each side goes on in the same way. -/
theorem accept {kind : TokenKind} (hk : kind ≠ .eof) {yes no : Parsing α} {yes' no' : Reader α}
    (hyes : ∀ m < n, Follows m (PastKind pre kind) yes yes' post)
    (hno : Follows n pre no no' post) :
    Follows n pre (do if ← Parsing.matchAny [kind] then yes else no)
      (do if ← Reader.accept kind then yes' else no') post := by
  have hr : (do if ← Reader.accept kind then yes' else no') =
      Reader.acceptAny? [kind] >>= fun t? => if t?.isSome then yes' else no' := by
    rw [Reader.accept, bind_assoc]
    simp only [pure_bind]
  rw [hr]
  refine acceptAny (by simpa using hk.symm) (fun t ht m hm => ?_) hno
  exact (hyes m hm).mono (Nat.le_refl m)
    (fun ts hts => ⟨t, List.mem_singleton.1 ht, hts⟩) fun _ => id

/-- A token may be passed over, with the same step after it or without it. -/
theorem acceptBind {kind : TokenKind} (hk : kind ≠ .eof) {yes no : Parsing α}
    {yes' no' : Reader α} {f : α → Parsing β} {g : α → Reader β}
    (hyes : ∀ m < n, Follows m (PastKind pre kind) yes yes' mid)
    (hno : Follows n pre no no' mid) (hf : ∀ a, Follows n mid (f a) (g a) post) :
    Follows n pre (do if ← Parsing.matchAny [kind] then yes >>= f else no >>= f)
      (do if ← Reader.accept kind then yes' >>= g else no' >>= g) post :=
  .accept hk (fun m hm => (hyes m hm).bind fun a => (hf a).of_lt hm) (hno.bind hf)

/-- A token may be passed over, and what is left from this token on is kept. -/
theorem acceptFrom {kind : TokenKind} (hk : kind ≠ .eof) {yes : List Token → Parsing α}
    {no : Parsing α} {yes' : List Token → Reader α} {no' : Reader α}
    (hyes : ∀ here, ∀ m < n, Follows m (PastKind pre kind) (yes here) (yes' here) post)
    (hno : Follows n pre no no' post) :
    Follows n pre (do if ← Parsing.matchAny [kind] then Parsing.fromPrevious >>= yes else no)
      (do
        let here ← get
        if ← Reader.accept kind then yes' here else no') post := by
  intro before rest hl hb
  rw [bind_of_ok (get_eq_ok_iff.2 ⟨rfl, rfl⟩)]
  by_cases h : Begins [kind] rest
  · cases rest with
    | nil => exact h.elim
    | cons t rest =>
      have ht := List.mem_singleton.1 h
      rw [bind_of_ok (Parsing.matchAny_cons (by simpa using hk.symm) h), if_pos rfl,
        bind_of_ok Parsing.fromPrevious_between,
        bind_of_ok ((Reader.accept_eq_true_iff hk).2 ⟨t, rfl, ht⟩), if_pos rfl]
      exact (hyes _ rest.length hl _ rest (Nat.le_refl _) ⟨t, ht, before, rfl, hb⟩).from
  · rw [bind_of_ok (Parsing.matchAny_of_not_begins (by simpa using hk.symm) h),
      bind_of_ok ((Reader.accept_eq_false_iff hk).2 ⟨rfl, h⟩)]
    exact hno before rest hl hb

/-- The token passed over last is looked at once more. -/
theorem previous {t : Token} {f : Token → Parsing α} (h : Follows n (Past pre t) (f t) r post) :
    Follows n (Past pre t) (Parsing.previous >>= f) r post := by
  rintro before rest hl ⟨start, rfl, hb⟩
  rw [bind_of_ok Parsing.previous_between]
  exact h _ rest hl ⟨start, rfl, hb⟩

/-- Both sides fail at the same place. -/
theorem fail (fault : ParseFault) :
    Follows n pre (Parsing.fail fault : Parsing α) (Reader.fail fault) post := by
  intro before rest hl _
  have hx : (Parsing.fail fault : Parsing α) (between before rest) =
      .error (.error ⟨fault, rest⟩) (between before rest) := by
    rw [Parsing.fail, bind_of_ok Parsing.isAtEnd_between]
    cases rest with
    | nil =>
      rw [if_pos (by rfl), bind_of_ok Parsing.remaining_between]
      rfl
    | cons t rest =>
      split
      · rw [bind_of_ok Parsing.remaining_between]
        rfl
      · rw [Parsing.failAtNext, bind_of_ok Parsing.peek_between,
          bind_of_ok Parsing.remaining_between]
        rfl
  rw [hx]
  exact .errorHere _

theorem failAt (fault : ParseFault) (blamed : List Token) :
    Follows n pre (throw (.error ⟨fault, blamed⟩) : Parsing α) (Reader.failAt fault blamed)
      post := by
  intro before rest _ _
  exact .errorHere ⟨fault, blamed⟩

/-- Both sides ask for a token of one kind, and fail where there is none. -/
theorem expect {kind : TokenKind} (hk : kind ≠ .eof) (what : Expectation) :
    Follows n pre (Parsing.consume kind what) (Reader.expect kind what) (PastKind pre kind) := by
  intro before rest hl hb
  obtain ⟨b, hc, hb'⟩ := Parsing.check_between hk before rest
  rw [Parsing.consume, bind_of_ok hc]
  by_cases h : Begins [kind] rest
  · rw [if_pos (hb'.2 h)]
    cases rest with
    | nil => exact h.elim
    | cons t rest =>
      have ht : t.kind = kind := List.mem_singleton.1 h
      rw [Parsing.advance_between (ht ▸ hk), (Reader.expect_eq_ok_iff hk).2 ⟨rfl, ht⟩]
      exact .ok t [t] rest rfl ⟨t, ht, before, rfl, hb⟩
  · rw [if_neg fun hb => h (hb'.1 hb)]
    have hr : Reader.expect kind what rest = Reader.fail (.expected what) rest := by
      rw [Reader.expect, bind_of_ok ((Reader.acceptAny?_eq_none_iff (by simpa using hk.symm)).2
        ⟨rfl, h⟩)]
    rw [hr]
    have hf : Follows n pre (Parsing.fail (.expected what) : Parsing Token)
        (Reader.fail (.expected what)) (PastKind pre kind) := .fail _
    exact hf before rest hl hb

end Follows

/-! ## Kinds of tokens one after the other -/

/-- The parser follows the reader where none of the kinds stands next. -/
def FollowsElse (seen : List TokenKind) (n : Nat) (pre : List Token → Prop) (x : Parsing α)
    (r : Reader α) (post : List Token → Prop) : Prop :=
  ∀ before rest, rest.length ≤ n → pre before → ¬ Begins seen rest →
    Follow before rest post (x (between before rest)) (r rest)

theorem FollowsElse.follows {x : Parsing α} {r : Reader α} (h : FollowsElse [] n pre x r post) :
    Follows n pre x r post :=
  fun before rest hl hb => h before rest hl hb (by cases rest <;> simp)

/-- The reader decides by the next token.  The parser has found that it is of none of the kinds
`seen`, and asks for more kinds. -/
theorem FollowsElse.branch {seen kinds : List TokenKind} (hk : .eof ∉ kinds)
    {yes no : Parsing α} {f : Option Token → Reader α}
    (hyes : ∀ t, t.kind ∈ kinds → ∃ r, f (some t) = (do Reader.skip; r) ∧
      ∀ m < n, Follows m (Past pre t) yes r post)
    (hno : FollowsElse (kinds ++ seen) n pre no (Reader.peek? >>= f) post) :
    FollowsElse seen n pre (do if ← Parsing.matchAny kinds then yes else no)
      (Reader.peek? >>= f) post := by
  intro before rest hl hb hs
  by_cases h : Begins kinds rest
  · cases rest with
    | nil => exact h.elim
    | cons t rest =>
      obtain ⟨r, hf, hr⟩ := hyes t h
      have ht : t.kind ≠ .eof := fun he => hk (he ▸ h)
      rw [bind_of_ok (Parsing.matchAny_cons hk h), if_pos rfl,
        bind_of_ok (Reader.peek?_eq_ok_iff.2 ⟨if_neg (by simp [atEnd, ht]), rfl⟩)]
      change Follow _ _ _ _ (f (some t) (t :: rest))
      rw [hf, bind_of_ok (Reader.skip_eq_ok_iff (u := ()).2 rfl)]
      exact (hr rest.length hl _ rest (Nat.le_refl _) ⟨before, rfl, hb⟩).from
  · rw [bind_of_ok (Parsing.matchAny_of_not_begins hk h), if_neg Bool.false_ne_true]
    refine hno before rest hl hb ?_
    cases rest with
    | nil => exact id
    | cons t rest => simpa [not_or] using And.intro h hs

/-- The parser asks for one more kind, and the reader has a case for it. -/
theorem FollowsElse.branchOne {seen : List TokenKind} {kind : TokenKind} (hk : kind ≠ .eof)
    {yes no : Parsing α} {f : Option Token → Reader α}
    (hyes : ∀ t, t.kind = kind → ∃ r, f (some t) = (do Reader.skip; r) ∧
      ∀ m < n, Follows m (Past pre t) yes r post)
    (hno : FollowsElse (kind :: seen) n pre no (Reader.peek? >>= f) post) :
    FollowsElse seen n pre (do if ← Parsing.matchAny [kind] then yes else no)
      (Reader.peek? >>= f) post :=
  .branch (by simpa using hk.symm) (fun t ht => hyes t (List.mem_singleton.1 ht)) hno

/-- All kinds have been asked for. -/
theorem FollowsElse.otherwise {seen : List TokenKind} {x : Parsing α} {r : Reader α}
    {f : Option Token → Reader α} (h : Follows n pre x r post) (hf : f none = r)
    (hs : ∀ t : Token, t.kind ∉ seen → f (some t) = r) :
    FollowsElse seen n pre x (Reader.peek? >>= f) post := by
  intro before rest hl hb hn
  rw [bind_of_ok (Reader.peek?_eq_ok_iff.2 ⟨rfl, rfl⟩)]
  have hr : f (if atEnd rest then none else rest.head?) = r := by
    cases rest with
    | nil => exact hf
    | cons t rest =>
      split
      · exact hf
      · exact hs t hn
  rw [hr]
  exact h before rest hl hb

end Parser

end ScopedScript

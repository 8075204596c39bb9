import ScopedScript.Proofs.Grammar.Tokens

/-!
# Where readers stop

A reader goes forward: what it leaves is an end of what it was given, and it never passes over the
end of the input.  When it fails it blames a token that it was given, and it stands at this token
or after it: an assignment target is judged after the value, and the number of arguments after the
closing parenthesis.

The readers of phrases that refer back to themselves count down a bound on their nesting.  The
bound makes no difference as long as it goes with the number of tokens, since a token is passed
over before a phrase is entered again.  Both facts are proved together, of two readers at a time
that differ only in their bounds, with one lemma for each way in which readers are put together.

## Main definitions

* `Leads tokens left`: `left` is what is left of `tokens` after some that are not the end.
* `Stops start tokens result`: where a reader stops that was given `tokens`, and that may blame
  any token from `start` on.
* `Reader.Steady n r r'`: on at most `n` tokens the readers are the same, and stop like this.

## Main results

* `Reader.steadyAt`: the readers that refer back to each other, for any two bounds.
* `Reader.declaration_congr`: the bound on the nesting of declarations makes no difference.
* `readDeclaration_stops`: where the reader of declarations stops.
-/

namespace ScopedScript

/-! ## Going forward -/

/-- **What is left of the tokens** after some of them, none of which is the end of the input. -/
def Leads (tokens left : List Token) : Prop :=
  ∃ passed, tokens = passed ++ left ∧ ∀ t ∈ passed, t.kind ≠ .eof

namespace Leads

variable {tokens mid left : List Token}

theorem refl (tokens : List Token) : Leads tokens tokens := ⟨[], rfl, by simp⟩

/-- Tokens that lead to others by way of others lead to them. -/
theorem trans (h : Leads tokens mid) (h' : Leads mid left) : Leads tokens left := by
  obtain ⟨passed, rfl, hp⟩ := h
  obtain ⟨more, rfl, hm⟩ := h'
  refine ⟨passed ++ more, (List.append_assoc ..).symm, fun t ht => ?_⟩
  exact (List.mem_append.1 ht).elim (hp t) (hm t)

theorem cons {t : Token} (ht : t.kind ≠ .eof) (left : List Token) : Leads (t :: left) left :=
  ⟨[t], rfl, by simpa using ht⟩

theorem length_le (h : Leads tokens left) : left.length ≤ tokens.length := by
  obtain ⟨passed, rfl, -⟩ := h
  simp

end Leads

/-- **Where a reader stops** that was given `tokens`.  An error blames a token from `start` on, and
leaves what is left from this token on or less.  A parameter that is one too many is there. -/
inductive Stops {α : Type} (start tokens : List Token) :
    EStateM.Result ParseFailure (List Token) α → Prop
  | ok (a : α) {left : List Token} (h : Leads tokens left) : Stops start tokens (.ok a left)
  | error {e : ParseError} {left : List Token} (hs : Leads start e.remaining)
      (hl : Leads e.remaining left)
      (hp : ∀ owner, e.fault = .tooManyParameters owner → e.remaining ≠ []) :
    Stops start tokens (.error (.error e) left)
  | halt (h : ParseHalt) (left : List Token) : Stops start tokens (.error (.halt h) left)

/-- What stops rightly for tokens further on stops rightly for those that lead there. -/
theorem Stops.mono {α : Type} {start start' tokens tokens' : List Token}
    {result : EStateM.Result ParseFailure (List Token) α} (h : Stops start tokens result)
    (hs : Leads start' start) (ht : Leads tokens' tokens) : Stops start' tokens' result := by
  cases h with
  | ok a h => exact .ok a (ht.trans h)
  | error hs' hl hp => exact .error (hs.trans hs') hl hp
  | halt h left => exact .halt h left

namespace Reader

/-! ## Readers with different bounds -/

variable {α β : Type} {start : List Token} {n : Nat} {r r' : Reader α}

/-- The readers are the same on at most `n` of the tokens from `start` on, and stop there. -/
def SteadyFrom (start : List Token) (n : Nat) (r r' : Reader α) : Prop :=
  ∀ tokens, Leads start tokens → tokens.length ≤ n →
    r tokens = r' tokens ∧ Stops start tokens (r tokens)

/-- **The readers are the same on at most `n` tokens**, and stop among them. -/
def Steady (n : Nat) (r r' : Reader α) : Prop := ∀ start, SteadyFrom start n r r'

/-- Steady readers one after the other are steady. -/
theorem SteadyFrom.bind {f f' : α → Reader β} (h : SteadyFrom start n r r')
    (hf : ∀ a, SteadyFrom start n (f a) (f' a)) : SteadyFrom start n (r >>= f) (r' >>= f') := by
  intro tokens hs hn
  obtain ⟨he, ht⟩ := h tokens hs hn
  generalize hr : r tokens = result at he ht
  -- the second readers are asked only if the first ones succeed, and on fewer tokens
  cases ht with
  | ok a hl =>
    rw [bind_of_ok hr, bind_of_ok he.symm]
    obtain ⟨he, ht⟩ := hf a _ (hs.trans hl) (Nat.le_trans hl.length_le hn)
    exact ⟨he, ht.mono (.refl start) hl⟩
  | error hs' hl hp =>
    rw [bind_eq_error_iff.2 (.inl hr), bind_eq_error_iff.2 (.inl he.symm)]
    exact ⟨rfl, .error hs' hl hp⟩
  | halt h left =>
    rw [bind_eq_error_iff.2 (.inl hr), bind_eq_error_iff.2 (.inl he.symm)]
    exact ⟨rfl, .halt h left⟩

/-- The token that is blamed was kept before. -/
theorem SteadyFrom.failAt (fault : ParseFault) (hf : ∀ owner, fault ≠ .tooManyParameters owner) :
    SteadyFrom start n (failAt fault start : Reader α) (Reader.failAt fault start) :=
  fun _ hs _ => ⟨rfl, .error (.refl start) hs fun owner h => (hf owner h).elim⟩

namespace Steady

theorem of_stops (h : ∀ tokens, Stops tokens tokens (r tokens)) : Steady n r r :=
  fun _ tokens hs _ => ⟨rfl, (h tokens).mono hs (.refl tokens)⟩

theorem of_le {m : Nat} (h : Steady n r r') (hm : m ≤ n) : Steady m r r' :=
  fun start tokens hs hl => h start tokens hs (Nat.le_trans hl hm)

theorem pure (a : α) : Steady n (pure a) (pure a) := of_stops fun tokens => .ok a (.refl tokens)

theorem bind {f f' : α → Reader β} (h : Steady n r r') (hf : ∀ a, Steady n (f a) (f' a)) :
    Steady n (r >>= f) (r' >>= f') :=
  fun start => (h start).bind fun a => hf a start

theorem map (f : α → β) (h : Steady n r r') : Steady n (f <$> r) (f <$> r') := by
  rw [← bind_pure_comp, ← bind_pure_comp]
  exact h.bind fun a => .pure _

theorem ite {b : Bool} {s s' : Reader α} (h : Steady n r r') (h' : Steady n s s') :
    Steady n (if b then r else s) (if b then r' else s') := by
  cases b
  · exact h'
  · exact h

/-- A choice with the same reader after either side. -/
theorem iteBind {b : Bool} {s s' : Reader α} {f f' : α → Reader β} (h : Steady n r r')
    (h' : Steady n s s') (hf : ∀ a, Steady n (f a) (f' a)) :
    Steady n (if b then r >>= f else s >>= f) (if b then r' >>= f' else s' >>= f') :=
  (h.bind hf).ite (h'.bind hf)

/-- The tokens from here on are kept, to blame the first of them. -/
theorem here {f f' : List Token → Reader α}
    (h : ∀ start, SteadyFrom start n (f start) (f' start)) :
    Steady n (get >>= f) (get >>= f') := by
  intro start tokens hs hn
  rw [bind_of_ok (get_eq_ok_iff.2 ⟨rfl, rfl⟩), bind_of_ok (get_eq_ok_iff.2 ⟨rfl, rfl⟩)]
  obtain ⟨he, ht⟩ := h tokens tokens (.refl tokens) hn
  exact ⟨he, ht.mono hs (.refl tokens)⟩

/-- The number of tokens left bounds a loop. -/
theorem left {f f' : List Token → Reader α} (h : ∀ ts, Steady n (f ts) (f' ts)) :
    Steady n (get >>= f) (get >>= f') := here fun start => h start start

/-! ## Readers that look at tokens -/

theorem peek? : Steady n Reader.peek? Reader.peek? :=
  of_stops fun tokens => .ok _ (.refl tokens)

theorem nextIs (kind : TokenKind) : Steady n (Reader.nextIs kind) (Reader.nextIs kind) :=
  peek?.bind fun _ => .pure _

/-- Failing is steady.  That there are too many parameters is not said in this way, as it blames a
parameter. -/
theorem fail (fault : ParseFault) (hf : ∀ owner, fault ≠ .tooManyParameters owner) :
    Steady n (Reader.fail fault : Reader α) (Reader.fail fault) :=
  of_stops fun tokens => .error (.refl tokens) (.refl tokens) fun owner h => (hf owner h).elim

end Steady

/-- No token is taken, or the first one, which is not the end of the input. -/
theorem acceptAny?_cases (kinds : List TokenKind) (tokens : List Token) :
    acceptAny? kinds tokens = .ok none tokens ∨ ∃ t rest, tokens = t :: rest ∧ t.kind ≠ .eof ∧
      acceptAny? kinds tokens = .ok (some t) rest := by
  unfold acceptAny?
  split
  · exact .inl rfl
  · next t rest =>
    split
    · next h => exact .inr ⟨t, rest, rfl, h.1, rfl⟩
    · exact .inl rfl

namespace SteadyFrom

/-- A token of one of the kinds is taken, or there is none. -/
theorem acceptAny? {kinds : List TokenKind} {f f' : Option Token → Reader α}
    (hyes : ∀ t, ∀ m < n, SteadyFrom start m (f (some t)) (f' (some t)))
    (hno : SteadyFrom start n (f none) (f' none)) :
    SteadyFrom start n (Reader.acceptAny? kinds >>= f) (Reader.acceptAny? kinds >>= f') := by
  intro tokens hs hn
  rcases acceptAny?_cases kinds tokens with h | ⟨t, rest, rfl, ht, h⟩ <;>
    rw [bind_of_ok h, bind_of_ok h]
  · exact hno tokens hs hn
  · have hl := Leads.cons ht rest
    obtain ⟨he, ht⟩ := hyes t rest.length hn rest (hs.trans hl) (Nat.le_refl _)
    exact ⟨he, ht.mono (.refl start) hl⟩

/-- A choice by the next token is steady if both ways are.  When the token is taken there are fewer
left. -/
theorem accept {kind : TokenKind} {yes yes' no no' : Reader α}
    (hyes : ∀ m < n, SteadyFrom start m yes yes') (hno : SteadyFrom start n no no') :
    SteadyFrom start n (do if ← Reader.accept kind then yes else no)
      (do if ← Reader.accept kind then yes' else no') := by
  have hr (yes no : Reader α) : (do if ← Reader.accept kind then yes else no) =
      Reader.acceptAny? [kind] >>= fun t? => if t?.isSome then yes else no := by
    rw [Reader.accept, bind_assoc]
    simp only [pure_bind]
  rw [hr, hr]
  exact acceptAny? (fun _ => hyes) hno

end SteadyFrom

namespace Steady

/-- A choice by the kinds of the next token is steady if every way is. -/
theorem acceptAny? {kinds : List TokenKind} {f f' : Option Token → Reader α}
    (hyes : ∀ t, ∀ m < n, Steady m (f (some t)) (f' (some t)))
    (hno : Steady n (f none) (f' none)) :
    Steady n (Reader.acceptAny? kinds >>= f) (Reader.acceptAny? kinds >>= f') :=
  fun start => .acceptAny? (fun t m hm => hyes t m hm start) (hno start)

theorem accept {kind : TokenKind} {yes yes' no no' : Reader α}
    (hyes : ∀ m < n, Steady m yes yes') (hno : Steady n no no') :
    Steady n (do if ← Reader.accept kind then yes else no)
      (do if ← Reader.accept kind then yes' else no') :=
  fun start => .accept (fun m hm => hyes m hm start) (hno start)

/-- A token may be taken, with the same reader after it or without it. -/
theorem acceptBind {kind : TokenKind} {yes yes' no no' : Reader α} {f f' : α → Reader β}
    (hyes : ∀ m < n, Steady m yes yes') (hno : Steady n no no')
    (hf : ∀ a, Steady n (f a) (f' a)) :
    Steady n (do if ← Reader.accept kind then yes >>= f else no >>= f)
      (do if ← Reader.accept kind then yes' >>= f' else no' >>= f') :=
  .accept (fun m hm => (hyes m hm).bind fun a => (hf a).of_le (Nat.le_of_lt hm)) (hno.bind hf)

/-- Asking for a token is steady: at the end of the input there is none. -/
theorem expect (kind : TokenKind) (what : Expectation) :
    Steady n (Reader.expect kind what) (Reader.expect kind what) :=
  .acceptAny? (fun t _ _ => .pure t) (.fail _ (by simp))

/-- The reader decides by the next token, and takes it or not. -/
theorem branch {f f' : Option Token → Reader α} (hno : Steady n (f none) (f' none))
    (h : ∀ t : Token, t.kind ≠ .eof → Steady n (f (some t)) (f' (some t)) ∨
      ∃ s s', f (some t) = (do skip; s) ∧ f' (some t) = (do skip; s') ∧ ∀ m < n, Steady m s s') :
    Steady n (Reader.peek? >>= f) (Reader.peek? >>= f') := by
  intro start tokens hs hn
  have hp (t? : Option Token) (ht : (if atEnd tokens then none else tokens.head?) = t?) :
      Reader.peek? tokens = .ok t? tokens := peek?_eq_ok_iff.2 ⟨ht, rfl⟩
  -- there is no next token at the end of the list, nor before a token that is the end
  rcases tokens with _ | ⟨t, rest⟩
  · rw [bind_of_ok (hp none rfl), bind_of_ok (hp none rfl)]
    exact hno start [] hs hn
  by_cases ht : t.kind = .eof
  · have hp := hp none (if_pos (by simp [atEnd, ht]))
    rw [bind_of_ok hp, bind_of_ok hp]
    exact hno start _ hs hn
  have hp := hp (some t) (if_neg (by simp [atEnd, ht]))
  rw [bind_of_ok hp, bind_of_ok hp]
  rcases h t ht with h | ⟨s, s', hf, hf', h⟩
  · exact h start _ hs hn
  · have hl := Leads.cons ht rest
    have hskip : skip (t :: rest) = .ok () rest := rfl
    rw [hf, hf', bind_of_ok hskip, bind_of_ok hskip]
    obtain ⟨he, ht⟩ := h rest.length hn start rest (hs.trans hl) (Nat.le_refl _)
    exact ⟨he, ht.mono (.refl start) hl⟩

end Steady

/-! ## Expressions -/

section

variable {item item' : Reader Expr}

theorem commaTail_steady (h : Steady n r r') (bound : Nat) :
    Steady n (commaTail r bound) (commaTail r' bound) := by
  induction bound with
  | zero => exact .pure []
  | succ bound ih =>
    refine .accept (fun m hm => ?_) (.pure [])
    have hm := Nat.le_of_lt hm
    exact (h.of_le hm).bind fun head => (ih.of_le hm).bind fun tail => .pure _

theorem commaList_steady (h : Steady n r r') : Steady n (commaList r) (commaList r') :=
  h.bind fun _ => .left fun ts => (commaTail_steady h ts.length).bind fun _ => .pure _

theorem expressionOf_steady (h : Steady n item item') :
    Steady n (expressionOf item) (expressionOf item') :=
  (commaList_steady h).map _

/-- The loop of a level is steady if its operands are, however many rounds it may take. -/
theorem operatorChain_steady (level : Level) (h : Steady n item item') (bound : Nat)
    (first : Expr) :
    Steady n (operatorChain level item bound first) (operatorChain level item' bound first) := by
  induction bound generalizing first with
  | zero => exact .pure first
  | succ bound ih =>
    refine .acceptAny? (fun op m hm => ?_) (.pure first)
    have hm := Nat.le_of_lt hm
    exact (h.of_le hm).bind fun right => (ih _).of_le hm

/-- All levels are steady if the operands of the tightest one are. -/
theorem operators_steady (levels : List Level) (h : Steady n item item') :
    Steady n (operators item levels) (operators item' levels) := by
  induction levels with
  | nil => exact h
  | cons level tighter ih =>
    exact ih.bind fun first => .left fun ts => operatorChain_steady level ih ts.length first

/-- Too many arguments are blamed on the closing parenthesis, once it has been taken. -/
theorem arguments_steady (h : Steady n item item') :
    Steady n (arguments item) (arguments item') := by
  refine (Steady.nextIs _).bind fun b => .iteBind (.pure []) (commaList_steady h) fun args =>
    .here fun start => (Steady.expect _ _ start).bind fun paren => ?_
  split
  · exact .failAt _ (by simp)
  · exact Steady.pure _ start

/-- The loop of calls reads arguments only when a parenthesis was taken. -/
theorem applications_steady (h : ∀ m < n, Steady m item item') (bound : Nat) (callee : Expr) :
    Steady n (applications item bound callee) (applications item' bound callee) := by
  induction bound generalizing callee with
  | zero => exact .pure callee
  | succ bound ih =>
    refine .accept (fun m hm => ?_) (.accept (fun m hm => ?_) (.pure callee))
    · exact (arguments_steady (h m hm)).bind fun _ => (ih _).of_le (Nat.le_of_lt hm)
    · exact (Steady.expect _ _).bind fun _ => (ih _).of_le (Nat.le_of_lt hm)

end

/-! ## Functions and classes -/

section

variable {declaration declaration' : Reader Stmt}

/-- Items up to a closing brace are steady if each of them is. -/
theorem untilBrace_steady (h : Steady n r r') (bound : Nat) :
    Steady n (untilBrace r bound) (untilBrace r' bound) := by
  induction bound with
  | zero => exact .pure []
  | succ bound ih =>
    exact Steady.peek?.bind fun _ => .ite (.pure []) (h.bind fun _ => ih.bind fun _ => .pure _)

theorem braced_steady (h : Steady n r r') (close : Expectation) :
    Steady n (braced r close) (braced r' close) :=
  .left fun ts => (untilBrace_steady h ts.length).bind fun _ =>
    (Steady.expect _ _).bind fun _ => .pure _

/-- A parameter that is one too many is blamed if it is there. -/
theorem parameterNames_steady (owner : Owner) (room : Nat) :
    Steady n (parameterNames owner room) (parameterNames owner room) := by
  induction room generalizing n with
  | zero =>
    refine .of_stops fun tokens => ?_
    rw [parameterNames, bind_of_ok (get_eq_ok_iff.2 ⟨rfl, rfl⟩)]
    cases tokens with
    | nil => exact .halt _ _
    | cons t rest => exact .error (.refl _) (.refl _) fun _ _ => by simp
  | succ room ih =>
    exact (Steady.expect _ _).bind fun _ =>
      .accept (fun m hm => ih.bind fun _ => .pure _) (.pure _)

/-- Parameters are read by no bound on nesting. -/
theorem parameters_steady (owner : Owner) : Steady n (parameters owner) (parameters owner) :=
  (Steady.expect _ _).bind fun _ => (Steady.nextIs _).bind fun _ =>
    .iteBind (.pure []) (parameterNames_steady owner maxArity) fun _ =>
      (Steady.expect _ _).bind fun _ => .pure _

theorem function_steady (h : Steady n declaration declaration') (kind : FunctionKind) :
    Steady n (function declaration kind) (function declaration' kind) :=
  (Steady.expect _ _).bind fun _ => (parameters_steady _).bind fun _ =>
    (Steady.expect _ _).bind fun _ => (braced_steady h _).bind fun _ => .pure _

theorem lambda_steady (h : Steady n declaration declaration') (keyword : Token) :
    Steady n (lambda declaration keyword) (lambda declaration' keyword) :=
  (parameters_steady _).bind fun _ => (Steady.expect _ _).bind fun _ =>
    (braced_steady h _).bind fun _ => .pure _

/-- A class is steady if the bodies of its methods are. -/
theorem classDeclaration_steady (h : Steady n declaration declaration') :
    Steady n (classDeclaration declaration) (classDeclaration declaration') :=
  (Steady.expect _ _).bind fun _ => (Steady.expect _ _).bind fun _ =>
    (braced_steady (function_steady h .method) _).bind fun _ => .pure _

end

/-! ## Statements -/

section

variable {expression expression' : Reader Expr} {statement statement' : Reader Stmt}

theorem varDeclaration_steady (h : Steady n expression expression') :
    Steady n (varDeclaration expression) (varDeclaration expression') :=
  (Steady.expect _ _).bind fun _ =>
    .acceptBind (fun _ hm => (h.of_le (Nat.le_of_lt hm)).map some) (.pure none) fun _ =>
      (Steady.expect _ _).bind fun _ => .pure _

theorem expressionStatement_steady (h : Steady n expression expression') :
    Steady n (expressionStatement expression) (expressionStatement expression') :=
  h.bind fun _ => (Steady.expect _ _).bind fun _ => .pure _

theorem printStatement_steady (h : Steady n expression expression') :
    Steady n (printStatement expression) (printStatement expression') :=
  h.bind fun _ => (Steady.expect _ _).bind fun _ => .pure _

theorem returnStatement_steady (h : Steady n expression expression') (keyword : Token) :
    Steady n (returnStatement expression keyword) (returnStatement expression' keyword) :=
  (Steady.nextIs _).bind fun _ => .iteBind (.pure none) (h.map some) fun _ =>
    (Steady.expect _ _).bind fun _ => .pure _

theorem ifStatement_steady (he : Steady n expression expression')
    (hs : Steady n statement statement') :
    Steady n (ifStatement expression statement) (ifStatement expression' statement') :=
  (Steady.expect _ _).bind fun _ => he.bind fun _ => (Steady.expect _ _).bind fun _ =>
    hs.bind fun _ => .acceptBind (fun _ hm => (hs.of_le (Nat.le_of_lt hm)).map some) (.pure none)
      fun _ => .pure _

theorem whileStatement_steady (he : Steady n expression expression')
    (hs : Steady n statement statement') :
    Steady n (whileStatement expression statement) (whileStatement expression' statement') :=
  (Steady.expect _ _).bind fun _ => he.bind fun _ => (Steady.expect _ _).bind fun _ =>
    hs.bind fun _ => .pure _

theorem forInitializer_steady (h : Steady n expression expression') :
    Steady n (forInitializer expression) (forInitializer expression') :=
  .accept (fun _ _ => .pure none) <|
    .accept (fun _ hm => (varDeclaration_steady (h.of_le (Nat.le_of_lt hm))).map some)
      ((expressionStatement_steady h).map some)

/-- A `for` statement is steady if its parts are. -/
theorem forStatement_steady (he : Steady n expression expression')
    (hs : Steady n statement statement') :
    Steady n (forStatement expression statement) (forStatement expression' statement') :=
  (Steady.expect _ _).bind fun _ => (forInitializer_steady he).bind fun _ =>
    (Steady.nextIs _).bind fun _ => .iteBind (.pure _) he fun _ =>
      (Steady.expect _ _).bind fun _ => (Steady.nextIs _).bind fun _ =>
        .iteBind (.pure none) (he.map some) fun _ =>
          (Steady.expect _ _).bind fun _ => hs.bind fun _ => .pure _

end

/-! ## Where the grammar refers back to itself -/

/-- **The readers that refer back to each other are the same at two depths** that the tokens
cannot reach: after a token has been taken, eight more readers may be entered. -/
structure SteadyAt (depth depth' : Nat) : Prop where
  assignment : ∀ n, 8 * n + 4 ≤ depth → 8 * n + 4 ≤ depth' →
    Steady n (assignment depth) (assignment depth')
  ternary : ∀ n, 8 * n + 3 ≤ depth → 8 * n + 3 ≤ depth' →
    Steady n (ternary depth) (ternary depth')
  unary : ∀ n, 8 * n + 2 ≤ depth → 8 * n + 2 ≤ depth' → Steady n (unary depth) (unary depth')
  primary : ∀ n, 8 * n + 1 ≤ depth → 8 * n + 1 ≤ depth' →
    Steady n (primary depth) (primary depth')
  statement : ∀ n, 8 * n + 5 ≤ depth → 8 * n + 5 ≤ depth' →
    Steady n (statement depth) (statement depth')
  declaration : ∀ n, 8 * n + 6 ≤ depth → 8 * n + 6 ≤ depth' →
    Steady n (declaration depth) (declaration depth')

section

variable {depth depth' : Nat}

/-- A target that is none is blamed on the `=` after it, once the value has been read. -/
theorem assignment_steady (h : SteadyAt depth depth') (hd : 8 * n + 4 ≤ depth + 1)
    (hd' : 8 * n + 4 ≤ depth' + 1) :
    Steady n (assignment (depth + 1)) (assignment (depth' + 1)) := by
  refine (h.ternary n (by omega) (by omega)).bind fun target =>
    .here fun start => .accept (fun m hm => ?_) (Steady.pure target start)
  refine (h.assignment m (by omega) (by omega) start).bind fun value => ?_
  cases target with
  | «variable» | get => exact Steady.pure _ start
  | _ => exact .failAt _ (by simp)

theorem ternary_steady (h : SteadyAt depth depth') (hd : 8 * n + 3 ≤ depth + 1)
    (hd' : 8 * n + 3 ≤ depth' + 1) : Steady n (ternary (depth + 1)) (ternary (depth' + 1)) := by
  have hu := h.unary n (by omega) (by omega)
  refine (operators_steady levels hu).bind fun condition => .accept (fun m hm => ?_) (.pure _)
  have ht := h.ternary m (by omega) (by omega)
  exact ht.bind fun _ => (Steady.expect _ _).bind fun _ => ht.bind fun _ => .pure _

theorem unary_steady (h : SteadyAt depth depth') (hd : 8 * n + 2 ≤ depth + 1)
    (hd' : 8 * n + 2 ≤ depth' + 1) : Steady n (unary (depth + 1)) (unary (depth' + 1)) := by
  refine .acceptAny? (fun op m hm => ?_) ?_
  · exact (h.unary m (by omega) (by omega)).bind fun _ => .pure _
  · refine (h.primary n (by omega) (by omega)).bind fun callee => .left fun ts => ?_
    exact applications_steady (fun m hm => h.assignment m (by omega) (by omega)) _ callee

/-- Primary expressions are steady: what is in them is read after a token was taken. -/
theorem primary_steady (h : SteadyAt depth depth') (hd : 8 * n + 1 ≤ depth + 1)
    (hd' : 8 * n + 1 ≤ depth' + 1) : Steady n (primary (depth + 1)) (primary (depth' + 1)) := by
  refine .branch (.fail _ (by simp)) fun t _ => ?_
  dsimp only
  split
  any_goals exact .inr ⟨_, _, rfl, rfl, fun _ _ => .pure _⟩
  · refine .inr ⟨_, _, rfl, rfl, fun m hm => ?_⟩
    exact lambda_steady (h.declaration m (by omega) (by omega)) t
  · refine .inr ⟨_, _, rfl, rfl, fun m hm => ?_⟩
    exact (expressionOf_steady (h.assignment m (by omega) (by omega))).bind fun _ =>
      (Steady.expect _ _).bind fun _ => .pure _
  · exact .inl (.fail _ (by simp))

/-- Statements are steady: what is in them is read after their keyword was taken. -/
theorem statement_steady (h : SteadyAt depth depth') (hd : 8 * n + 5 ≤ depth + 1)
    (hd' : 8 * n + 5 ≤ depth' + 1) :
    Steady n (statement (depth + 1)) (statement (depth' + 1)) := by
  have he : Steady n (expressionOf (assignment depth)) (expressionOf (assignment depth')) :=
    expressionOf_steady (h.assignment n (by omega) (by omega))
  have he' (m : Nat) (hm : m < n) := he.of_le (Nat.le_of_lt hm)
  have hs (m : Nat) (hm : m < n) : Steady m (statement depth) (statement depth') :=
    h.statement m (by omega) (by omega)
  refine .branch (expressionStatement_steady he) fun t _ => ?_
  dsimp only
  split
  · exact .inr ⟨_, _, rfl, rfl, fun m hm => forStatement_steady (he' m hm) (hs m hm)⟩
  · exact .inr ⟨_, _, rfl, rfl, fun m hm => ifStatement_steady (he' m hm) (hs m hm)⟩
  · exact .inr ⟨_, _, rfl, rfl, fun m hm => printStatement_steady (he' m hm)⟩
  · exact .inr ⟨_, _, rfl, rfl, fun m hm => returnStatement_steady (he' m hm) t⟩
  · exact .inr ⟨_, _, rfl, rfl, fun m hm => whileStatement_steady (he' m hm) (hs m hm)⟩
  · refine .inr ⟨_, _, rfl, rfl, fun m hm => ?_⟩
    exact (braced_steady (h.declaration m (by omega) (by omega)) _).bind fun _ => .pure _
  · exact .inl (expressionStatement_steady he)

/-- A declared function stands next, or something else. -/
theorem functionNext_steady {yes yes' no no' : Reader α} (hyes : ∀ m < n, Steady m yes yes')
    (hno : Steady n no no') :
    Steady n (do if startsFunction (← get) then skip; yes else no)
      (do if startsFunction (← get) then skip; yes' else no') := by
  intro start tokens hs hn
  rw [bind_of_ok (get_eq_ok_iff.2 ⟨rfl, rfl⟩), bind_of_ok (get_eq_ok_iff.2 ⟨rfl, rfl⟩)]
  split
  · next hf =>
    obtain ⟨keyword, rest, rfl, hk⟩ : ∃ keyword rest, tokens = keyword :: rest ∧
        keyword.kind = .fun := by
      rcases tokens with _ | ⟨keyword, _ | ⟨name, rest⟩⟩
      · cases hf
      · cases hf
      · exact ⟨keyword, _, rfl, by simp_all [startsFunction]⟩
    have hl : Leads (keyword :: rest) rest := .cons (by simp [hk]) rest
    have hskip : skip (keyword :: rest) = .ok () rest := rfl
    rw [bind_of_ok hskip, bind_of_ok hskip]
    obtain ⟨he, ht⟩ := hyes rest.length hn start rest (hs.trans hl) (Nat.le_refl _)
    exact ⟨he, ht.mono (.refl start) hl⟩
  · exact hno start tokens hs hn

/-- Declarations are steady: what is in them is read after their keyword was taken, and so the
bounds are enough again. -/
theorem declaration_steady (h : SteadyAt depth depth') (hd : 8 * n + 6 ≤ depth + 1)
    (hd' : 8 * n + 6 ≤ depth' + 1) :
    Steady n (declaration (depth + 1)) (declaration (depth' + 1)) := by
  -- the keyword has been taken, so there are fewer tokens, and the bounds are enough again
  refine .accept (fun m hm => ?_) <| functionNext_steady (fun m hm => ?_) <|
    .accept (fun m hm => ?_) (h.statement n (by omega) (by omega))
  · exact classDeclaration_steady (h.declaration m (by omega) (by omega))
  · exact (function_steady (h.declaration m (by omega) (by omega)) .function).bind fun _ => .pure _
  · exact varDeclaration_steady (expressionOf_steady (h.assignment m (by omega) (by omega)))

/-- **Enough depth is enough**: with two bounds that are large enough, every reader comes to the
same result. -/
theorem steadyAt (depth depth' : Nat) : SteadyAt depth depth' := by
  induction depth generalizing depth' with
  | zero => constructor <;> intro n hn <;> omega
  | succ depth ih =>
    cases depth' with
    | zero => constructor <;> intro n _ hn <;> omega
    | succ depth' =>
      have h := ih depth'
      exact ⟨fun _ => assignment_steady h, fun _ => ternary_steady h, fun _ => unary_steady h,
        fun _ => primary_steady h, fun _ => statement_steady h, fun _ => declaration_steady h⟩

end

/-- **The bound on the nesting of a declaration makes no difference**, if it goes with the number
of tokens. -/
theorem declaration_congr {depth depth' : Nat} {tokens : List Token}
    (h : 8 * tokens.length + 6 ≤ depth) (h' : 8 * tokens.length + 6 ≤ depth') :
    declaration depth tokens = declaration depth' tokens :=
  ((steadyAt depth depth').declaration _ h h' tokens tokens (.refl tokens) (Nat.le_refl _)).1

end Reader

/-- A declaration is read alike by every bound that is large enough. -/
theorem readDeclaration_eq {depth : Nat} {tokens : List Token}
    (h : 8 * tokens.length + 6 ≤ depth) :
    Reader.declaration depth tokens = readDeclaration tokens :=
  Reader.declaration_congr h (by unfold depthBound; omega)

/-- **Where the reader of declarations stops.** -/
theorem readDeclaration_stops (tokens : List Token) :
    Stops tokens tokens (readDeclaration tokens) :=
  have hd : 8 * tokens.length + 6 ≤ depthBound tokens := by unfold depthBound; omega
  ((Reader.steadyAt _ _).declaration _ hd hd tokens tokens (.refl tokens) (Nat.le_refl _)).2

/-- Reading a declaration takes tokens, and none that ends the input. -/
theorem leads_of_readDeclaration {tokens rest : List Token} {s : Stmt}
    (h : readDeclaration tokens = .ok s rest) : Leads tokens rest := by
  have hs := readDeclaration_stops tokens
  rw [h] at hs
  cases hs with
  | ok _ hl => exact hl

/-- **Where an error is blamed.** -/
theorem readDeclaration_blames {tokens left : List Token} {e : ParseError}
    (h : readDeclaration tokens = .error (.error e) left) :
    Leads tokens e.remaining ∧ Leads e.remaining left ∧
      ∀ owner, e.fault = .tooManyParameters owner → e.remaining ≠ [] := by
  have hs := readDeclaration_stops tokens
  rw [h] at hs
  cases hs with
  | error hs hl hp => exact ⟨hs, hl, hp⟩

end ScopedScript

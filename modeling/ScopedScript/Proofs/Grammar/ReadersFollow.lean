import ScopedScript.Proofs.Grammar.Follows

/-!
# The readers follow the grammar

Every reader follows the right-hand side of its rule, as far down as the bound on nesting allows.

Two places need more than one token to look ahead, or a word of the grammar that is not the one in
sight.  An `else` may belong to several `if`s, and the reader takes it for the nearest.  And the
keyword of a function may begin a declaration or, without a name, an expression.

## Main results

* `Reader.followsAt`: the readers that refer back to each other follow their rules.
-/

namespace ScopedScript

namespace Reader

open Form

variable {α β : Type} {n : Nat}

/-! ## Expressions -/

section

variable {item : Reader Expr}
  (h : ∀ n, Follows n item (.ref .assignment) .never assignmentFollowers)

include h

/-- The loop after an item goes along any number of commas and items. -/
theorem commaTail_follows (bound : Nat) : Follows bound (commaTail item bound)
    (.many (.seq (.kind .comma) (.ref .assignment))) .never expressionFollowers := by
  induction bound with
  | zero => exact .exhausted []
  | succ bound ih =>
    refine .of_iff (.accept ?_ (.pure []) (by decide)) fun ts => matches_many_seq_iff.symm
    exact (h bound).bind (fun head => ih.last) (by decide)

theorem commaList_follows : Follows n (commaList item) expression .never expressionFollowers :=
  (h n).bind (fun _ => .left fun ts => (commaTail_follows h ts.length).last) (by decide)

/-- An expression is read along its form. -/
theorem expressionOf_follows :
    Follows n (expressionOf item) expression .never expressionFollowers :=
  (commaList_follows h).map _

/-- The number of arguments is not for the grammar to say. -/
theorem arguments_follows : Follows n (arguments item) Form.arguments .never [] := by
  refine .optional (commaList_follows h) (fun args => .left fun here => .check
    (.expect .argumentsClose (by decide)) (fun paren => ?_) rfl) (by decide)
  split
  · exact .of_relaxed fun ts => .inl ⟨_, ts, rfl, rfl⟩
  · exact .pure _

/-- The loop of calls goes along any number of arguments and properties. -/
theorem applications_follows (bound : Nat) (callee : Expr) :
    Follows bound (applications item bound callee) calls .never callFollowers := by
  induction bound generalizing callee with
  | zero => exact .exhausted callee
  | succ bound ih =>
    have hcall : Follows bound (arguments item >>= fun x =>
        applications item bound (.call callee x.1 x.2)) (.seq .arguments calls) .never
          callFollowers :=
      (arguments_follows h).bind (fun x => ih _) (by decide)
    have hget : Follows bound (expect .identifier .propertyName >>= fun name =>
        applications item bound (.get callee name)) (.seq (.kind .identifier) calls) .never
          callFollowers :=
      .bind (.expect _ (by decide)) (fun name => ih _) (by decide)
    refine .of_iff (.accept hcall (.accept hget (.pure callee) (by decide)) (by decide))
      fun ts => ?_
    simp only [calls, matches_many_alt_iff, matches_alt_iff, matches_seq_assoc, matches_empty_iff]

end

/-! ## Operators -/

/-- One round of the loop of a level is a choice by the next token. -/
theorem operatorChain_succ (level : Level) (operand : Reader Expr) (bound : Nat) (left : Expr) :
    operatorChain level operand (bound + 1) left = choose level.kinds
      (fun op => operand >>= fun right =>
        operatorChain level operand bound (level.join left op right)) (pure left) := by
  funext ts
  rw [operatorChain, choose]
  rcases acceptAny?_cases level.kinds ts with h | ⟨t, us, rfl, -, h⟩ <;>
    rw [bind_of_ok h, bind_of_ok h] <;> rfl

section

variable {operand : Reader Expr} {form : Form} {followers : List TokenKind} {level : Level}
  (h : ∀ n, Follows n operand form .never followers)
  (hd : decides level.kinds (.seq form (.many (.seq (.token level.kinds) form))) .empty .never
    (level.kinds ++ followers) = true)
  (hj : (many (.seq (.token level.kinds) form)).joins followers .never
    (level.kinds ++ followers) = true)

include h hd hj

/-- The loop of a level goes along any number of operators and operands. -/
theorem operatorChain_follows (bound : Nat) (left : Expr) :
    Follows bound (operatorChain level operand bound left)
      (.many (.seq (.token level.kinds) form)) .never (level.kinds ++ followers) := by
  induction bound generalizing left with
  | zero => exact .exhausted left
  | succ bound ih =>
    have hright (op : Token) := (h bound).bind (fun right => ih (level.join left op right)) hj
    rw [operatorChain_succ]
    exact .of_iff (.choose hright (.pure left) hd) fun ts => matches_many_seq_iff.symm

/-- Operators of one level join operands of the tighter levels. -/
theorem operators_follows : Follows n (do
    let left ← operand
    operatorChain level operand (← get).length left) (chain level.kinds form) .never
      (level.kinds ++ followers) :=
  (h n).bind (fun left => .left fun ts => operatorChain_follows h hd hj ts.length left) hj

end

/-! ## Functions and classes -/

section

variable {item : Reader α} {bound : Nat} {f : List α → Reader β} {ts : List Token}

/-- Items end at a closing brace, or where nothing is left. -/
theorem untilBrace_stop (h : atEnd ts = true ∨ Begins [.rightBrace] ts) :
    (untilBrace item (bound + 1) >>= f) ts = f [] ts := by
  have hp : peek? ts = .ok (if atEnd ts then none else ts.head?) ts := rfl
  have ha : (if atEnd ts then none else ts.head?).all (·.kind == .rightBrace) = true := by
    rcases h with h | h
    · simp [h]
    · obtain ⟨t, us, rfl, ht⟩ := exists_cons_of_begins h
      split <;> simp_all
  rw [untilBrace, bind_assoc, bind_of_ok hp, if_pos ha, pure_bind]

/-- Where no closing brace stands next, one more item is read. -/
theorem untilBrace_go (h : ¬ (atEnd ts = true ∨ Begins [.rightBrace] ts)) :
    (untilBrace item (bound + 1) >>= f) ts =
      (item >>= fun head => untilBrace item bound >>= fun tail => f (head :: tail)) ts := by
  have hp : peek? ts = .ok (if atEnd ts then none else ts.head?) ts := rfl
  have ha : ¬ (if atEnd ts then none else ts.head?).all (·.kind == .rightBrace) = true := by
    rcases ts with _ | ⟨t, us⟩ <;> simp_all [atEnd]
  rw [untilBrace, bind_assoc, bind_of_ok hp, if_neg ha]
  simp only [bind_assoc, pure_bind]

variable {a inner : Form} {extending : List TokenKind} (h : ∀ n, Follows n item a inner extending)
  (hb : a.fillsBraces extending = true)

include h hb

/-- Items up to a closing brace, and what comes from the brace on. -/
theorem untilBrace_follows (hf : ∀ m x, Follows m (f x) (.kind .rightBrace) .never []) :
    Follows bound (untilBrace item bound >>= f) (.seq (.many a) (.kind .rightBrace)) .never
      [] := by
  have hb' := hb
  simp only [fillsBraces, Bool.and_eq_true] at hb'
  obtain ⟨⟨hn, hs⟩, hj⟩ := hb'
  have hn : a.nullable = false := by simpa using hn
  have hs (kind : TokenKind) (hk : kind ∈ a.first) : kind ∉ [TokenKind.rightBrace, .eof] := by
    simpa using List.all_eq_true.1 hs kind hk
  induction bound generalizing f with
  | zero =>
    rw [untilBrace, pure_bind]
    exact (hf 0 []).exhausted_before rfl
  | succ bound ih =>
    have hmore (head : α) := ih fun m tail => hf m (head :: tail)
    have hitem := (h (bound + 1)).bindTaking hmore (fun used hu => ?_) hj
    refine .of_iff (.branch (hf (bound + 1) []) hitem (fun ts => untilBrace_stop)
      (fun ts => untilBrace_go) (fun s word after ts blocks hw _ _ ht => ?_)
      fun s word after ts blocks hw _ _ ht hstop => ?_) fun ts => ?_
    · exact .inr (ht.begins_iff.2 ((hw.begins_of_not_nullable rfl).append _))
    · obtain ⟨us, vs, rfl, hu, -⟩ := matches_seq_iff.1 hw
      have hbegins := hu.begins_of_not_nullable hn
      refine not_begins_of_begins (ht.begins_iff.2 ((hbegins.append vs).append _)) hs ?_
      rcases ts with _ | ⟨t, ts⟩
      · rw [(List.append_eq_nil_iff.1 ht.eq_nil.2).1] at hw
        exact hw.begins_of_not_nullable (by simp [nullable, hn])
      · rcases hstop with hstop | hstop
        · simp [show t.kind = .eof by simpa [atEnd] using hstop]
        · simp [List.mem_singleton.1 hstop]
    · rw [matches_alt_iff, matches_many_before_iff]
    · have := (hu.begins_of_not_nullable hn).length_pos
      omega

/-- Items are read along their forms up to the closing brace. -/
theorem braced_follows (close : Expectation) :
    Follows n (braced item close) (.seq (.many a) (.kind .rightBrace)) .never [] :=
  .left fun _ => untilBrace_follows h hb fun _ _ => (Follows.expect close (by decide)).last

end

/-- The number of parameters is not for the grammar to say. -/
theorem parameterNames_follows (owner : Owner) (room : Nat) : Follows n
    (parameterNames owner room) (commaSeparated (.kind .identifier)) .never [.comma] := by
  induction room generalizing n with
  | zero =>
    refine .of_relaxed fun ts => ?_
    rw [parameterNames, bind_of_ok (get_eq_ok_iff.2 ⟨rfl, rfl⟩)]
    cases ts with
    | nil => exact .inr ⟨_, _, rfl⟩
    | cons t rest => exact .inl ⟨_, _, rfl, rfl⟩
  | succ room ih =>
    have hmore (head : Token) : Follows n (do
        if ← accept .comma then return head :: (← parameterNames owner room) else return [head])
        (.many (.seq (.kind .comma) (.kind .identifier))) .never [.comma] :=
      .of_iff (.accept ih.last (.pure _) (by decide)) fun ts => matches_many_seq_iff.symm
    exact (Follows.expect _ (by decide)).bind hmore (by decide)

/-- Parameters are read along their form. -/
theorem parameters_follows (owner : Owner) :
    Follows n (parameters owner) Form.parameters .never [] :=
  (Follows.expect _ (by decide)).bind (fun _ => .optional (parameterNames_follows owner maxArity)
    (fun _ => (Follows.expect _ (by decide)).last) (by decide)) (by decide)

section

variable {declaration : Reader Stmt}
  (h : ∀ n, Follows n declaration (.ref .declaration) .otherwise [.else])

include h

theorem blockBody_follows : Follows n (blockBody declaration) .body .never [] :=
  braced_follows h (by decide) _

theorem function_follows (kind : FunctionKind) :
    Follows n (function declaration kind) .function .never [] :=
  (Follows.expect _ (by decide)).bind (fun _ => (parameters_follows _).bind (fun _ =>
    (Follows.expect _ (by decide)).bind (fun _ => (blockBody_follows h).last) (by decide))
      (by decide)) (by decide)

theorem lambda_follows (keyword : Token) : Follows n (lambda declaration keyword)
    (.all [.parameters, .kind .leftBrace, .body]) .never [] :=
  (parameters_follows _).bind (fun _ => (Follows.expect _ (by decide)).bind (fun _ =>
    (blockBody_follows h).last) (by decide)) (by decide)

/-- A class is read along its form. -/
theorem classDeclaration_follows :
    Follows n (classDeclaration declaration) .classTail .never [] :=
  (Follows.expect _ (by decide)).bind (fun _ => (Follows.expect _ (by decide)).bind (fun _ =>
    (braced_follows (fun _ => function_follows h .method) (by decide) _).last) (by decide))
      (by decide)

end

/-! ## Statements -/

section

variable {expression : Reader Expr} {statement : Reader Stmt}
  (he : ∀ n, Follows n expression .expression .never expressionFollowers)

include he

theorem varDeclaration_follows : Follows n (varDeclaration expression) .varTail .never [] :=
  (Follows.expect _ (by decide)).bind (fun _ => .acceptBind ((he _).map some)
    (fun _ _ => (Follows.expect _ (by decide)).last) (by decide) (by decide)) (by decide)

theorem expressionStatement_follows :
    Follows n (expressionStatement expression) .expressionStatement .never [] :=
  (he n).bind (fun _ => (Follows.expect _ (by decide)).last) (by decide)

theorem printStatement_follows :
    Follows n (printStatement expression) .expressionStatement .never [] :=
  (he n).bind (fun _ => (Follows.expect _ (by decide)).last) (by decide)

theorem returnStatement_follows (keyword : Token) :
    Follows n (returnStatement expression keyword)
      (.seq (.opt .expression) (.kind .semicolon)) .never [] :=
  .optional ((he n).map some) (fun _ => (Follows.expect _ (by decide)).last) (by decide)

/-- The first part of a `for` statement is read along its form: the next token tells which it is. -/
theorem forInitializer_follows : Follows n (forInitializer expression) .initializer .never [] := by
  refine .of_iff (.accept (.pure none) (.accept ((varDeclaration_follows he).map some)
    ((expressionStatement_follows he).map some) (by decide)) (by decide)) fun ts => ?_
  simp only [initializer, any, matches_alt_iff, matches_seq_empty_iff]

variable (hs : ∀ n, Follows n statement (.ref .statement) .otherwise [.else])

include hs

/-- A loop is read along its form, and may go on into what its body goes on into. -/
theorem whileStatement_follows :
    Follows n (whileStatement expression statement) .whileTail .otherwise [.else] :=
  (Follows.expect _ (by decide)).bind (fun _ => (he n).bind (fun _ =>
    (Follows.expect _ (by decide)).bind (fun _ => (hs n).last) (by decide)) (by decide)) (by decide)

/-- A `for` statement is read along its form, and may go on into what its body goes on into. -/
theorem forStatement_follows :
    Follows n (forStatement expression statement) .forTail .otherwise [.else] :=
  (Follows.expect _ (by decide)).bind (fun _ => (forInitializer_follows he).bind (fun _ =>
    .optional (he n) (fun _ => (Follows.expect _ (by decide)).bind (fun _ =>
      .optional ((he n).map some) (fun _ => (Follows.expect _ (by decide)).bind (fun _ =>
        (hs n).last) (by decide)) (by decide)) (by decide)) (by decide)) (by decide)) (by decide)

end

section

variable {yes : Reader α} {x : α}
  (h : ∀ n, Follows n yes (.ref .statement) .otherwise [.else])

include h

/-- An `else` that is there is taken, and the statement after it may go on into the blocks after
that. -/
theorem otherwise_fares {s : Sight} {word after ts : List Token} {blocks : List (List Token)}
    (hw : Matches .otherwise word) (hb : ∀ block ∈ blocks, Matches .otherwise block)
    (ha : ¬ Begins [.else] after) (ht : s.OnTrack (word ++ (blocks.flatten ++ after)) ts) :
    Fares s blocks after (choose [.else] (fun _ => yes) (pure x) ts) := by
  obtain ⟨_, us, rfl, hk, hu⟩ := matches_seq_iff.1 hw
  obtain ⟨t, rfl, hk'⟩ := matches_token_iff.1 hk
  obtain ⟨vs, rfl, ht | ht⟩ := ht.cons <;> rw [choose_cons (by decide) hk']
  · exact (h vs.length).keeps (Nat.le_refl _) hu hb ha ht
  · exact (h 0).past ht blocks after

/-- An `else` is taken, be it one of this statement or one that follows it. -/
theorem otherwise_follows :
    Follows n (do if ← accept .else then yes else pure x) (.opt .otherwise) .otherwise [.else] := by
  have hplain : Follows n (do if ← accept .else then yes else pure x) (.opt .otherwise) .never
      [.else] := (h (n - 1)).alone.accept (.pure x) (by decide)
  refine ⟨hplain.reads, hplain.stops, fun s word after ts blocks hn hw hb ha ht => ?_⟩
  rw [accept_eq_choose]
  rcases matches_alt_iff.1 hw with hw | hw
  · exact otherwise_fares h hw hb ha ht
  obtain rfl := matches_empty_iff.1 hw
  rcases blocks with _ | ⟨block, blocks⟩
  · rw [choose_of_not_begins (by decide) fun he => ha (ht.begins_iff.1 he)]
    exact .through x (List.suffix_refl []) ht
  · rw [List.flatten_cons, List.nil_append, List.append_assoc] at ht
    have hf := otherwise_fares h (x := x) (hb block (by simp))
      (fun b hm => hb b (by simp [hm])) ha ht
    exact hf.widen (List.suffix_cons block blocks)

end

section

variable {expression : Reader Expr} {statement : Reader Stmt}
  (he : ∀ n, Follows n expression .expression .never expressionFollowers)
  (hs : ∀ n, Follows n statement (.ref .statement) .otherwise [.else])

/-- **An `else` belongs to the nearest `if`.**  It is taken where the grammar would leave it to a
statement further out, and then that one does without, as the others leave one less. -/
theorem thenElse_follows {f : Stmt → Reader α}
    (hs : ∀ n, Follows n statement (.ref .statement) .otherwise [.else])
    (hf : ∀ n x, Follows n (f x) (.opt .otherwise) .otherwise [.else]) :
    Follows n (statement >>= f) (.seq (.ref .statement) (.opt .otherwise)) .otherwise
      [.else] where
  reads _ _ _ h := (hs n).reads_bind (hf n) h
  stops _ _ _ h := (hs n).stops_bind (hf n) rfl h
  keeps s word after ts blocks hn hw hb ha ht := by
    obtain ⟨us, vs, rfl, hu, hv⟩ := matches_seq_iff.1 hw
    -- the `else` of this statement is one more block after the inner one
    obtain ⟨inner, hi, hft, hrest⟩ : ∃ inner : List (List Token),
        (∀ block ∈ inner, Matches .otherwise block) ∧ vs ++ blocks.flatten = inner.flatten ∧
        ∀ block left, block :: left <:+ inner → left <:+ blocks := by
      rcases matches_alt_iff.1 hv with hv | hv
      · refine ⟨vs :: blocks, List.forall_mem_cons.2 ⟨hv, hb⟩, rfl, fun block left hl => ?_⟩
        rcases List.suffix_cons_iff.1 hl with hl | hl
        · exact (List.cons.inj hl).2 ▸ List.suffix_refl left
        · exact (List.suffix_cons block left).trans hl
      · rw [matches_empty_iff.1 hv]
        exact ⟨blocks, hb, rfl, fun block left hl => (List.suffix_cons block left).trans hl⟩
    rw [List.append_assoc, ← List.append_assoc vs, hft] at ht
    have h := (hs n).keeps hn hu hi ha ht
    rcases hr : statement ts with ⟨x, mid⟩ | ⟨e, left⟩ <;> rw [hr] at h
    · rw [bind_of_ok hr]
      have hl : mid.length ≤ n := by
        obtain ⟨used, rfl, -⟩ := (hs n).reads hr
        rw [List.length_append] at hn
        omega
      cases h with
      | @through _ _ blocks' hb' h =>
        rcases blocks' with _ | ⟨block, left⟩
        · exact ((hf n x).keeps hl (.right .empty) (by simp) ha h).widen List.nil_suffix
        · have hleft := hrest block left hb'
          have hblock := hi block (hb'.mem List.mem_cons_self)
          rw [List.flatten_cons, List.append_assoc] at h
          have hn := (hf n x).keeps hl (.left hblock) (fun b hm => hb b (hleft.mem hm)) ha h
          exact hn.widen hleft
      | past _ h => exact (hf n x).past h blocks after
    · rw [bind_eq_error_iff.2 (.inl hr)]
      cases h with
      | error h => exact .error h
      | halt h => exact .halt h

include he hs

/-- A branch is read along its form, and may go on into the `else` after it. -/
theorem ifStatement_follows :
    Follows n (ifStatement expression statement) .ifTail .otherwise [.else] :=
  (Follows.expect _ (by decide)).bind (fun _ => (he n).bind (fun _ =>
    (Follows.expect _ (by decide)).bind (fun _ => thenElse_follows hs fun n _ =>
      otherwise_follows fun n => ((hs n).map some).last) (by decide)) (by decide)) (by decide)

end

/-! ## Where the grammar refers back to itself -/

section

variable {yes no : Reader α} {ts : List Token}

theorem functionNext_of_starts {keyword : Token} (h : startsFunction (keyword :: ts) = true) :
    (do if startsFunction (← get) then skip; yes else no) (keyword :: ts) = yes ts := by
  rw [bind_of_ok (get_eq_ok_iff.2 ⟨rfl, rfl⟩), if_pos h]
  rfl

theorem functionNext_of_not_starts (h : startsFunction ts = false) :
    (do if startsFunction (← get) then skip; yes else no) ts = no ts := by
  rw [bind_of_ok (get_eq_ok_iff.2 ⟨rfl, rfl⟩), if_neg (by simp [h])]

theorem exists_cons_of_startsFunction (h : startsFunction ts = true) :
    ∃ keyword rest, ts = keyword :: rest ∧ keyword.kind = .fun := by
  rcases ts with _ | ⟨keyword, _ | ⟨name, rest⟩⟩
  · cases h
  · cases h
  · exact ⟨keyword, _, rfl, by simp_all [startsFunction]⟩

/-- A function is declared where a keyword and a name come next. -/
theorem startsFunction_cons_iff {keyword : Token} :
    startsFunction (keyword :: ts) = true ↔ keyword.kind = .fun ∧ Begins [.identifier] ts := by
  cases ts <;> simp [startsFunction]

variable {a b trailing : Form} {followers : List TokenKind} {s : Sight} {word after : List Token}
  {blocks : List (List Token)}

/-- A declared function is in sight, or only its keyword is. -/
theorem functionNext_fares_function (hyes : ∀ n, Follows n yes a trailing followers)
    (hno : ∀ n, Follows n no b trailing followers) (ha : a.first = [.identifier])
    (han : a.nullable = false)
    (hl : ∀ {keyword : Token}, keyword.kind = .fun → ∃ ts, Matches b (keyword :: ts))
    (hw : Matches (.seq (.kind .fun) a) word) (hb : ∀ block ∈ blocks, Matches trailing block)
    (haf : ¬ Begins followers after) (ht : s.OnTrack (word ++ (blocks.flatten ++ after)) ts) :
    Fares s blocks after ((do if startsFunction (← get) then skip; yes else no) ts) := by
  obtain ⟨_, us, rfl, hk, hu⟩ := matches_seq_iff.1 hw
  obtain ⟨keyword, rfl, hk'⟩ := matches_token_iff.1 hk
  have hk : keyword.kind = .fun := List.mem_singleton.1 hk'
  have hname := ha ▸ hu.begins_of_not_nullable han
  obtain ⟨vs, rfl, ht' | hp⟩ := ht.cons
  · have hs := startsFunction_cons_iff.2 ⟨hk, ht'.begins_iff.2 (hname.append _)⟩
    rw [functionNext_of_starts hs]
    exact (hyes vs.length).keeps (Nat.le_refl _) hu hb haf ht'
  cases hs : startsFunction (keyword :: vs) with
  | true =>
    rw [functionNext_of_starts hs]
    exact (hyes 0).past hp blocks after
  | false =>
    rw [functionNext_of_not_starts hs]
    -- only the keyword is in sight, so that a function without a name may come as well
    cases s with
    | whole => exact hp.elim
    | upTo other rest =>
      obtain ⟨shared, hn, -, he⟩ := ht
      obtain ⟨rfl, rfl⟩ : [keyword] = shared ∧ vs = rest := by
        refine List.append_inj' (show [keyword] ++ vs = shared ++ rest from he) ?_
        have hlen : vs.length + 1 = shared.length + rest.length := by
          simpa using congrArg List.length he
        have hpos := List.length_pos_iff.2 hn
        change vs.length ≤ rest.length at hp
        omega
      obtain ⟨other', ho⟩ := hl hk
      refine ((hno (vs.length + 1)).keeps_closed (s := .upTo other' vs) (Nat.le_refl _) ho
        (not_begins_nil _) ⟨[keyword], hn, by simp, rfl⟩).of_other

/-- Something else is in sight, or at least its first token is. -/
theorem functionNext_fares_other (hyes : ∀ n, Follows n yes a trailing followers)
    (hno : ∀ n, Follows n no b trailing followers) (hbn : b.nullable = false)
    (hbf : b.noFunction = true) (hw : Matches b word)
    (hb : ∀ block ∈ blocks, Matches trailing block) (haf : ¬ Begins followers after)
    (ht : s.OnTrack (word ++ (blocks.flatten ++ after)) ts) :
    Fares s blocks after ((do if startsFunction (← get) then skip; yes else no) ts) := by
  cases hs : startsFunction ts with
  | false =>
    rw [functionNext_of_not_starts hs]
    exact (hno ts.length).keeps (Nat.le_refl _) hw hb haf ht
  | true =>
    obtain ⟨keyword, us, rfl, hk⟩ := exists_cons_of_startsFunction hs
    rw [functionNext_of_starts hs]
    rcases word with _ | ⟨t, word⟩
    · exact (hw.begins_of_not_nullable hbn).elim
    obtain ⟨vs, he, ht' | hp⟩ := ht.cons <;> obtain ⟨rfl, rfl⟩ := List.cons.inj he
    · have hw := (hw.not_startsFunction hbf).resolve_left (by simp) (blocks.flatten ++ after)
      have hname := (startsFunction_cons_iff.1 hs).2
      have := startsFunction_cons_iff.2 ⟨hk, ht'.begins_iff.1 hname⟩
      exact absurd (hw.symm.trans this) Bool.false_ne_true
    · exact (hyes 0).past hp blocks after

/-- **A declared function stands next, or something else.**  Where only the keyword is in sight,
what comes after it may not be what the word has there.  Then the other reader goes along another
word, in which a function without a name begins. -/
theorem functionNext_follows (hyes : ∀ n, Follows n yes a trailing followers)
    (hno : ∀ n, Follows n no b trailing followers) (ha : a.first = [.identifier])
    (han : a.nullable = false) (hbn : b.nullable = false) (hb : b.noFunction = true)
    (hl : ∀ {keyword : Token}, keyword.kind = .fun → ∃ ts, Matches b (keyword :: ts)) :
    Follows n (do if startsFunction (← get) then skip; yes else no)
      (.alt (.seq (.kind .fun) a) b) trailing followers where
  reads ts rest x h := by
    cases hs : startsFunction ts with
    | true =>
      obtain ⟨keyword, us, rfl, hk⟩ := exists_cons_of_startsFunction hs
      rw [functionNext_of_starts hs] at h
      obtain ⟨used, rfl, hu⟩ := (hyes n).reads h
      exact ⟨[keyword] ++ used, rfl, .left (.seq (.token (by simp [hk])) hu)⟩
    | false =>
      rw [functionNext_of_not_starts hs] at h
      exact ((hno n).reads h).imp fun _ => And.imp_right .right
  stops ts left e h he := by
    cases hs : startsFunction ts with
    | true =>
      obtain ⟨keyword, us, rfl, hk⟩ := exists_cons_of_startsFunction hs
      rw [functionNext_of_starts hs] at h
      obtain ⟨hg, used, more, rfl, hm⟩ := (hyes n).stops h he
      have hm : Matches (.seq (.kind .fun) a) ([keyword] ++ (used ++ more)) :=
        .seq (.token (by simp [hk])) hm
      exact ⟨hg, [keyword] ++ used, more, rfl, .left hm⟩
    | false =>
      rw [functionNext_of_not_starts hs] at h
      obtain ⟨hg, used, more, hu, hm⟩ := (hno n).stops h he
      exact ⟨hg, used, more, hu, .right hm⟩
  keeps s word after ts blocks hn hw hbl haf ht := by
    rcases matches_alt_iff.1 hw with hw | hw
    · exact functionNext_fares_function hyes hno ha han hl hw hbl haf ht
    · exact functionNext_fares_other hyes hno hbn hb hw hbl haf ht

end

/-- **The readers that refer back to each other follow their rules.** -/
structure FollowsAt (depth : Nat) : Prop where
  assignment : ∀ n, Follows n (assignment depth) (.ref .assignment) .never assignmentFollowers
  ternary : ∀ n, Follows n (ternary depth) (.ref .ternary) .never ternaryFollowers
  unary : ∀ n, Follows n (unary depth) (.ref .unary) .never callFollowers
  primary : ∀ n, Follows n (primary depth) (.ref .primary) .never []
  statement : ∀ n, Follows n (statement depth) (.ref .statement) .otherwise [.else]
  declaration : ∀ n, Follows n (declaration depth) (.ref .declaration) .otherwise [.else]

theorem unary_succ (depth : Nat) : unary (depth + 1) =
    choose [.bang, .minus] (fun op => return .unary op (← unary depth))
      (primary depth >>= fun callee =>
        get >>= fun ts => applications (assignment depth) ts.length callee) := by
  funext ts
  rw [unary, choose]
  rcases acceptAny?_cases [.bang, .minus] ts with h | ⟨t, us, rfl, -, h⟩ <;>
    rw [bind_of_ok h, bind_of_ok h] <;> rfl

/-- Reading a primary expression is a choice by the next token, kind after kind. -/
theorem primary_succ (depth : Nat) : primary (depth + 1) =
    choose [.false] (fun _ => return .literal (.bool false)) (
    choose [.true] (fun _ => return .literal (.bool true)) (
    choose [.nil] (fun _ => return .literal .nil) (
    choose [.number] (fun t => return .literal t.literal.value) (
    choose [.string] (fun t => return .literal t.literal.value) (
    choose [.this] (fun t => return .this t none) (
    choose [.identifier] (fun t => return .variable t none) (
    choose [.fun] (fun t => lambda (declaration depth) t) (
    choose [.leftParen] (fun _ => do
      let inner ← expressionOf (assignment depth)
      let _ ← expect .rightParen .groupClose
      return .group inner) (
    fail .noExpression))))))))) := by
  funext ts
  rw [primary]
  rcases ts with _ | ⟨⟨kind, lexeme, literal, line⟩, ts⟩
  · rfl
  · cases kind <;> rfl

/-- Reading a statement is a choice by the next token, keyword after keyword. -/
theorem statement_succ (depth : Nat) : statement (depth + 1) =
    choose [.for] (fun _ => forStatement (expressionOf (assignment depth)) (statement depth)) (
    choose [.if] (fun _ => ifStatement (expressionOf (assignment depth)) (statement depth)) (
    choose [.print] (fun _ => printStatement (expressionOf (assignment depth))) (
    choose [.return] (fun t => returnStatement (expressionOf (assignment depth)) t) (
    choose [.while] (fun _ => whileStatement (expressionOf (assignment depth)) (statement depth)) (
    choose [.leftBrace] (fun _ => return .block (← blockBody (declaration depth))) (
    expressionStatement (expressionOf (assignment depth)))))))) := by
  funext ts
  rw [statement]
  rcases ts with _ | ⟨⟨kind, lexeme, literal, line⟩, ts⟩
  · rfl
  · cases kind <;> rfl

section

variable {depth : Nat} (h : FollowsAt depth)

include h

/-- Any conditional expression may be a target here, and is judged afterwards. -/
theorem assignment_follows :
    Follows n (assignment (depth + 1)) (.ref .assignment) .never assignmentFollowers := by
  refine .ref .assignment <| (h.ternary n).bind (fun target => .left fun here =>
    .accept (.check (h.assignment _) (fun value => ?_) (by decide)) (.pure target) (by decide))
      (by decide)
  cases target with
  | «variable» | get => exact .pure _
  | _ => exact .of_relaxed fun ts => .inl ⟨_, ts, rfl, rfl⟩

theorem levels_follow :
    Follows n (operators (unary depth) levels) logicOr .never Tier.or.followers :=
  operators_follows (fun _ => operators_follows (fun _ => operators_follows (fun _ =>
    operators_follows (fun _ => operators_follows (fun _ => operators_follows h.unary
      (by decide) (by decide)) (by decide) (by decide)) (by decide) (by decide)) (by decide)
        (by decide)) (by decide) (by decide)) (by decide) (by decide)

theorem ternary_follows :
    Follows n (ternary (depth + 1)) (.ref .ternary) .never ternaryFollowers :=
  .ref .ternary <| (levels_follow h).bind (fun _ => .accept ((h.ternary _).bind (fun _ =>
    (Follows.expect _ (by decide)).bind (fun _ => (h.ternary _).last) (by decide)) (by decide))
      (.pure _) (by decide)) (by decide)

theorem unary_follows : Follows n (unary (depth + 1)) (.ref .unary) .never callFollowers := by
  rw [unary_succ]
  exact .ref .unary <| .choose (fun _ => (h.unary _).last) ((h.primary n).bind (fun callee =>
    .left fun ts => applications_follows h.assignment ts.length callee) (by decide)) (by decide)

/-- Primary expressions are read along their forms. -/
theorem primary_follows : Follows n (primary (depth + 1)) (.ref .primary) .never [] := by
  rw [primary_succ]
  have hgroup (m : Nat) : Follows m (do
      let inner ← expressionOf (assignment depth)
      let _ ← expect .rightParen .groupClose
      return Expr.group inner) (.seq .expression (.kind .rightParen)) .never [] :=
    (expressionOf_follows h.assignment).bind (fun _ => (Follows.expect _ (by decide)).last)
      (by decide)
  refine .ref .primary <| .of_iff (.choose (fun _ => .pure _) (.choose (fun _ => .pure _)
    (.choose (fun _ => .pure _) (.choose (fun _ => .pure _) (.choose (fun _ => .pure _)
    (.choose (fun _ => .pure _) (.choose (fun _ => .pure _)
    (.choose (fun t => lambda_follows h.declaration t)
    (.demand (fun _ => hgroup _) (by decide) (by decide) rfl)
    (by decide)) (by decide)) (by decide)) (by decide)) (by decide)) (by decide)) (by decide))
    (by decide)) fun ts => ?_
  simp only [Nonterminal.rule, any, Form.kind, matches_alt_iff, matches_seq_empty_iff]

/-- Statements are read along their forms. -/
theorem statement_follows :
    Follows n (statement (depth + 1)) (.ref .statement) .otherwise [.else] := by
  rw [statement_succ]
  have he (n : Nat) : Follows n (expressionOf (assignment depth)) .expression .never
      expressionFollowers := expressionOf_follows h.assignment
  exact .ref .statement <|
    .choose (fun _ => forStatement_follows he h.statement) (
    .choose (fun _ => ifStatement_follows he h.statement) (
    .choose (fun _ => (printStatement_follows he).closed) (
    .choose (fun t => (returnStatement_follows he t).closed) (
    .choose (fun _ => whileStatement_follows he h.statement) (
    .choose (fun _ => (blockBody_follows h.declaration).last.closed)
      (expressionStatement_follows he).closed
    (by decide)) (by decide)) (by decide)) (by decide)) (by decide)) (by decide)

/-- Declarations are read along their forms. -/
theorem declaration_follows :
    Follows n (declaration (depth + 1)) (.ref .declaration) .otherwise [.else] := by
  have hvar (n : Nat) : Follows n (varDeclaration (expressionOf (assignment depth))) .varTail
      .otherwise [.else] :=
    (varDeclaration_follows fun _ => expressionOf_follows h.assignment).closed
  refine .ref .declaration <| .accept (classDeclaration_follows h.declaration).closed
    (functionNext_follows (fun _ => (function_follows h.declaration .function).last.closed)
      (fun _ => .accept (hvar _) (h.statement _) (by decide)) rfl rfl rfl (by decide) ?_)
        (by decide)
  intro keyword hk
  exact (exists_matches_lambda hk).imp fun _ => .right

end

/-- **All readers follow their forms**, at any depth that is enough for the tokens. -/
theorem followsAt (depth : Nat) : FollowsAt depth := by
  induction depth with
  | zero => constructor <;> intro n <;> exact .halt .tooDeep
  | succ depth ih =>
    exact ⟨fun _ => assignment_follows ih, fun _ => ternary_follows ih, fun _ => unary_follows ih,
      fun _ => primary_follows ih, fun _ => statement_follows ih, fun _ => declaration_follows ih⟩

end Reader

end ScopedScript

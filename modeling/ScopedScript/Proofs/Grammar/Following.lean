import ScopedScript.Proofs.Grammar.Complete
import ScopedScript.Proofs.Grammar.Position

/-!
# The parser follows the readers

A reader takes tokens off the front of a list; a parser has a position in a list that stays.  Here
the parser of every phrase is shown to follow the reader of it, phrase by phrase, from any position
and with any tokens before it: both come to the same tree or the same error, and the parser then
stands where the tokens begin that the reader leaves.  In one place both stop without an error, the
end of the input after a full parameter list.  For the phrases that refer back to themselves this
takes a depth that goes with the number of tokens left, as it does for the readers.

## Main definitions

* `Parsing.Tracks`: the parser follows the reader from anywhere.
* `Parsing.TracksAt depth`: so do the parsers of the phrases that refer back to themselves.

## Main results

* `Parsing.tracksAt`: the phrases of the grammar, at every depth.
* `Parsing.synchronize_between`: after an error the parser goes on where the reader does.
* `Parsing.programWithin_tracks`: declarations up to the end, with errors on the way.
* `Parser.Call.tracks`: every call of a parser.
-/

namespace ScopedScript

open ScopedScript.Parser

namespace Parsing

variable {α : Type} {n : Nat} {pre post : List Token → Prop}

/-- The parser follows the reader from anywhere. -/
abbrev Tracks (n : Nat) (x : Parsing α) (r : Reader α) : Prop := Follows n Anywhere x r Anywhere

/-! ## Expressions -/

section

variable {x : Parsing α} {r : Reader α} {item : Parsing Expr} {item' : Reader Expr}

/-- The loop after an item, with the tokens left as a bound. -/
theorem commaTail_tracks (h : Tracks n x r) (bound : Nat) :
    Tracks n (commaTail x bound) (Reader.commaTail r bound) := by
  induction bound with
  | zero => exact .pure []
  | succ bound ih =>
    refine .accept (by decide) (fun m hm => ?_) (.pure [])
    exact (h.of_lt hm).anywhere.bind fun head => (ih.of_lt hm).bind fun tail => .pure _

theorem commaList_tracks (h : Tracks n x r) : Tracks n (commaList x) (Reader.commaList r) :=
  h.bind fun _ => .left fun ts => (commaTail_tracks h ts.length).bind fun _ => .pure _

theorem expressionOf_tracks (h : Tracks n item item') :
    Tracks n (expressionOf item) (Reader.expressionOf item') :=
  (commaList_tracks h).map _

/-- The loop of a level, with the tokens left as a bound. -/
theorem operatorChain_tracks (level : Reader.Level) (hk : .eof ∉ level.kinds)
    (h : Tracks n item item') (bound : Nat) (first : Expr) :
    Tracks n (operatorChain level item bound first)
      (Reader.operatorChain level item' bound first) := by
  induction bound generalizing first with
  | zero => exact .pure first
  | succ bound ih =>
    refine .acceptAny hk (fun op _ m hm => .previous ?_) (.pure first)
    exact (h.of_lt hm).anywhere.bind fun right => (ih _).of_lt hm

/-- All levels of operators, from the tightest one outwards. -/
theorem operators_tracks (levels : List Reader.Level) (hk : ∀ l ∈ levels, .eof ∉ l.kinds)
    (h : Tracks n item item') :
    Tracks n (operators item levels) (Reader.operators item' levels) := by
  induction levels with
  | nil => exact h
  | cons level tighter ih =>
    have ih := ih fun l hl => hk l (List.mem_cons_of_mem _ hl)
    exact ih.bind fun first => .left fun ts =>
      operatorChain_tracks level (hk level List.mem_cons_self) ih ts.length first

/-- Arguments up to the closing parenthesis. -/
theorem arguments_tracks (h : Tracks n item item') :
    Tracks n (arguments item) (Reader.arguments item') := by
  refine (Follows.check (by decide)).bind fun b =>
    .iteBind (.pure []) (commaList_tracks h) fun args =>
      .remaining fun here => (Follows.expect (by decide) _).forget.bind fun paren => ?_
  split
  · exact .failAt _ _
  · exact .pure _

/-- The loop of calls.  Arguments are read only when a parenthesis was passed over. -/
theorem applications_tracks (h : ∀ m < n, Tracks m item item') (bound : Nat) (callee : Expr) :
    Tracks n (applications item bound callee) (Reader.applications item' bound callee) := by
  induction bound generalizing callee with
  | zero => exact .pure callee
  | succ bound ih =>
    refine .accept (by decide) (fun m hm => ?_)
      (.accept (by decide) (fun m hm => ?_) (.pure callee))
    · exact (arguments_tracks (h m hm)).anywhere.bind fun _ => (ih _).of_lt hm
    · exact (Follows.expect (by decide) _).forget.bind fun _ => (ih _).of_lt hm

end

/-! ## Functions and classes -/

section

variable {x : Parsing α} {r : Reader α} {declaration : Parsing Stmt} {declaration' : Reader Stmt}

/-- Items that each leave the parser where one of them may begin. -/
theorem untilBrace_follows (h : Follows n pre x r pre) (bound : Nat) :
    Follows n pre (untilBrace x bound) (Reader.untilBrace r bound) pre := by
  induction bound with
  | zero => exact .pure []
  | succ bound ih =>
    intro before rest hl hb
    have hk : TokenKind.rightBrace ≠ .eof := by decide
    obtain ⟨b, hc, hb'⟩ := check_between hk before rest
    have hs : (if atEnd rest then none else rest.head?).all (·.kind == .rightBrace) =
        (b || atEnd rest) := by
      cases rest with
      | nil => simp [atEnd]
      | cons t ts => by_cases ht : t.kind = .eof <;> grind [atEnd, begins_cons]
    rw [untilBrace, bind_of_ok hc, Reader.untilBrace,
      bind_of_ok (Reader.peek?_eq_ok_iff.2 ⟨rfl, rfl⟩), hs]
    cases b with
    | true => exact Follows.pure [] before rest hl hb
    | false =>
      rw [if_neg Bool.false_ne_true, bind_of_ok isAtEnd_between, Bool.false_or]
      exact Follows.ite (.pure []) (h.bind fun head => ih.bind fun tail => .pure _)
        before rest hl hb

/-- Items in braces end in the closing one. -/
theorem braced_follows (h : Follows n pre x r pre) (close : Expectation) :
    Follows n pre (braced x close) (Reader.braced r close) (EndsIn [.rightBrace]) := by
  refine .left fun ts => (untilBrace_follows h ts.length).bind fun items =>
    (Follows.expect (by decide) close).bind fun brace => ?_
  exact (Follows.pure items).mono (Nat.le_refl n) (fun _ => id) fun _ h => h.endsIn

/-- **Parameters.**  Only where there is no room left is the next token looked at without asking
whether there is one. -/
theorem parameterNames_follows (owner : Owner) {room count : Nat} (hc : count + room = maxArity) :
    Follows n (InParameters count) (parameterNames owner room)
      (Reader.parameterNames owner room) Anywhere := by
  induction room generalizing n count with
  | zero =>
    obtain rfl : count = maxArity := hc
    intro before rest _ hb
    cases rest with
    | nil =>
      rw [parameterNames, failAtNext, bind_eq_error_iff.2 (.inl peek_between_nil)]
      exact .pastEndHere hb
    | cons t rest =>
      rw [parameterNames, failAtNext, bind_of_ok peek_between, bind_of_ok remaining_between]
      exact .errorHere _
  | succ room ih =>
    refine (Follows.expect (by decide) _).bind fun head => .accept (by decide) (fun m hm => ?_)
      (Follows.pure _).forget
    have ih := @ih m (count + 1) (by omega)
    refine (ih.mono (Nat.le_refl m) ?_ fun _ => id).bind fun tail => .pure _
    rintro _ ⟨comma, hcomma, _, rfl, name, hname, _, rfl, hb⟩
    exact hb.more hname hcomma

/-- Parameters in parentheses, after what announces them. -/
theorem parameters_follows (owner : Owner) :
    Follows n Announces (parameters owner) (Reader.parameters owner) Anywhere := by
  refine (Follows.expect (by decide) _).bind fun _ => (Follows.check (by decide)).bind fun b =>
    .iteBind (Follows.pure []).forget ?_ fun params =>
      (Follows.expect (by decide) _).forget.bind fun _ => .pure _
  refine (parameterNames_follows owner (Nat.zero_add _)).mono (Nat.le_refl n) ?_ fun _ => id
  rintro _ ⟨opening, ho, _, rfl, hb⟩
  exact .opened hb ho

/-- A function stands after its keyword or in a class, and ends in a brace. -/
theorem function_follows (h : Tracks n declaration declaration') (kind : FunctionKind) :
    Follows n (EndsIn [.fun, .leftBrace, .rightBrace]) (function declaration kind)
      (Reader.function declaration' kind) (EndsIn [.rightBrace]) := by
  refine (Follows.expect (by decide) _).bind fun name => ?_
  have hp : ∀ ts, PastKind (EndsIn [.fun, .leftBrace, .rightBrace]) .identifier ts →
      Announces ts := by
    rintro _ ⟨name, hname, start, rfl, hb⟩
    exact .inr ⟨start, name, rfl, hname, hb⟩
  exact ((parameters_follows _).mono (Nat.le_refl n) hp fun _ => id).bind fun params =>
    (Follows.expect (by decide) _).forget.bind fun _ =>
      (braced_follows h _).bind fun body => .pure _

theorem lambda_follows (h : Tracks n declaration declaration') {keyword : Token}
    (hk : keyword.kind = .fun) :
    Follows n (Past pre keyword) (lambda declaration) (Reader.lambda declaration' keyword)
      Anywhere := by
  have hp : ∀ ts, Past pre keyword ts → Announces ts := by
    rintro _ ⟨start, rfl, -⟩
    exact .inl ⟨start, keyword, rfl, by simp [hk]⟩
  exact .previous <| ((parameters_follows _).mono (Nat.le_refl n) hp fun _ => id).bind fun params =>
    (Follows.expect (by decide) _).forget.bind fun _ =>
      (braced_follows h _).forget.bind fun body => .pure _

/-- A method stands after the brace that opens the body, or after that of the method before it. -/
theorem classDeclaration_tracks (h : Tracks n declaration declaration') :
    Tracks n (classDeclaration declaration) (Reader.classDeclaration declaration') := by
  have hq : ∀ ts, EndsIn [.rightBrace] ts → EndsIn [.fun, .leftBrace, .rightBrace] ts :=
    fun _ h => h.mono (by simp)
  have hm := (function_follows h .method).mono (Nat.le_refl n) (fun _ => id) hq
  have hp : ∀ ts, PastKind Anywhere .leftBrace ts → EndsIn [.fun, .leftBrace, .rightBrace] ts :=
    fun _ h => h.endsIn.mono (by simp)
  exact (Follows.expect (by decide) _).forget.bind fun name =>
    (Follows.expect (by decide) _).bind fun _ =>
      ((braced_follows hm .classClose).mono (Nat.le_refl n) hp fun _ _ => trivial).bind
        fun methods => .pure _

end

/-! ## Statements -/

section

variable {expression : Parsing Expr} {expression' : Reader Expr}
  {statement : Parsing Stmt} {statement' : Reader Stmt}

theorem varDeclaration_tracks (h : Tracks n expression expression') :
    Tracks n (varDeclaration expression) (Reader.varDeclaration expression') :=
  (Follows.expect (by decide) _).forget.bind fun name =>
    .acceptBind (by decide) (fun m hm => (h.of_lt hm).anywhere.map some) (.pure none)
      fun initializer => (Follows.expect (by decide) _).forget.bind fun _ => .pure _

theorem expressionStatement_tracks (h : Tracks n expression expression') :
    Tracks n (expressionStatement expression) (Reader.expressionStatement expression') :=
  h.bind fun value => (Follows.expect (by decide) _).forget.bind fun _ => .pure _

theorem printStatement_tracks (h : Tracks n expression expression') :
    Tracks n (printStatement expression) (Reader.printStatement expression') :=
  h.bind fun value => (Follows.expect (by decide) _).forget.bind fun _ => .pure _

theorem returnStatement_follows (h : Tracks n expression expression') {keyword : Token} :
    Follows n (Past pre keyword) (returnStatement expression)
      (Reader.returnStatement expression' keyword) Anywhere :=
  .previous <| (Follows.check (by decide)).bind fun b =>
    .iteBind (Follows.pure none).forget (h.anywhere.map some) fun value =>
      (Follows.expect (by decide) _).forget.bind fun _ => .pure _

theorem ifStatement_tracks (he : Tracks n expression expression')
    (hs : Tracks n statement statement') :
    Tracks n (ifStatement expression statement) (Reader.ifStatement expression' statement') :=
  (Follows.expect (by decide) _).forget.bind fun _ => he.bind fun condition =>
    (Follows.expect (by decide) _).forget.bind fun _ => hs.bind fun whenTrue =>
      .acceptBind (by decide) (fun m hm => (hs.of_lt hm).anywhere.map some) (.pure none)
        fun whenFalse => .pure _

theorem whileStatement_tracks (he : Tracks n expression expression')
    (hs : Tracks n statement statement') :
    Tracks n (whileStatement expression statement)
      (Reader.whileStatement expression' statement') :=
  (Follows.expect (by decide) _).forget.bind fun _ => he.bind fun condition =>
    (Follows.expect (by decide) _).forget.bind fun _ => hs.bind fun body => .pure _

theorem forInitializer_tracks (h : Tracks n expression expression') :
    Tracks n (forInitializer expression) (Reader.forInitializer expression') :=
  .accept (by decide) (fun m hm => (Follows.pure none).forget) <|
    .accept (by decide) (fun m hm => (varDeclaration_tracks (h.of_lt hm)).anywhere.map some)
      ((expressionStatement_tracks h).map some)

theorem forStatement_tracks (he : Tracks n expression expression')
    (hs : Tracks n statement statement') :
    Tracks n (forStatement expression statement) (Reader.forStatement expression' statement') :=
  (Follows.expect (by decide) _).forget.bind fun _ =>
    (forInitializer_tracks he).bind fun initializer =>
      (Follows.check (by decide)).bind fun b => .iteBind (.pure _) he fun condition =>
        (Follows.expect (by decide) _).forget.bind fun _ =>
          (Follows.check (by decide)).bind fun b =>
            .iteBind (.pure none) (he.map some) fun increment =>
              (Follows.expect (by decide) _).forget.bind fun _ => hs.bind fun body => .pure _

end

/-! ## Where the grammar refers back to itself -/

/-- **The parser follows the readers that refer back to each other**, at a depth that the tokens
left cannot reach: after a token has been passed over, eight more readers may be entered. -/
structure TracksAt (depth : Nat) : Prop where
  assignment : ∀ n, 8 * n + 4 ≤ depth → Tracks n (assignment depth) (Reader.assignment depth)
  ternary : ∀ n, 8 * n + 3 ≤ depth → Tracks n (ternary depth) (Reader.ternary depth)
  unary : ∀ n, 8 * n + 2 ≤ depth → Tracks n (unary depth) (Reader.unary depth)
  primary : ∀ n, 8 * n + 1 ≤ depth → Tracks n (primary depth) (Reader.primary depth)
  statement : ∀ n, 8 * n + 5 ≤ depth → Tracks n (statement depth) (Reader.statement depth)
  declaration : ∀ n, 8 * n + 6 ≤ depth → Tracks n (declaration depth) (Reader.declaration depth)

section

variable {depth : Nat}

theorem ternary_tracks (h : TracksAt depth) (hd : 8 * n + 3 ≤ depth + 1) :
    Tracks n (ternary (depth + 1)) (Reader.ternary (depth + 1)) := by
  have hu := h.unary n (by omega)
  refine (operators_tracks Reader.levels (by decide) hu).bind fun condition =>
    .accept (by decide) (fun m hm => ?_) (.pure _)
  have ht := h.ternary m (by omega)
  exact ht.anywhere.bind fun whenTrue => (Follows.expect (by decide) _).forget.bind fun _ =>
    ht.bind fun whenFalse => .pure _

theorem unary_tracks (h : TracksAt depth) (hd : 8 * n + 2 ≤ depth + 1) :
    Tracks n (unary (depth + 1)) (Reader.unary (depth + 1)) := by
  have hp := h.primary n (by omega)
  refine .acceptAny (by decide) (fun op _ m hm => .previous ?_)
    (hp.bind fun callee => .left fun ts => ?_)
  · exact (h.unary m (by omega)).anywhere.bind fun e => .pure _
  · exact applications_tracks (fun m hm => h.assignment m (by omega)) ts.length callee

/-- The target of an assignment is judged after its value has been read. -/
theorem assignment_tracks (h : TracksAt depth) (hd : 8 * n + 4 ≤ depth + 1) :
    Tracks n (assignment (depth + 1)) (Reader.assignment (depth + 1)) := by
  refine (h.ternary n (by omega)).bind fun target =>
    .acceptFrom (by decide) (fun here m hm => ?_) (.pure target)
  refine (h.assignment m (by omega)).anywhere.bind fun value => ?_
  -- the target is judged after the value has been read
  cases target with
  | «variable» | get => exact .pure _
  | _ => exact .failAt _ _

/-- Primary expressions, kind by kind, in the order in which the parser asks for them. -/
theorem primary_tracks (h : TracksAt depth) (hd : 8 * n + 1 ≤ depth + 1) :
    Tracks n (primary (depth + 1)) (Reader.primary (depth + 1)) := by
  refine FollowsElse.follows <|
    .branchOne (by decide) (fun t ht => ⟨_, by simp only [ht]; rfl, ?false⟩) <|
    .branchOne (by decide) (fun t ht => ⟨_, by simp only [ht]; rfl, ?true⟩) <|
    .branchOne (by decide) (fun t ht => ⟨_, by simp only [ht]; rfl, ?nil⟩) <|
    .branch (by decide) (fun t ht => ⟨pure (.literal t.literal.value), ?value, ?literal⟩) <|
    .branchOne (by decide) (fun t ht => ⟨_, by simp only [ht]; rfl, ?this⟩) <|
    .branchOne (by decide) (fun t ht => ⟨_, by simp only [ht]; rfl, ?name⟩) <|
    .branchOne (by decide) (fun t ht => ⟨_, by simp only [ht]; rfl, ?lambda⟩) <|
    .branchOne (by decide) (fun t ht => ⟨_, by simp only [ht]; rfl, ?group⟩) <|
    .otherwise (.fail _) rfl ?otherwise
  case «false» | «true» | nil => exact fun m _ => (Follows.pure _).forget
  case literal | this | name => exact fun m _ => .previous (Follows.pure _).forget
  case value =>
    rcases List.mem_cons.1 ht with ht | ht
    · simp only [ht]
    · simp only [List.mem_singleton.1 ht]
  case lambda =>
    exact fun m hm => lambda_follows (h.declaration m (by omega)) ht
  case group =>
    exact fun m hm => (expressionOf_tracks (h.assignment m (by omega))).anywhere.bind fun inner =>
      (Follows.expect (by decide) _).forget.bind fun _ => .pure _
  case otherwise =>
    intro t ht
    dsimp only
    split <;> simp_all

/-- Statements, keyword by keyword, in the order in which the parser asks for them. -/
theorem statement_tracks (h : TracksAt depth) (hd : 8 * n + 5 ≤ depth + 1) :
    Tracks n (statement (depth + 1)) (Reader.statement (depth + 1)) := by
  have he : ∀ m ≤ n, Tracks m (expressionOf (assignment depth))
      (Reader.expressionOf (Reader.assignment depth)) := fun m hm =>
    expressionOf_tracks (h.assignment m (by omega))
  have hs : ∀ m < n, Tracks m (statement depth) (Reader.statement depth) := fun m hm =>
    h.statement m (by omega)
  refine FollowsElse.follows <|
    .branchOne (by decide) (fun t ht => ⟨_, by simp only [ht]; rfl, ?forLoop⟩) <|
    .branchOne (by decide) (fun t ht => ⟨_, by simp only [ht]; rfl, ?ifElse⟩) <|
    .branchOne (by decide) (fun t ht => ⟨_, by simp only [ht]; rfl, ?print⟩) <|
    .branchOne (by decide) (fun t ht => ⟨_, by simp only [ht]; rfl, ?returns⟩) <|
    .branchOne (by decide) (fun t ht => ⟨_, by simp only [ht]; rfl, ?whileLoop⟩) <|
    .branchOne (by decide) (fun t ht => ⟨_, by simp only [ht]; rfl, ?block⟩) <|
    .otherwise (expressionStatement_tracks (he n (Nat.le_refl n))) rfl ?otherwise
  case forLoop =>
    exact fun m hm => (forStatement_tracks (he m (Nat.le_of_lt hm)) (hs m hm)).anywhere
  case ifElse =>
    exact fun m hm => (ifStatement_tracks (he m (Nat.le_of_lt hm)) (hs m hm)).anywhere
  case print => exact fun m hm => (printStatement_tracks (he m (Nat.le_of_lt hm))).anywhere
  case returns => exact fun m hm => returnStatement_follows (he m (Nat.le_of_lt hm))
  case whileLoop =>
    exact fun m hm => (whileStatement_tracks (he m (Nat.le_of_lt hm)) (hs m hm)).anywhere
  case block =>
    exact fun m hm => (braced_follows (h.declaration m (by omega)) _).forget.anywhere.bind
      fun body => .pure _
  case otherwise =>
    intro t ht
    dsimp only
    split <;> simp_all

theorem checkNext_between (before rest : List Token) (t name : Token) (kind : TokenKind) :
    checkNext kind (between before (t :: name :: rest)) =
      .ok (name.kind == kind) (between before (t :: name :: rest)) := by
  have hl : look (before.length + 1) (between before (t :: name :: rest)) =
      .ok name (between before (t :: name :: rest)) := by simp [look, between]
  rw [checkNext, bind_of_ok (get_eq_ok_iff.2 ⟨rfl, rfl⟩), if_neg (by simp [between])]
  exact bind_of_ok hl

theorem checkNext_between_single (before : List Token) (t : Token) (kind : TokenKind) :
    checkNext kind (between before [t]) = .ok false (between before [t]) := by
  rw [checkNext, bind_of_ok (get_eq_ok_iff.2 ⟨rfl, rfl⟩), if_pos (by simp [between])]
  rfl

/-- Both sides tell a declared function by the keyword and the name after it. -/
theorem startsFunction_between (before rest : List Token) :
    (check .fun <&&> checkNext .identifier) (between before rest) =
      .ok (Reader.startsFunction rest) (between before rest) := by
  have hk : TokenKind.fun ≠ .eof := by decide
  obtain ⟨b, hc, hb⟩ := check_between hk before rest
  rw [andM, bind_of_ok hc]
  cases b with
  | false =>
    have hs : Reader.startsFunction rest = false := by
      rcases rest with _ | ⟨t, _ | ⟨name, ts⟩⟩
      · rfl
      · rfl
      · simp_all [Reader.startsFunction]
    rw [hs]
    rfl
  | true =>
    change checkNext .identifier _ = _
    rcases rest with _ | ⟨t, _ | ⟨name, ts⟩⟩
    · exact (hb.1 rfl).elim
    · exact checkNext_between_single before t _
    · rw [checkNext_between, Reader.startsFunction]
      simp_all

/-- A declared function stands next, or something else. -/
theorem functionNext_follows {yes no : Parsing α} {yes' no' : Reader α}
    (hyes : ∀ m < n, Follows m (PastKind pre .fun) yes yes' post)
    (hno : Follows n pre no no' post) :
    Follows n pre
      (do
        if ← check .fun <&&> checkNext .identifier then
          let _ ← advance
          yes
        else no)
      (do
        if Reader.startsFunction (← get) then
          Reader.skip
          yes'
        else no') post := by
  intro before rest hl hb
  rw [bind_of_ok (startsFunction_between before rest), bind_of_ok (get_eq_ok_iff.2 ⟨rfl, rfl⟩)]
  split
  · next hs =>
    obtain ⟨keyword, name, rest, rfl⟩ : ∃ keyword name ts, rest = keyword :: name :: ts := by
      rcases rest with _ | ⟨t, _ | ⟨name, ts⟩⟩
      · cases hs
      · cases hs
      · exact ⟨t, name, ts, rfl⟩
    have hk : keyword.kind = .fun := by simp_all [Reader.startsFunction]
    rw [bind_of_ok (advance_between (by simp [hk])),
      bind_of_ok (Reader.skip_eq_ok_iff (u := ()).2 rfl)]
    exact (hyes _ hl _ _ (Nat.le_refl _) ⟨keyword, hk, before, rfl, hb⟩).from
  · exact hno before rest hl hb

theorem declaration_tracks (h : TracksAt depth) (hd : 8 * n + 6 ≤ depth + 1) :
    Tracks n (declaration (depth + 1)) (Reader.declaration (depth + 1)) := by
  refine .accept (by decide) (fun m hm => ?_) <| functionNext_follows (fun m hm => ?_) <|
    .accept (by decide) (fun m hm => ?_) (h.statement n (by omega))
  · exact (classDeclaration_tracks (h.declaration m (by omega))).anywhere
  · refine ((function_follows (h.declaration m (by omega)) .function).mono (Nat.le_refl m)
      (fun _ hp => ?_) fun _ _ => trivial).bind fun f => .pure _
    exact hp.endsIn.mono (by simp)
  · exact (varDeclaration_tracks (expressionOf_tracks (h.assignment m (by omega)))).anywhere

/-- **The parser follows all readers**, at any depth that is enough for the tokens. -/
theorem tracksAt (depth : Nat) : TracksAt depth := by
  induction depth with
  | zero => constructor <;> intro n hn <;> omega
  | succ depth ih =>
    exact ⟨fun _ => assignment_tracks ih, fun _ => ternary_tracks ih, fun _ => unary_tracks ih,
      fun _ => primary_tracks ih, fun _ => statement_tracks ih, fun _ => declaration_tracks ih⟩

end

/-! ## Whole inputs -/

theorem expression_tracks : Tracks n expression readExpression := by
  intro before rest hl hb
  rw [expression, bind_of_ok remaining_between, readExpression,
    bind_of_ok (get_eq_ok_iff.2 ⟨rfl, rfl⟩)]
  have ha := (tracksAt (depthBound rest)).assignment rest.length (by unfold depthBound; omega)
  refine (expressionOf_tracks ha).bind (fun e => ?_) before rest (Nat.le_refl _) hb
  intro before rest hl hb
  rw [bind_of_ok isAtEnd_between, bind_of_ok (get_eq_ok_iff.2 ⟨rfl, rfl⟩)]
  split
  · exact Follows.pure e before rest hl hb
  · cases rest with
    | nil => simp_all [atEnd]
    | cons t rest =>
      rw [failAtNext, bind_of_ok peek_between, bind_of_ok remaining_between]
      exact Follows.failAt .leftover (t :: rest) before (t :: rest) hl hb

/-- With a token ahead, the parser stops on the conditions of the reader. -/
theorem nextStatement_succ_between (before rest : List Token) (t next : Token) (bound : Nat) :
    nextStatement (bound + 1) (between (before ++ [t]) (next :: rest)) =
      (if next.kind = .eof ∨ t.kind = .semicolon ∨ startsStatement next.kind then pure ()
        else advance >>= fun _ => nextStatement bound)
      (between (before ++ [t]) (next :: rest)) := by
  rw [nextStatement, bind_of_ok isAtEnd_between]
  by_cases he : next.kind = .eof
  · rw [if_pos (by simp [atEnd, he]), if_pos (.inl he)]
  rw [if_neg (show ¬ atEnd (next :: rest) = true by simp [atEnd, he]),
    bind_of_ok previous_between]
  by_cases hs : t.kind = .semicolon
  · rw [if_pos (by simp [hs]), if_pos (.inr (.inl hs))]
  rw [if_neg (show ¬ (t.kind == .semicolon) = true by simp [hs]), bind_of_ok peek_between]
  simp only [he, hs, false_or]

/-- Passing over tokens to the next statement, once one has been passed over. -/
theorem nextStatement_between (before rest : List Token) (t : Token) {bound : Nat}
    (hb : rest.length ≤ bound) :
    ∃ used, rest = used ++ ScopedScript.nextStatement t rest ∧
      nextStatement bound (between (before ++ [t]) rest) =
        .ok () (between (before ++ [t] ++ used) (ScopedScript.nextStatement t rest)) := by
  induction rest generalizing before t bound with
  | nil =>
    refine ⟨[], rfl, ?_⟩
    rw [List.append_nil]
    cases bound with
    | zero => rfl
    | succ bound =>
      rw [nextStatement, bind_of_ok isAtEnd_between]
      rfl
  | cons next rest ih =>
    obtain ⟨bound, rfl⟩ := Nat.exists_eq_succ_of_ne_zero (n := bound) (by simp at hb; omega)
    rw [nextStatement_succ_between, ScopedScript.nextStatement]
    split
    · exact ⟨[], rfl, by rw [List.append_nil]; rfl⟩
    · next h =>
      rw [bind_of_ok (advance_between fun he => h (.inl he))]
      obtain ⟨used, hu, hx⟩ := ih (before ++ [t]) next (Nat.le_of_succ_le_succ hb)
      refine ⟨next :: used, by rw [List.cons_append, ← hu], ?_⟩
      rw [hx]
      simp

/-- **Passing over tokens to the next statement.**  At the end of the input the token before it is
looked at, so there has to be one. -/
theorem synchronize_between {before rest : List Token} (h : atEnd rest = true → before ≠ []) :
    ∃ used, rest = used ++ ScopedScript.synchronize rest ∧
      synchronize (between before rest) =
        .ok () (between (before ++ used) (ScopedScript.synchronize rest)) := by
  have hend (ha : atEnd rest = true) :
      synchronize (between before rest) = .ok () (between (before ++ []) rest) := by
    obtain ⟨start, t, rfl⟩ := (List.eq_nil_or_concat before).resolve_left (h ha)
    have hx : advance (between (start ++ [t]) rest) = .ok t (between (start ++ [t]) rest) := by
      rw [advance, bind_of_ok isAtEnd_between, if_pos ha, previous_between]
    rw [synchronize, List.concat_eq_append, bind_of_ok hx, bind_of_ok left_between,
      List.append_nil]
    cases rest with
    | nil => rfl
    | cons t rest =>
      rw [List.length_cons, nextStatement, bind_of_ok isAtEnd_between, if_pos ha]
      rfl
  cases rest with
  | nil => exact ⟨[], rfl, hend rfl⟩
  | cons t rest =>
    rw [ScopedScript.synchronize]
    by_cases ht : t.kind = .eof
    · rw [if_pos ht]
      exact ⟨[], rfl, hend (by simp [atEnd, ht])⟩
    · obtain ⟨used, hu, hx⟩ := nextStatement_between before rest t (Nat.le_refl _)
      rw [if_neg ht]
      refine ⟨t :: used, by rw [List.cons_append, ← hu], ?_⟩
      rw [synchronize, bind_of_ok (advance_between ht), bind_of_ok left_between, hx]
      simp

/-- What is added to the statements and errors of a program is added on both sides. -/
theorem follow_program {x : Parsing (List Stmt × List ParseError)} {p : Parser}
    {before rest : List Token} {reading : Reading} (f : List Stmt → List Stmt)
    (g : List ParseError → List ParseError) (h : Follow before rest post (x p) reading.result) :
    Follow before rest post (((fun program => (f program.1, g program.2)) <$> x) p)
      (Reading.result ⟨f reading.statements, g reading.errors, reading.rest, reading.halt⟩) := by
  change Follow _ _ _ (EStateM.map _ x p) _
  unfold EStateM.map
  unfold Reading.result at h ⊢
  dsimp only
  generalize x p = q at h ⊢
  cases hh : reading.halt with
  | none =>
    rw [hh] at h
    cases h with
    | ok _ used _ hr hp => exact .ok _ used _ hr hp
  | some halt =>
    rw [hh] at h
    generalize reading.rest = left at h ⊢
    cases h with
    | pastEnd hf => exact .pastEnd hf

/-- A program is read as it is parsed, declaration by declaration. -/
theorem programWithin_tracks {depth : Nat} (hd : 8 * n + 6 ≤ depth) (bound : Nat) :
    Tracks n (programWithin depth bound)
      (fun tokens => (readProgramWithin depth bound tokens).result) := by
  induction bound with
  | zero => exact .pure ([], [])
  | succ bound ih =>
    intro before rest hl hb
    dsimp only
    rw [programWithin, bind_of_ok isAtEnd_between, readProgramWithin]
    by_cases ha : atEnd rest = true
    · rw [if_pos ha, if_pos ha]
      exact Follows.pure ([], []) before rest hl hb
    rw [if_neg ha, if_neg ha]
    have hf := (tracksAt depth).declaration n hd before rest hl hb
    generalize hp : declaration depth (between before rest) = p,
      hr : Reader.declaration depth rest = r at hf
    cases hf with
    | ok s used left hu _ =>
      have ht : tryDeclaration depth (between before rest) =
          .ok (.ok s) (between (before ++ used) left) := by rw [tryDeclaration, hp]
      rw [bind_of_ok ht]
      subst hu
      have hl' : left.length ≤ n := by simp at hl; omega
      exact (follow_program (s :: ·) id (ih _ left hl' trivial)).from
    | error e used left hu =>
      have ht : tryDeclaration depth (between before rest) =
          .ok (.error e) (between (before ++ used) left) := by rw [tryDeclaration, hp]
      -- an error at the end of the input comes after a token, as the input had not ended before
      have hn : atEnd left = true → before ++ used ≠ [] := by
        intro hl he
        obtain ⟨-, rfl⟩ := List.append_eq_nil_iff.1 he
        exact ha (hu ▸ hl)
      obtain ⟨passed, hs, hx⟩ := synchronize_between hn
      have hl' : (ScopedScript.synchronize left).length ≤ n := by
        have := congrArg List.length hs
        simp [hu] at hl this
        omega
      rw [bind_of_ok ht]
      dsimp only
      rw [bind_of_ok hx, hu]
      have hf := (follow_program id (e :: ·) (ih (before ++ used ++ passed) _ hl' trivial)).from
      rw [← hs] at hf
      exact hf.from
    | pastEnd hf =>
      have ht : tryDeclaration depth (between before rest) =
          .error .pastEnd (between (before ++ rest) []) := by rw [tryDeclaration, hp]
      rw [bind_eq_error_iff.2 (.inl ht)]
      exact .pastEnd hf

end Parsing

/-- Whatever is asked of the parser, it follows the reader of the same name. -/
theorem Parser.Call.tracks {n : Nat} (call : Call) : Parsing.Tracks n call.run call.read := by
  cases call with
  | expression => exact Parsing.expression_tracks.map _
  | statement =>
    refine Follows.map _ fun before rest hl hb => ?_
    rw [bind_of_ok Parsing.remaining_between]
    exact (Parsing.tracksAt _).declaration rest.length (by unfold depthBound; omega) before rest
      (Nat.le_refl _) hb
  | program =>
    refine Follows.map _ fun before rest hl hb => ?_
    rw [Parsing.program, bind_of_ok Parsing.remaining_between, bind_of_ok Parsing.left_between]
    exact Parsing.programWithin_tracks (n := rest.length) (by unfold depthBound; omega) _
      before rest (Nat.le_refl _) hb

end ScopedScript

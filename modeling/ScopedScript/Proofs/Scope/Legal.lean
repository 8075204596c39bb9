import ScopedScript.Proofs.Scope.Located

/-!
# What scope analysis refuses

Three usages depend on where they stand: a `return` has to be in the body of a function, `this` in
a method of a class, and the value of a local variable is not to be read in its own initializer,
unless by a function there, which runs later.  This module says so on the trees alone.  It lists
these usages in the order in which the analysis comes by, each with the constructs around it, and
says which of them are illegal by looking at the constructs.

The analysis decides the same with a state that it changes on the way: the kind of function it is
in, whether it is in a class, and a mark for every name of every open scope.  At each place this
state goes with the constructs around the place (`Analysis.StandsAt`), and the analysis of each
piece of code finds the first illegal usage in it, if there is one (`Analyze.Finds`).

## Main definitions

* `Enclosure`, `Usage`, `Occurrence`: the constructs, the usages, and usages with what is around
  them.
* `Expr.occurrences`, `Stmt.occurrences`: the usages in a tree, in order.
* `Occurrence.Illegal`: the illegal ones.
* `Analyze.Finds`: a walk stops at the first illegal usage of a list.

## Main results

* `Analyze.expr_finds`, `Analyze.stmts_finds`: the walks do, for the usages in their trees.
* `refuses_first_illegal`: so scope analysis refuses exactly the illegal programs.
-/

namespace ScopedScript

/-! ## Usages and what is around them -/

/-- **The constructs that code stands in**: blocks, the bodies of declared functions, of methods
and of functions without a name, and the initializers of variables. -/
inductive Enclosure where
  | block
  | function
  | method
  | lambda
  | initializer (name : Token)
deriving DecidableEq

namespace Enclosure

/-- Whether the construct is the body of a function. -/
def isBody : Enclosure → Bool
  | function | method | lambda => true
  | block | initializer _ => false

/-- Whether variables that are declared in the construct are local. -/
def isLocal : Enclosure → Bool
  | block | function | method | lambda => true
  | initializer _ => false

end Enclosure

/-- **The usages that depend on where they stand.** -/
inductive Usage where
  | read (name : Token)
  | this (keyword : Token)
  | return (keyword : Token)

/-- What a usage is refused with, where it is illegal. -/
def Usage.refusal : Usage → ScopeError
  | read name => ⟨.ownInitializer, name⟩
  | this keyword => ⟨.thisOutsideClass, keyword⟩
  | .return keyword => ⟨.topLevelReturn, keyword⟩

/-- **A usage with the constructs around it**, from the inside out. -/
structure Occurrence where
  usage : Usage
  path : List Enclosure

mutual

/-- **The usages in an expression**, in the order in which the analysis comes by. -/
def Expr.occurrences (path : List Enclosure) : Expr → List Occurrence
  | .literal _ => []
  | .variable name _ _ => [⟨.read name, path⟩]
  | .assign _ value _ _ => value.occurrences path
  | .group inner => inner.occurrences path
  | .unary _ operand => operand.occurrences path
  | .binary left _ right => left.occurrences path ++ right.occurrences path
  | .logical left _ right => left.occurrences path ++ right.occurrences path
  | .conditional condition whenTrue whenFalse =>
    condition.occurrences path ++ (whenTrue.occurrences path ++ whenFalse.occurrences path)
  | .sequence items => Expr.allOccurrences path items
  | .call callee _ args => callee.occurrences path ++ Expr.allOccurrences path args
  | .lambda _ _ body => Stmt.allOccurrences (.lambda :: path) body
  | .get object _ => object.occurrences path
  -- the value comes before the object
  | .set object _ value => value.occurrences path ++ object.occurrences path
  | .this keyword _ _ => [⟨.this keyword, path⟩]

/-- The usages in expressions, one after the other. -/
def Expr.allOccurrences (path : List Enclosure) : List Expr → List Occurrence
  | [] => []
  | e :: es => e.occurrences path ++ Expr.allOccurrences path es

/-- The usages in an expression that may be missing. -/
def Expr.optionOccurrences (path : List Enclosure) : Option Expr → List Occurrence
  | none => []
  | some e => e.occurrences path

/-- **The usages in a statement.** -/
def Stmt.occurrences (path : List Enclosure) : Stmt → List Occurrence
  | .expression inner => inner.occurrences path
  | .print inner => inner.occurrences path
  | .var name initializer => Expr.optionOccurrences (.initializer name :: path) initializer
  | .block statements => Stmt.allOccurrences (.block :: path) statements
  | .branch condition whenTrue whenFalse =>
    condition.occurrences path ++
      (whenTrue.occurrences path ++ Stmt.optionOccurrences path whenFalse)
  | .loop condition body => condition.occurrences path ++ body.occurrences path
  | .function (.mk _ _ body) => Stmt.allOccurrences (.function :: path) body
  -- a `return` comes before what is in its value
  | .return keyword value => ⟨.return keyword, path⟩ :: Expr.optionOccurrences path value
  | .class _ methods => FunctionDecl.allOccurrences path methods

/-- The usages in statements, one after the other. -/
def Stmt.allOccurrences (path : List Enclosure) : List Stmt → List Occurrence
  | [] => []
  | s :: ss => s.occurrences path ++ Stmt.allOccurrences path ss

/-- The usages in a statement that may be missing. -/
def Stmt.optionOccurrences (path : List Enclosure) : Option Stmt → List Occurrence
  | none => []
  | some s => s.occurrences path

/-- The usages in a method. -/
def FunctionDecl.occurrences (path : List Enclosure) : FunctionDecl → List Occurrence
  | .mk _ _ body => Stmt.allOccurrences (.method :: path) body

/-- The usages in the methods of a class. -/
def FunctionDecl.allOccurrences (path : List Enclosure) : List FunctionDecl → List Occurrence
  | [] => []
  | f :: fs => f.occurrences path ++ FunctionDecl.allOccurrences path fs

end

/-! ## Illegal usages -/

/-- **The place is in the initializer of a local variable of this name**, and not in a function
without a name inside of it. -/
def InOwnInitializer (path : List Enclosure) (name : String) : Prop :=
  ∃ inner x outer, path = inner ++ .initializer x :: outer ∧ x.lexeme = name ∧
    .lambda ∉ inner ∧ ∃ e ∈ outer, e.isLocal = true

namespace InOwnInitializer

variable {path : List Enclosure} {name : String}

theorem nil : ¬ InOwnInitializer [] name := by
  rintro ⟨inner, x, outer, h, -⟩
  simp at h

/-- Inside one more initializer, code is in that of a name if the name is its variable and local, or
if it was so before. -/
theorem initializer {x : Token} :
    InOwnInitializer (.initializer x :: path) name ↔
      (x.lexeme = name ∧ ∃ e ∈ path, e.isLocal = true) ∨ InOwnInitializer path name := by
  constructor
  · rintro ⟨inner, y, outer, h, hn, hl, ho⟩
    cases inner with
    | nil =>
      cases h
      exact .inl ⟨hn, ho⟩
    | cons first inner =>
      cases h
      exact .inr ⟨inner, y, outer, rfl, hn, fun hm => hl (List.mem_cons_of_mem _ hm), ho⟩
  · rintro (⟨hn, ho⟩ | ⟨inner, y, outer, rfl, hn, hl, ho⟩)
    · exact ⟨[], x, path, rfl, hn, List.not_mem_nil, ho⟩
    · exact ⟨.initializer x :: inner, y, outer, rfl, hn, by simpa using hl, ho⟩

/-- A function without a name runs later, and may read the variable. -/
theorem lambda : ¬ InOwnInitializer (.lambda :: path) name := by
  rintro ⟨inner, x, outer, h, -, hl, -⟩
  cases inner with
  | nil => cases h
  | cons first inner =>
    cases h
    exact hl List.mem_cons_self

/-- Other constructs make no difference. -/
theorem cons {e : Enclosure} (hi : ∀ x, e ≠ .initializer x) (hl : e ≠ .lambda) :
    InOwnInitializer (e :: path) name ↔ InOwnInitializer path name := by
  constructor
  · rintro ⟨inner, x, outer, h, hn, hm, ho⟩
    cases inner with
    | nil =>
      cases h
      exact absurd rfl (hi x)
    | cons first inner =>
      cases h
      exact ⟨inner, x, outer, rfl, hn, fun hm' => hm (List.mem_cons_of_mem _ hm'), ho⟩
  · rintro ⟨inner, x, outer, rfl, hn, hm, ho⟩
    exact ⟨e :: inner, x, outer, rfl, hn, by simpa [hl.symm] using hm, ho⟩

theorem not_cons {e : Enclosure} (hi : ∀ x, e ≠ .initializer x) (hl : e ≠ .lambda)
    (h : ∀ name, ¬ InOwnInitializer path name) (name : String) :
    ¬ InOwnInitializer (e :: path) name :=
  mt (cons hi hl).1 (h name)

/-- Going out through the constructs decides. -/
instance decidable (name : String) :
    (path : List Enclosure) → Decidable (InOwnInitializer path name)
  | [] => isFalse nil
  | .lambda :: _ => isFalse lambda
  | .initializer _ :: outer =>
    have := decidable name outer
    decidable_of_iff _ initializer.symm
  | .block :: outer =>
    have := decidable name outer
    decidable_of_iff _ (cons (by simp) (by simp)).symm
  | .function :: outer =>
    have := decidable name outer
    decidable_of_iff _ (cons (by simp) (by simp)).symm
  | .method :: outer =>
    have := decidable name outer
    decidable_of_iff _ (cons (by simp) (by simp)).symm

end InOwnInitializer

/-- **The illegal usages**: a variable is read in its own initializer, `this` is in no method, or
a `return` is in no function. -/
def Occurrence.Illegal (o : Occurrence) : Prop :=
  match o.usage with
  | .read name => InOwnInitializer o.path name.lexeme
  | .this _ => .method ∉ o.path
  | .return _ => ∀ e ∈ o.path, e.isBody = false

instance Occurrence.decidableIllegal : DecidablePred Occurrence.Illegal
  | ⟨.read name, path⟩ => InOwnInitializer.decidable name.lexeme path
  | ⟨.this _, path⟩ => inferInstanceAs (Decidable (.method ∉ path))
  | ⟨.return _, path⟩ => inferInstanceAs (Decidable (∀ e ∈ path, e.isBody = false))

/-- **What usages are refused with**, one after the other: the first that is illegal counts. -/
def firstRefusal (os : List Occurrence) : Option ScopeError :=
  (os.find? (·.Illegal)).map (·.usage.refusal)

/-- The first refusal of two lists is that of the first one, if it has any. -/
theorem firstRefusal_append (os os' : List Occurrence) :
    firstRefusal (os ++ os') = (firstRefusal os).or (firstRefusal os') := by
  unfold firstRefusal
  rw [List.find?_append]
  cases os.find? (·.Illegal) <;> rfl

/-- Nothing is refused if nothing is illegal. -/
theorem firstRefusal_eq_none_iff {os : List Occurrence} :
    firstRefusal os = none ↔ ∀ o ∈ os, ¬ o.Illegal := by
  simp [firstRefusal]

/-- What is refused is the first occurrence that is illegal. -/
theorem firstRefusal_eq_some_iff {os : List Occurrence} {e : ScopeError} :
    firstRefusal os = some e ↔ ∃ before o after, os = before ++ o :: after ∧ o.Illegal ∧
      o.usage.refusal = e ∧ ∀ o' ∈ before, ¬ o'.Illegal := by
  unfold firstRefusal
  rw [Option.map_eq_some_iff]
  constructor
  · rintro ⟨o, ho, he⟩
    obtain ⟨hi, before, after, hs, hb⟩ := List.find?_eq_some_iff_append.1 ho
    exact ⟨before, o, after, hs, by simpa using hi, he, by simpa using hb⟩
  · rintro ⟨before, o, after, hs, hi, he, hb⟩
    exact ⟨o, List.find?_eq_some_iff_append.2 ⟨by simpa using hi, before, after, hs,
      by simpa using hb⟩, he⟩

theorem firstRefusal_singleton {o : Occurrence} :
    firstRefusal [o] = if o.Illegal then some o.usage.refusal else none := by
  by_cases h : o.Illegal <;> simp [firstRefusal, h]

/-! ## The state of the analysis at a place -/

namespace Analysis

/-- **The state goes with the constructs around the place.** -/
structure StandsAt (state : Analysis) (path : List Enclosure) : Prop where
  function : state.function = .none ↔ ∀ e ∈ path, e.isBody = false
  inClass : state.inClass = true ↔ .method ∈ path
  scopes : state.scopes ≠ [] ↔ ∃ e ∈ path, e.isLocal = true
  pending : ∀ name, state.isPending name = true ↔ InOwnInitializer path name

/-- **The state is back to another one**, up to the references that were found. -/
structure Returns (state state' : Analysis) : Prop where
  function : state'.function = state.function
  inClass : state'.inClass = state.inClass
  scopes : state'.scopes = state.scopes

/-- **The state goes on in the same place**: names may be added to the innermost scope. -/
structure Continues (path : List Enclosure) (state state' : Analysis) : Prop where
  function : state'.function = state.function
  inClass : state'.inClass = state.inClass
  outer : state'.scopes.tail = state.scopes.tail
  stands : state'.StandsAt path

variable {state mid state' : Analysis} {path : List Enclosure}

theorem Returns.refl (state : Analysis) : state.Returns state := ⟨rfl, rfl, rfl⟩

theorem Returns.trans (h : state.Returns mid) (h' : mid.Returns state') : state.Returns state' :=
  ⟨h'.function.trans h.function, h'.inClass.trans h.inClass, h'.scopes.trans h.scopes⟩

theorem Continues.refl (h : state.StandsAt path) : state.Continues path state :=
  ⟨rfl, rfl, rfl, h⟩

theorem Continues.trans (h : state.Continues path mid) (h' : mid.Continues path state') :
    state.Continues path state' :=
  ⟨h'.function.trans h.function, h'.inClass.trans h.inClass, h'.outer.trans h.outer, h'.stands⟩

/-- Whether a name is pending is up to the scopes. -/
theorem StandsAt.of_returns (h : state.StandsAt path) (hr : state.Returns state') :
    state'.StandsAt path where
  function := by rw [hr.function, h.function]
  inClass := by rw [hr.inClass, h.inClass]
  scopes := by rw [hr.scopes, h.scopes]
  pending name := by
    rw [← h.pending]
    unfold isPending
    rw [hr.scopes]

theorem Returns.continues (hr : state.Returns state') (h : state.StandsAt path) :
    state.Continues path state' :=
  ⟨hr.function, hr.inClass, congrArg _ hr.scopes, h.of_returns hr⟩

theorem function_mark (state : Analysis) (name : String) (ready : Bool) :
    (state.mark name ready).function = state.function := by
  unfold mark
  split <;> rfl

theorem inClass_mark (state : Analysis) (name : String) (ready : Bool) :
    (state.mark name ready).inClass = state.inClass := by
  unfold mark
  split <;> rfl

theorem scopes_mark_ne_nil_iff (state : Analysis) (name : String) (ready : Bool) :
    (state.mark name ready).scopes ≠ [] ↔ state.scopes ≠ [] := by
  rw [scopes_mark]
  cases state.scopes <;> simp [markIn]

/-- Which names are pending after one has been marked. -/
theorem isPending_mark (state : Analysis) (name other : String) (ready : Bool) :
    (state.mark name ready).isPending other = true ↔
      if other = name then state.scopes ≠ [] ∧ ready = false
      else state.isPending other = true := by
  unfold isPending
  rw [scopes_mark]
  cases state.scopes with
  | nil => simp [markIn]
  | cons scope outer => by_cases hn : other = name <;> simp [markIn, hn]

/-- **A name that is defined** is not pending, and the state is still at the place. -/
theorem StandsAt.define (h : state.StandsAt path) (hp : ∀ name, ¬ InOwnInitializer path name)
    (name : String) : (state.mark name true).StandsAt path where
  function := by rw [function_mark, h.function]
  inClass := by rw [inClass_mark, h.inClass]
  scopes := by rw [scopes_mark_ne_nil_iff, h.scopes]
  pending other := by
    rw [isPending_mark, h.pending]
    by_cases hn : other = name
    · simp [hn, hp name]
    · simp [hn]

/-- A name that is ready changes nothing about what is legal. -/
theorem StandsAt.continues_define (h : state.StandsAt path)
    (hp : ∀ name, ¬ InOwnInitializer path name) (name : String) :
    state.Continues path (state.mark name true) :=
  ⟨function_mark .., inClass_mark .., by rw [scopes_mark, tail_markIn], h.define hp name⟩

/-- **A variable that is declared** is pending in its initializer, if it is local. -/
theorem StandsAt.declare (h : state.StandsAt path) (hp : ∀ name, ¬ InOwnInitializer path name)
    (name : Token) : (state.mark name.lexeme false).StandsAt (.initializer name :: path) where
  function := by
    rw [function_mark, h.function]
    simp [Enclosure.isBody]
  inClass := by
    rw [inClass_mark, h.inClass]
    simp
  scopes := by
    rw [scopes_mark_ne_nil_iff, h.scopes]
    simp [Enclosure.isLocal]
  pending other := by
    rw [isPending_mark, InOwnInitializer.initializer, h.pending, h.scopes]
    by_cases hn : other = name.lexeme
    · simp [hn, hp name.lexeme]
    · simp [hn, Ne.symm hn, hp other]

/-- The variable is ready after its initializer, and the state is at the place of the
declaration again. -/
theorem StandsAt.continues_var {name : Token} (h : state.StandsAt path)
    (hp : ∀ name, ¬ InOwnInitializer path name)
    (hm : (state.mark name.lexeme false).Returns mid) :
    state.Continues path (mid.mark name.lexeme true) where
  function := by rw [function_mark, hm.function, function_mark]
  inClass := by rw [inClass_mark, hm.inClass, inClass_mark]
  outer := by rw [scopes_mark, tail_markIn, hm.scopes, scopes_mark, tail_markIn]
  stands := {
    function := by rw [function_mark, hm.function, function_mark, h.function]
    inClass := by rw [inClass_mark, hm.inClass, inClass_mark, h.inClass]
    scopes := by rw [scopes_mark_ne_nil_iff, hm.scopes, scopes_mark_ne_nil_iff, h.scopes]
    pending := fun other => by
      rw [isPending_mark, ((h.declare hp name).of_returns hm).pending]
      by_cases hn : other = name.lexeme
      · simp [hn, hp name.lexeme]
      · simp [hn, InOwnInitializer.initializer, Ne.symm hn] }

/-- In a new scope nothing is pending. -/
theorem isPending_enter (state : Analysis) (name : String) :
    { state with scopes := .empty :: state.scopes }.isPending name = false := rfl

/-- The state in a block. -/
theorem StandsAt.block (h : state.StandsAt path) (hp : ∀ name, ¬ InOwnInitializer path name) :
    { state with scopes := .empty :: state.scopes }.StandsAt (.block :: path) where
  function := by simp [h.function, Enclosure.isBody]
  inClass := by simp [h.inClass]
  scopes := by simp [Enclosure.isLocal]
  pending name := by simp [isPending_enter, InOwnInitializer.cons, hp name]

/-- The state in the body of a function, whatever is around it. -/
theorem standsAt_body {context : FunctionContext} {body : Enclosure} (hc : context ≠ .none)
    (hb : body.isBody = true) (hm : state.inClass = true ↔ .method ∈ body :: path)
    (hp : ∀ name, ¬ InOwnInitializer (body :: path) name) :
    { state with function := context, scopes := .empty :: state.scopes }.StandsAt
      (body :: path) where
  function := by simp [hc, hb]
  inClass := hm
  scopes := by
    have hl : body.isLocal = true := by
      cases body <;> first | rfl | exact hb
    simp [hl]
  pending name := by simp [isPending, hp name]

end Analysis

open Analysis

namespace Analyze

variable {α β : Type} {state mid : Analysis} {path : List Enclosure} {os os' : List Occurrence}
  {post post' : Analysis → Prop}

/-! ## Finding the first illegal usage -/

/-- **A walk finds the first illegal usage of a list**: it is refused with it, and if there is
none it succeeds and `post` holds of the state. -/
def Finds (walk : Analyze α) (state : Analysis) (os : List Occurrence)
    (post : Analysis → Prop) : Prop :=
  match walk state with
  | .ok _ state' => firstRefusal os = none ∧ post state'
  | .error e _ => firstRefusal os = some e

/-- A walk fails with an error exactly if that is the first refusal. -/
theorem Finds.error_iff {walk : Analyze α} (h : Finds walk state os post) {e : ScopeError} :
    (∃ last, walk state = .error e last) ↔ firstRefusal os = some e := by
  unfold Finds at h
  cases hw : walk state with
  | ok a last =>
    rw [hw] at h
    simp [h.1]
  | error e' last =>
    rw [hw] at h
    simp [h]

/-- A walk that succeeds leaves the analysis as promised. -/
theorem Finds.of_ok {walk : Analyze α} (h : Finds walk state os post) {a : α} {last : Analysis}
    (hw : walk state = .ok a last) : post last := by
  unfold Finds at h
  rw [hw] at h
  exact h.2

/-- A walk that succeeds without an occurrence finds nothing. -/
theorem finds_of_ok {walk : Analyze α} {a : α} {state' : Analysis}
    (h : walk state = .ok a state') (hp : post state') : Finds walk state [] post := by
  unfold Finds
  rw [h]
  exact ⟨rfl, hp⟩

theorem finds_pure (a : α) (h : post state) : Finds (pure a) state [] post := finds_of_ok rfl h

theorem Finds.mono {walk : Analyze α} (h : Finds walk state os post)
    (hp : ∀ state', post state' → post' state') : Finds walk state os post' := by
  unfold Finds at h ⊢
  split at h
  · exact ⟨h.1, hp _ h.2⟩
  · exact h

/-- One walk after the other. -/
theorem Finds.bind {walk : Analyze α} {next : α → Analyze β} (h : Finds walk state os post)
    (hn : ∀ a mid, post mid → Finds (next a) mid os' post') :
    Finds (walk >>= next) state (os ++ os') post' := by
  unfold Finds at h ⊢
  rw [firstRefusal_append]
  cases hw : walk state with
  | ok a mid =>
    rw [hw] at h
    rw [bind_of_ok hw, h.1, Option.none_or]
    exact hn a mid h.2
  | error e mid =>
    rw [hw] at h
    rw [bind_eq_error_iff.2 (.inl hw), h, Option.some_or]

/-- What comes after a walk has no usages. -/
theorem Finds.bind_nil {walk : Analyze α} {next : α → Analyze β} (h : Finds walk state os post)
    (hn : ∀ a mid, post mid → Finds (next a) mid [] post') :
    Finds (walk >>= next) state os post' := by
  have hb := h.bind hn
  rwa [List.append_nil] at hb

theorem Finds.bind_pure {walk : Analyze α} {f : α → β} (h : Finds walk state os post) :
    Finds (walk >>= fun a => pure (f a)) state os post :=
  h.bind_nil fun a _ hp => finds_pure (f a) hp

/-- **A usage is refused if it is illegal**, and the walk goes on otherwise. -/
theorem finds_usage (usage : Usage) {c : Prop} [Decidable c] {next : β → Analyze α}
    {walk : Analyze α} (hc : c ↔ (⟨usage, path⟩ : Occurrence).Illegal)
    (h : Finds walk state os post) :
    Finds (if c then throw usage.refusal >>= next else walk) state (⟨usage, path⟩ :: os) post := by
  have ha := firstRefusal_append [⟨usage, path⟩] os
  rw [firstRefusal_singleton] at ha
  -- an illegal usage is the first one, whatever comes after it
  by_cases hi : c
  · rw [if_pos (hc.1 hi)] at ha
    rw [if_pos hi]
    exact ha
  · rw [if_neg (mt hc.2 hi)] at ha
    rw [if_neg hi]
    unfold Finds at h ⊢
    rw [← List.singleton_append, ha]
    exact h

/-- Counting the scopes to a variable refuses nothing. -/
theorem finds_locate (kind : ReferenceKind) (token : Token) :
    Finds (locate kind token) state [] state.Returns := by
  refine Finds.bind_nil (finds_of_ok rfl rfl : Finds get state [] (· = state)) ?_
  rintro _ _ rfl
  dsimp only
  split
  · exact finds_of_ok rfl ⟨rfl, rfl, rfl⟩
  · exact finds_pure _ (.refl _)

/-- **Walking in one more scope**, which is closed again. -/
theorem finds_inScope {scope : Scope} {walk : Analyze α}
    (h : Finds walk { state with scopes := scope :: state.scopes } os post)
    (hp : ∀ mid, post mid → mid.function = state.function ∧ mid.inClass = state.inClass ∧
      mid.scopes.tail = state.scopes) :
    Finds (inScope scope walk) state os state.Returns := by
  change Finds (walk >>= _) { state with scopes := scope :: state.scopes } os _
  refine h.bind_nil fun a mid hm => finds_of_ok rfl ?_
  obtain ⟨hf, hc, hs⟩ := hp mid hm
  exact ⟨hf, hc, hs⟩

/-- The parameters are ready before the body is walked. -/
theorem finds_parameters (hp : ∀ name, ¬ InOwnInitializer path name) (params : List Token)
    (h : state.StandsAt path) :
    Finds (params.forM define) state [] (state.Continues path) := by
  induction params generalizing state with
  | nil => exact finds_pure _ (.refl h)
  | cons param params ih =>
    have hd := h.continues_define hp param.lexeme
    change Finds (params.forM define) (state.mark param.lexeme true) [] _
    exact (ih hd.stands).mono fun _ => hd.trans

/-- **Walking the body of a function.** -/
theorem finds_inFunction {context : FunctionContext} {params : List Token} {walk : Analyze α}
    {body : Enclosure} (hc : context ≠ .none) (hb : body.isBody = true)
    (hm : state.inClass = true ↔ .method ∈ body :: path)
    (hp : ∀ name, ¬ InOwnInitializer (body :: path) name)
    (h : ∀ start : Analysis, start.StandsAt (body :: path) →
      Finds walk start os (start.Continues (body :: path))) :
    Finds (inFunction context params walk) state os state.Returns := by
  -- the context is set before the scope is opened, and set back after it is closed
  have hbody : Finds (inScope .empty do params.forM define; walk)
      { state with function := context } os { state with function := context }.Returns := by
    have hps := finds_parameters hp params (standsAt_body hc hb hm hp)
    refine finds_inScope (hps.bind fun _ start hs => (h start hs.stands).mono fun _ => hs.trans) ?_
    exact fun mid hm => ⟨hm.function, hm.inClass, hm.outer⟩
  change Finds (inScope .empty (do params.forM define; walk) >>= _)
    { state with function := context } os _
  refine hbody.bind_nil fun a mid hm => finds_of_ok rfl ?_
  exact ⟨rfl, hm.inClass, hm.scopes⟩

/-- **Walking the methods of a class.** -/
theorem finds_inClass {name : Token} {walk : Analyze α} (h : state.StandsAt path)
    (hp : ∀ name, ¬ InOwnInitializer path name)
    (hw : ∀ start : Analysis, start.inClass = true → Finds walk start os start.Returns) :
    Finds (inClass name walk) state os (state.Continues path) := by
  let entered : Analysis := { state with inClass := true }.mark name.lexeme true
  have hd := h.continues_define hp name.lexeme
  have hbody : Finds (inScope thisScope walk) entered os entered.Returns := by
    refine finds_inScope (hw _ (inClass_mark ..)) fun mid hm => ?_
    exact ⟨hm.function, hm.inClass, congrArg _ hm.scopes⟩
  change Finds (inScope thisScope walk >>= _) entered os _
  refine hbody.bind_nil fun a mid hm => finds_of_ok rfl (hd.trans (Returns.continues ?_ hd.stands))
  have hf : entered.function = (state.mark name.lexeme true).function := by
    rw [function_mark, function_mark]
  have hs : entered.scopes = (state.mark name.lexeme true).scopes := by
    rw [scopes_mark, scopes_mark]
  exact ⟨hm.function.trans hf, (state.inClass_mark ..).symm, hm.scopes.trans hs⟩

/-! ## The walks -/

mutual

/-- **The analysis of an expression finds the first illegal usage in it**, and leaves the state as
it was. -/
theorem expr_finds : (e : Expr) → ∀ ⦃state path⦄, state.StandsAt path →
    Finds (expr e) state (e.occurrences path) state.Returns
  | .literal value, state, _, _ => finds_pure _ (.refl state)
  | .variable name _ _, _, _, h =>
    finds_usage (.read name) (h.pending name.lexeme) <|
      (finds_locate .variable name).bind_nil fun _ _ hm => finds_of_ok rfl hm
  | .assign name value _ _, _, _, h =>
    (expr_finds value h).bind_nil fun _ _ hm =>
      ((finds_locate .assign name).mono fun _ => hm.trans).bind_nil fun _ _ hm => finds_of_ok rfl hm
  | .group inner, _, _, h => (expr_finds inner h).bind_pure
  | .unary op operand, _, _, h => (expr_finds operand h).bind_pure
  | .binary left op right, _, _, h =>
    (expr_finds left h).bind fun _ _ hm =>
      ((expr_finds right (h.of_returns hm)).mono fun _ => hm.trans).bind_pure
  | .logical left op right, _, _, h =>
    (expr_finds left h).bind fun _ _ hm =>
      ((expr_finds right (h.of_returns hm)).mono fun _ => hm.trans).bind_pure
  | .conditional condition whenTrue whenFalse, _, _, h =>
    (expr_finds condition h).bind fun _ _ hm =>
      ((expr_finds whenTrue (h.of_returns hm)).mono fun _ => hm.trans).bind fun _ _ hm =>
        ((expr_finds whenFalse (h.of_returns hm)).mono fun _ => hm.trans).bind_pure
  | .sequence items, _, _, h => (exprs_finds items h).bind_pure
  | .call callee paren args, _, _, h =>
    (expr_finds callee h).bind fun _ _ hm =>
      ((exprs_finds args (h.of_returns hm)).mono fun _ => hm.trans).bind_pure
  -- a function in an initializer has a scope of its own, in which nothing is pending
  | .lambda keyword params body, state, path, h => by
    have hm : state.inClass = true ↔ .method ∈ .lambda :: path := by simp [h.inClass]
    have hp : ∀ name, ¬ InOwnInitializer (.lambda :: path) name :=
      fun _ => InOwnInitializer.lambda
    exact (finds_inFunction (by simp) rfl hm hp fun _ hs => stmts_finds body hs hp).bind_pure
  | .get object name, _, _, h => (expr_finds object h).bind_pure
  -- the value comes before the object, as in the list of occurrences
  | .set object name value, _, _, h =>
    (expr_finds value h).bind fun _ _ hm =>
      ((expr_finds object (h.of_returns hm)).mono fun _ => hm.trans).bind_pure
  | .this keyword _ _, state, path, h => by
    have hc : (!state.inClass) = true ↔ .method ∉ path := by
      rw [← h.inClass]
      cases state.inClass <;> simp
    exact finds_usage (.this keyword) hc <|
      (finds_locate .this keyword).bind_nil fun _ _ hm => finds_of_ok rfl hm

/-- Expressions in a row are walked in the order of their occurrences. -/
theorem exprs_finds : (es : List Expr) → ∀ ⦃state path⦄, state.StandsAt path →
    Finds (exprs es) state (Expr.allOccurrences path es) state.Returns
  | [], state, _, _ => finds_pure _ (.refl state)
  | e :: es, _, _, h =>
    (expr_finds e h).bind fun _ _ hm =>
      ((exprs_finds es (h.of_returns hm)).mono fun _ => hm.trans).bind_pure

theorem optionalExpr_finds : (o : Option Expr) → ∀ ⦃state path⦄, state.StandsAt path →
    Finds (optionalExpr o) state (Expr.optionOccurrences path o) state.Returns
  | none, state, _, _ => finds_pure _ (.refl state)
  | some e, _, _, h => (expr_finds e h).bind_pure

/-- **The analysis of a statement finds the first illegal usage in it.**  Statements are in an
initializer only inside of a function, where nothing is pending. -/
theorem stmt_finds : (s : Stmt) → ∀ ⦃state path⦄, state.StandsAt path →
    (∀ name, ¬ InOwnInitializer path name) →
      Finds (stmt s) state (s.occurrences path) (state.Continues path)
  | .expression inner, _, _, h, _ =>
    ((expr_finds inner h).mono fun _ hm => hm.continues h).bind_pure
  | .print inner, _, _, h, _ =>
    ((expr_finds inner h).mono fun _ hm => hm.continues h).bind_pure
  | .var name initializer, _, _, h, hp =>
    (optionalExpr_finds initializer (h.declare hp name)).bind_nil fun _ _ hm =>
      finds_of_ok rfl (h.continues_var hp hm)
  | .block statements, _, path, h, hp => by
    have hb : ∀ name, ¬ InOwnInitializer (.block :: path) name :=
      InOwnInitializer.not_cons (by simp) (by simp) hp
    have hs := finds_inScope (stmts_finds statements (h.block hp) hb)
      fun mid hm => ⟨hm.function, hm.inClass, hm.outer⟩
    exact (hs.mono fun _ hm => hm.continues h).bind_pure
  | .branch condition whenTrue whenFalse, _, _, h, hp =>
    ((expr_finds condition h).mono fun _ hm => hm.continues h).bind fun _ _ hm =>
      ((stmt_finds whenTrue hm.stands hp).mono fun _ => hm.trans).bind fun _ _ hm =>
        ((optionalStmt_finds whenFalse hm.stands hp).mono fun _ => hm.trans).bind_pure
  | .loop condition body, _, _, h, hp =>
    ((expr_finds condition h).mono fun _ hm => hm.continues h).bind fun _ _ hm =>
      ((stmt_finds body hm.stands hp).mono fun _ => hm.trans).bind_pure
  | .function (.mk name params body), state, path, h, hp => by
    have hd := h.continues_define hp name.lexeme
    have hm : (state.mark name.lexeme true).inClass = true ↔ .method ∈ .function :: path := by
      simp [hd.stands.inClass]
    have hb : ∀ name, ¬ InOwnInitializer (.function :: path) name :=
      InOwnInitializer.not_cons (by simp) (by simp) hp
    have hf : Finds (inFunction .function params (stmts body)) (state.mark name.lexeme true) _ _ :=
      finds_inFunction (by simp) rfl hm hb fun _ hs => stmts_finds body hs hb
    exact (hf.mono fun _ hm => hd.trans (hm.continues hd.stands)).bind_pure
  | .return keyword value, _, _, h, _ =>
    finds_usage (.return keyword) h.function <|
      ((optionalExpr_finds value h).mono fun _ hm => hm.continues h).bind_pure
  | .class name methods, _, _, h, hp =>
    (finds_inClass h hp fun _ hc => methodList_finds methods hc hp).bind_pure

/-- Statements in a row are walked in the order of their occurrences. -/
theorem stmts_finds : (ss : List Stmt) → ∀ ⦃state path⦄, state.StandsAt path →
    (∀ name, ¬ InOwnInitializer path name) →
      Finds (stmts ss) state (Stmt.allOccurrences path ss) (state.Continues path)
  | [], _, _, h, _ => finds_pure _ (.refl h)
  | s :: ss, _, _, h, hp =>
    (stmt_finds s h hp).bind fun _ _ hm =>
      ((stmts_finds ss hm.stands hp).mono fun _ => hm.trans).bind_pure

theorem optionalStmt_finds : (o : Option Stmt) → ∀ ⦃state path⦄, state.StandsAt path →
    (∀ name, ¬ InOwnInitializer path name) →
      Finds (optionalStmt o) state (Stmt.optionOccurrences path o) (state.Continues path)
  | none, _, _, h, _ => finds_pure _ (.refl h)
  | some s, _, _, h, hp => (stmt_finds s h hp).bind_pure

/-- Methods are walked in the scope of their class, which is no place of its own. -/
theorem method_finds : (f : FunctionDecl) → ∀ ⦃state path⦄, state.inClass = true →
    (∀ name, ¬ InOwnInitializer path name) →
      Finds (method f) state (f.occurrences path) state.Returns
  | .mk name params body, state, path, hc, hp => by
    have hm : state.inClass = true ↔ .method ∈ .method :: path := by simp [hc]
    have hb : ∀ name, ¬ InOwnInitializer (.method :: path) name :=
      InOwnInitializer.not_cons (by simp) (by simp) hp
    have hn : methodContext name ≠ .none := by
      unfold methodContext
      split <;> simp
    exact (finds_inFunction hn rfl hm hb fun _ hs => stmts_finds body hs hb).bind_pure

/-- Methods in a row are walked in the order of their occurrences. -/
theorem methodList_finds : (fs : List FunctionDecl) → ∀ ⦃state path⦄, state.inClass = true →
    (∀ name, ¬ InOwnInitializer path name) →
      Finds (methodList fs) state (FunctionDecl.allOccurrences path fs) state.Returns
  | [], state, _, _, _ => finds_pure _ (.refl state)
  | f :: fs, _, _, hc, hp =>
    (method_finds f hc hp).bind fun _ _ hm =>
      ((methodList_finds fs (hm.inClass.trans hc) hp).mono fun _ => hm.trans).bind_pure

end

end Analyze

/-! ## Programs -/

/-- At the top level nothing is around the code. -/
theorem standsAt_top (references : List Reference) :
    (⟨[], .none, false, references⟩ : Analysis).StandsAt [] where
  function := by simp
  inClass := by simp
  scopes := by simp
  pending name := by simp [isPending, InOwnInitializer.nil]

/-- **Scope analysis refuses exactly the illegal programs.**  A program is refused with a usage if
and only if the usage is the first of those in the program that is illegal, in the order in which
the analysis comes by; so a program is refused if and only if it has an illegal usage.  A program
that is not refused leaves the open scopes, the kind of function and whether there is a class as
they were. -/
theorem refuses_first_illegal (statements : List Stmt) (references : List Reference) :
    (∀ e, (∃ last, Analyze.stmts statements ⟨[], .none, false, references⟩ = .error e last) ↔
      ∃ before o after, Stmt.allOccurrences [] statements = before ++ o :: after ∧ o.Illegal ∧
        o.usage.refusal = e ∧ ∀ o' ∈ before, ¬ o'.Illegal) ∧
    ((∃ e last, Analyze.stmts statements ⟨[], .none, false, references⟩ = .error e last) ↔
      ∃ o ∈ Stmt.allOccurrences [] statements, o.Illegal) ∧
    ∀ resolved last, Analyze.stmts statements ⟨[], .none, false, references⟩ = .ok resolved last →
      last.scopes = [] ∧ last.function = .none ∧ last.inClass = false := by
  have h := Analyze.stmts_finds statements (standsAt_top references) fun _ => InOwnInitializer.nil
  refine ⟨fun e => h.error_iff.trans firstRefusal_eq_some_iff, ?_, fun resolved last hl => ?_⟩
  · calc (∃ e last, Analyze.stmts statements ⟨[], .none, false, references⟩ = .error e last)
        ↔ ∃ e, firstRefusal (Stmt.allOccurrences [] statements) = some e :=
          exists_congr fun _ => h.error_iff
      _ ↔ firstRefusal (Stmt.allOccurrences [] statements) ≠ none :=
          Option.ne_none_iff_exists'.symm
      _ ↔ ∃ o ∈ Stmt.allOccurrences [] statements, o.Illegal := by
          rw [Ne, firstRefusal_eq_none_iff]
          simp
  · have hc := h.of_ok hl
    have hs : last.scopes = [] :=
      Classical.byContradiction fun hn => by simpa using hc.stands.scopes.1 hn
    exact ⟨hs, hc.function, hc.inClass⟩

/-- A function in the initializer of a variable may read it; the next initializer is refused:
`{ var a = fun () { return a; }; var b = b; }`. -/
example : firstRefusal (Stmt.allOccurrences [] [.block [
      .var (.ident "a" 1) (some (.lambda (.ident "fun" 1) [] [
        .return (.ident "return" 1) (some (.variable (.ident "a" 1) none))])),
      .var (.ident "b" 1) (some (.variable (.ident "b" 1) none))]]) =
    some ⟨.ownInitializer, .ident "b" 1⟩ := by
  decide

end ScopedScript

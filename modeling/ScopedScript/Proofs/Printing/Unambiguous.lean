import ScopedScript.Proofs.Printing.Shape
import ScopedScript.Proofs.ReadTrees

/-!
# Texts of trees are unambiguous

A program is shown as the text of its trees, one to a line.  The literals of trees that were read
are those of the language, and a string that was read has no quotation mark in it.  As long as all
numbers in them are finite, two programs with one text have the same skeletons.

## Main definitions

* `Expr.literals`, `Stmt.literals`: the literals of a tree.
* `sourceTrees`: the trees that are read from a source.

## Main results

* `Derives.all_literals`: the literals of a tree are among those of its tokens.
* `Expr.sexp_wellFormed`, `Stmt.sexp_wellFormed`: the s-expressions of trees can be told apart.
* `programText_unambiguous`: the text of a program shows its skeletons, and nothing else.
-/

namespace ScopedScript

/-! ## Literals -/

mutual

/-- **The literals of an expression.** -/
def Expr.literals : Expr → List Value
  | .literal value => [value]
  | .variable _ _ _ | .this _ _ _ => []
  | .assign _ value _ _ => value.literals
  | .group inner => inner.literals
  | .unary _ operand => operand.literals
  | .binary left _ right | .logical left _ right => left.literals ++ right.literals
  | .conditional condition whenTrue whenFalse =>
    condition.literals ++ (whenTrue.literals ++ whenFalse.literals)
  | .sequence items => Expr.literalsOf items
  | .call callee _ args => callee.literals ++ Expr.literalsOf args
  | .lambda _ _ body => Stmt.literalsOf body
  | .get object _ => object.literals
  | .set object _ value => object.literals ++ value.literals

/-- The literals of expressions, in order. -/
def Expr.literalsOf : List Expr → List Value
  | [] => []
  | e :: es => e.literals ++ Expr.literalsOf es

/-- The literals of an expression, if there is one. -/
def Expr.literals? : Option Expr → List Value
  | none => []
  | some e => e.literals

/-- **The literals of a statement.** -/
def Stmt.literals : Stmt → List Value
  | .expression inner | .print inner => inner.literals
  | .var _ initializer => Expr.literals? initializer
  | .block statements => Stmt.literalsOf statements
  | .branch condition whenTrue whenFalse =>
    condition.literals ++ (whenTrue.literals ++ Stmt.literals? whenFalse)
  | .loop condition body => condition.literals ++ body.literals
  | .function f => f.literals
  | .return _ value => Expr.literals? value
  | .class _ methods => FunctionDecl.literalsOf methods

/-- The literals of statements, in order. -/
def Stmt.literalsOf : List Stmt → List Value
  | [] => []
  | s :: ss => s.literals ++ Stmt.literalsOf ss

/-- The literals of a statement, if there is one. -/
def Stmt.literals? : Option Stmt → List Value
  | none => []
  | some s => s.literals

/-- The literals of a function. -/
def FunctionDecl.literals : FunctionDecl → List Value
  | .mk _ _ body => Stmt.literalsOf body

/-- The literals of functions, in order. -/
def FunctionDecl.literalsOf : List FunctionDecl → List Value
  | [] => []
  | f :: fs => f.literals ++ FunctionDecl.literalsOf fs

end

/-- The literals of the tree of a phrase. -/
def Phrase.literals : Phrase → List Value
  | expression e | assignment e | ternary e | tier _ e | unary e | call e | primary e => e.literals
  | items es | arguments es => Expr.literalsOf es
  | optional o => Expr.literals? o
  | «variable» s | declaration _ s | statement _ s => s.literals
  | initializer o => Stmt.literals? o
  | function f => f.literals
  | functions fs => FunctionDecl.literalsOf fs
  | declarations ss => Stmt.literalsOf ss

theorem Tier.literals_operand (level : Tier) (e : Expr) :
    (level.operand e).literals = e.literals := by
  cases level <;> rfl

theorem Tier.literals_join (level : Tier) (left : Expr) (op : Token) (right : Expr) :
    (level.join left op right).literals = left.literals ++ right.literals := by
  cases level <;> rfl

/-- Each of the literals has `Q`. -/
def AllLiterals (Q : Value → Prop) (vs : List Value) : Prop := ∀ v ∈ vs, Q v

section

variable {Q : Value → Prop} {vs ws : List Value}

/-- What holds of all literals of two lists holds of all literals of both together. -/
theorem AllLiterals.append (hv : AllLiterals Q vs) (hw : AllLiterals Q ws) :
    AllLiterals Q (vs ++ ws) :=
  List.forall_mem_append.2 ⟨hv, hw⟩

theorem AllLiterals.left (h : AllLiterals Q (vs ++ ws)) : AllLiterals Q vs :=
  (List.forall_mem_append.1 h).1

theorem AllLiterals.right (h : AllLiterals Q (vs ++ ws)) : AllLiterals Q ws :=
  (List.forall_mem_append.1 h).2

theorem allLiterals_nil : AllLiterals Q [] := nofun

theorem allLiterals_literalsOf {ss : List Stmt} (h : ∀ s ∈ ss, AllLiterals Q s.literals) :
    AllLiterals Q (Stmt.literalsOf ss) := by
  induction ss with
  | nil => exact allLiterals_nil
  | cons s ss ih =>
    obtain ⟨hs, hss⟩ := List.forall_mem_cons.1 h
    exact hs.append (ih hss)

/-- The literals of a `for` statement are those of its parts, and `true` where a condition is
missing. -/
theorem forTree_literals {first : Option Stmt} {condition : Expr} {step : Option Expr} {body : Stmt}
    (hf : AllLiterals Q (Stmt.literals? first)) (hc : AllLiterals Q condition.literals)
    (hs : AllLiterals Q (Expr.literals? step)) (hb : AllLiterals Q body.literals) :
    AllLiterals Q (forTree first condition step body).literals := by
  cases first with
  | none =>
    cases step with
    | none => exact hc.append hb
    | some step => exact hc.append (hb.append (hs.append allLiterals_nil))
  | some first =>
    cases step with
    | none => exact hf.append ((hc.append hb).append allLiterals_nil)
    | some step =>
      exact hf.append ((hc.append (hb.append (hs.append allLiterals_nil))).append allLiterals_nil)

/-- **The literals of a tree are among those of its tokens**, but for the values that have a word
of their own. -/
theorem Derives.all_literals {nearest : Bool} {p : Phrase} {ts : List Token}
    (h : Derives nearest p ts) (hw : ∀ v ∈ [Value.nil, .bool false, .bool true], Q v)
    (ht : ∀ t ∈ ts, t.kind ∈ [TokenKind.number, .string] → Q t.literal.value) :
    AllLiterals Q p.literals := by
  induction h with
  | single _ ih => exact (ih ht).left
  | sequence _ ih => exact ih ht
  | lastItem _ ih => exact (ih ht).append allLiterals_nil
  | moreItems _ _ _ ih ihs =>
    simp only [List.forall_mem_append, List.forall_mem_cons] at ht
    exact (ih ht.1).append (ihs ht.2.2)
  | assignVariable _ _ _ ih =>
    simp only [List.forall_mem_cons] at ht
    exact ih ht.2.2
  | assignProperty _ _ _ _ _ iho ih =>
    simp only [List.forall_mem_append, List.forall_mem_cons] at ht
    exact (iho ht.1).append (ih ht.2.2.2.2)
  | noAssignment _ ih | noConditional _ ih | noUnary _ ih | noCall _ ih => exact ih ht
  | conditional _ _ _ _ _ ihc iha ihb =>
    simp only [List.forall_mem_append, List.forall_mem_cons] at ht
    exact (ihc ht.1).append ((iha ht.2.2.1).append (ihb ht.2.2.2.2))
  | @operand level e _ _ ih =>
    have he : AllLiterals Q e.literals := level.literals_operand e ▸ ih ht
    exact he
  | @operator level left right op _ _ _ ho _ ihl ihr =>
    simp only [List.forall_mem_append, List.forall_mem_cons] at ht
    have hr : AllLiterals Q right.literals := level.literals_operand right ▸ ihr ht.2.2
    have hj : AllLiterals Q (level.join left op right).literals :=
      level.literals_join left op right ▸ (ihl ht.1).append hr
    exact hj
  | unaryOperator _ _ ih =>
    simp only [List.forall_mem_cons] at ht
    exact ih ht.2
  | application _ _ _ _ _ ihc iha =>
    simp only [List.forall_mem_append, List.forall_mem_cons] at ht
    exact (ihc ht.1).append (iha ht.2.2.1)
  | property _ _ _ ih =>
    simp only [List.forall_mem_append] at ht
    exact ih ht.1
  | noArguments | absent | noFunctions | noDeclarations | noInitializer _ | plainVariable _ _ =>
    exact allLiterals_nil
  | this _ | name _ => exact allLiterals_nil
  | someArguments _ ih | present _ ih => exact ih ht
  | falseLiteral _ | trueLiteral _ | nilLiteral _ =>
    exact List.forall_mem_singleton.2 (hw _ (by simp))
  | literal hk => exact List.forall_mem_singleton.2 (ht _ List.mem_cons_self hk)
  | group _ _ _ ih =>
    simp only [List.forall_mem_append, List.forall_mem_cons] at ht
    exact ih ht.2.1
  | lambda _ _ _ _ _ _ _ ih | function _ _ _ _ _ _ _ ih =>
    simp only [List.forall_mem_append, List.forall_mem_cons] at ht
    exact ih ht.2.2.2.2.2.1
  | initializedVariable _ _ _ _ ih =>
    simp only [List.forall_mem_append, List.forall_mem_cons] at ht
    exact ih ht.2.2.1
  | variableInitializer _ _ ih | variableDeclaration _ _ ih | functionDeclaration _ _ ih =>
    exact ih (List.forall_mem_cons.1 ht).2
  | expressionInitializer _ _ ih | expressionStatement _ _ ih =>
    exact ih (List.forall_mem_append.1 ht).1
  | moreFunctions _ _ ih ihs | moreDeclarations _ _ ih ihs =>
    simp only [List.forall_mem_append] at ht
    exact (ih ht.1).append (ihs ht.2)
  | print _ _ _ ih | «return» _ _ _ ih | block _ _ _ ih =>
    simp only [List.forall_mem_append, List.forall_mem_cons] at ht
    exact ih ht.2.1
  | «while» _ _ _ _ _ ihc ihb =>
    simp only [List.forall_mem_append, List.forall_mem_cons] at ht
    exact (ihc ht.2.2.1).append (ihb ht.2.2.2.2)
  | @«for» first condition step body d keyword left semicolon right ts us vs ws
      _ _ _ _ _ _ _ _ ihf ihc ihi ihb =>
    simp only [List.forall_mem_append, List.forall_mem_cons] at ht
    obtain ⟨-, -, h₁, h₂, -, h₃, -, h₄⟩ := ht
    refine forTree_literals (ihf h₁) ?_ (ihi h₃) (ihb h₄)
    cases condition with
    | none => exact List.forall_mem_singleton.2 (hw _ (by simp))
    | some condition => exact ihc h₂
  | ifOnly _ _ _ _ _ ihc iha =>
    simp only [List.forall_mem_append, List.forall_mem_cons] at ht
    exact (ihc ht.2.2.1).append ((iha ht.2.2.2.2).append allLiterals_nil)
  | ifElse _ _ _ _ _ _ _ _ ihc iha ihb =>
    simp only [List.forall_mem_append, List.forall_mem_cons] at ht
    obtain ⟨-, -, h₁, -, h₂, -, h₃⟩ := ht
    exact (ihc h₁).append ((iha h₂).append (ihb h₃))
  | «class» _ _ _ _ _ ih =>
    simp only [List.forall_mem_append, List.forall_mem_cons] at ht
    exact ih ht.2.2.2.1
  | statementDeclaration _ ih => exact ih ht

end

/-! ## Well-formed s-expressions -/

theorem Sexp.wellFormed_node {head : String} {parts : List Sexp}
    (hh : isWord head.toList = true) (hp : AllWellFormed parts) :
    (node (word head :: parts)).WellFormed :=
  ⟨hh, hp⟩

/-- A name that is spelled right is a word. -/
theorem Token.IsName.isWord {t : Token} (h : t.IsName Token.IsSpelled) :
    Sexp.isWord t.lexeme.toList = true :=
  (h.1.name h.2).1

/-- An operator is a word. -/
theorem Token.IsSpelled.isWord_operator {t : Token} (h : t.IsSpelled)
    (hk : t.kind ∈ operators.map Prod.snd) : Sexp.isWord t.lexeme.toList = true := by
  have hall : ∀ entry ∈ operators, Sexp.isWord entry.1.toList = true := by decide
  exact hall (t.lexeme, t.kind) (h.operator hk)

theorem parameterSexp_wellFormed {params : List Token}
    (h : ParametersWellFormed Token.IsSpelled params) : (parameterSexp params).WellFormed := by
  obtain ⟨-, h⟩ := h
  change Sexp.AllWellFormed (params.map fun param => .word param.lexeme)
  induction params with
  | nil => trivial
  | cons param params ih =>
    obtain ⟨hparam, hparams⟩ := List.forall_mem_cons.1 h
    exact ⟨hparam.isWord, ih hparams⟩

/-- The literal can be told apart from everything else that is shown. -/
def Value.IsShown (v : Value) : Prop := v.sexp.WellFormed

mutual

/-- **The s-expression of a well-formed expression is well formed**, if its literals are. -/
theorem Expr.sexp_wellFormed {e : Expr} (h : e.WellFormed Token.IsSpelled)
    (hl : AllLiterals Value.IsShown e.literals) : e.sexp.WellFormed := by
  cases e with
  | literal value => exact hl value List.mem_cons_self
  | «variable» name hops scopes => exact (h : name.IsName _).isWord
  | assign name value hops scopes =>
    exact Sexp.wellFormed_node (by decide) ⟨h.1.isWord, Expr.sexp_wellFormed h.2 hl, trivial⟩
  | group inner =>
    have hi : inner.sexp.WellFormed := Expr.sexp_wellFormed h hl
    exact Sexp.wellFormed_node (by decide) ⟨hi, trivial⟩
  | unary op operand =>
    exact Sexp.wellFormed_node (h.1.isWord_operator (unary_operators _ h.2.1).1)
      ⟨Expr.sexp_wellFormed h.2.2 hl, trivial⟩
  | binary left op right =>
    exact Sexp.wellFormed_node (h.2.1.isWord_operator (binary_operators _ h.2.2.1).1)
      ⟨Expr.sexp_wellFormed h.1 hl.left, Expr.sexp_wellFormed h.2.2.2 hl.right, trivial⟩
  | logical left op right =>
    exact Sexp.wellFormed_node (h.2.1.isWord_operator (logical_operators _ h.2.2.1))
      ⟨Expr.sexp_wellFormed h.1 hl.left, Expr.sexp_wellFormed h.2.2.2 hl.right, trivial⟩
  | conditional condition whenTrue whenFalse =>
    exact Sexp.wellFormed_node (by decide) ⟨Expr.sexp_wellFormed h.1 hl.left,
      Expr.sexp_wellFormed h.2.1 hl.right.left, Expr.sexp_wellFormed h.2.2 hl.right.right, trivial⟩
  | sequence items => exact Sexp.wellFormed_node (by decide) (Expr.sexps_wellFormed h.2 hl)
  | call callee paren args =>
    exact Sexp.wellFormed_node (by decide)
      ⟨Expr.sexp_wellFormed h.1 hl.left, Expr.sexps_wellFormed h.2.2.2 hl.right⟩
  | lambda keyword params body =>
    exact Sexp.wellFormed_node (by decide)
      ⟨parameterSexp_wellFormed h.2.1, Stmt.sexps_wellFormed h.2.2 hl⟩
  | get object name =>
    exact Sexp.wellFormed_node (by decide) ⟨Expr.sexp_wellFormed h.1 hl, h.2.isWord, trivial⟩
  | set object name value =>
    have hget : (Sexp.node [.word ".", object.sexp, .word name.lexeme]).WellFormed :=
      Sexp.wellFormed_node (by decide)
        ⟨Expr.sexp_wellFormed h.1 hl.left, h.2.1.isWord, trivial⟩
    exact Sexp.wellFormed_node (by decide) ⟨hget, Expr.sexp_wellFormed h.2.2 hl.right, trivial⟩
  | this keyword hops scopes => exact rfl
termination_by structural e

/-- Expressions in a row are shown by well-formed s-expressions. -/
theorem Expr.sexps_wellFormed {es : List Expr} (h : Expr.ItemsWellFormed Token.IsSpelled es)
    (hl : AllLiterals Value.IsShown (Expr.literalsOf es)) :
    Sexp.AllWellFormed (Expr.sexps es) := by
  cases es with
  | nil => trivial
  | cons e es => exact ⟨Expr.sexp_wellFormed h.1 hl.left, Expr.sexps_wellFormed h.2.2 hl.right⟩
termination_by structural es

theorem Expr.sexp?_wellFormed {o : Option Expr} (h : Expr.OptionWellFormed Token.IsSpelled o)
    (hl : AllLiterals Value.IsShown (Expr.literals? o)) : Sexp.AllWellFormed (Expr.sexp? o) := by
  cases o with
  | none => trivial
  | some e =>
    have he : e.sexp.WellFormed := Expr.sexp_wellFormed h hl
    exact ⟨he, trivial⟩
termination_by structural o

/-- **The s-expression of a well-formed statement is well formed**, if its literals are. -/
theorem Stmt.sexp_wellFormed {s : Stmt} (h : s.WellFormed Token.IsSpelled)
    (hl : AllLiterals Value.IsShown s.literals) : s.sexp.WellFormed := by
  cases s with
  | expression e =>
    have he : e.sexp.WellFormed := Expr.sexp_wellFormed h hl
    exact he
  | print e =>
    have he : e.sexp.WellFormed := Expr.sexp_wellFormed h hl
    exact Sexp.wellFormed_node (by decide) ⟨he, trivial⟩
  | var name initializer =>
    exact Sexp.wellFormed_node (by decide) ⟨h.1.isWord, Expr.sexp?_wellFormed h.2 hl⟩
  | block statements =>
    have hs : Sexp.AllWellFormed (Stmt.sexps statements) := Stmt.sexps_wellFormed h hl
    exact Sexp.wellFormed_node (by decide) hs
  | branch condition whenTrue whenFalse =>
    exact Sexp.wellFormed_node (by decide) ⟨Expr.sexp_wellFormed h.1 hl.left,
      Stmt.sexp_wellFormed h.2.1 hl.right.left, Stmt.sexp?_wellFormed h.2.2.2 hl.right.right⟩
  | loop condition body =>
    exact Sexp.wellFormed_node (by decide) ⟨Expr.sexp_wellFormed h.1 hl.left,
      Stmt.sexp_wellFormed h.2.1 hl.right, trivial⟩
  | function f =>
    have hf : f.sexp.WellFormed := FunctionDecl.sexp_wellFormed h hl
    exact hf
  | «return» keyword value =>
    exact Sexp.wellFormed_node (by decide) (Expr.sexp?_wellFormed h.2 hl)
  | «class» name methods =>
    exact Sexp.wellFormed_node (by decide) ⟨h.1.isWord, FunctionDecl.sexps_wellFormed h.2 hl⟩
termination_by structural s

/-- Statements in a row are shown by well-formed s-expressions. -/
theorem Stmt.sexps_wellFormed {ss : List Stmt} (h : Stmt.AllWellFormed Token.IsSpelled ss)
    (hl : AllLiterals Value.IsShown (Stmt.literalsOf ss)) :
    Sexp.AllWellFormed (Stmt.sexps ss) := by
  cases ss with
  | nil => trivial
  | cons s ss => exact ⟨Stmt.sexp_wellFormed h.1 hl.left, Stmt.sexps_wellFormed h.2 hl.right⟩
termination_by structural ss

theorem Stmt.sexp?_wellFormed {o : Option Stmt} (h : Stmt.OptionWellFormed Token.IsSpelled o)
    (hl : AllLiterals Value.IsShown (Stmt.literals? o)) : Sexp.AllWellFormed (Stmt.sexp? o) := by
  cases o with
  | none => trivial
  | some s =>
    have hs : s.sexp.WellFormed := Stmt.sexp_wellFormed h.1 hl
    exact ⟨hs, trivial⟩
termination_by structural o

theorem FunctionDecl.sexp_wellFormed {f : FunctionDecl} (h : f.WellFormed Token.IsSpelled)
    (hl : AllLiterals Value.IsShown f.literals) : f.sexp.WellFormed := by
  cases f with
  | mk name params body =>
    exact Sexp.wellFormed_node (by decide)
      ⟨h.1.isWord, parameterSexp_wellFormed h.2.1, Stmt.sexps_wellFormed h.2.2 hl⟩
termination_by structural f

theorem FunctionDecl.sexps_wellFormed {fs : List FunctionDecl}
    (h : FunctionDecl.AllWellFormed Token.IsSpelled fs)
    (hl : AllLiterals Value.IsShown (FunctionDecl.literalsOf fs)) :
    Sexp.AllWellFormed (FunctionDecl.sexps fs) := by
  cases fs with
  | nil => trivial
  | cons f fs =>
    exact ⟨FunctionDecl.sexp_wellFormed h.1 hl.left, FunctionDecl.sexps_wellFormed h.2 hl.right⟩
termination_by structural fs

end

/-! ## Trees that were read -/

/-- A literal token is a number, or a string without a quotation mark. -/
theorem Token.IsSpelled.literal {t : Token} (h : t.IsSpelled)
    (hk : t.kind ∈ [TokenKind.number, .string]) :
    t.literal.value.IsShown ∨ ∃ x, t.literal.value = .number x := by
  have hsymbols : ∀ entry ∈ symbolSpellings, entry.2 ∉ [TokenKind.number, .string] := by decide
  have hwords : ∀ entry ∈ keywords, entry.2 ∉ [TokenKind.number, .string] := by decide
  obtain ⟨after, h⟩ := h
  generalize t.lexeme.toList = text at h
  generalize t.kind = kind at h hk
  generalize t.literal = literal at h ⊢
  cases h with
  | whole | decimal => exact .inr ⟨_, rfl⟩
  | @quoted body _ hq =>
    have hq : '"' ∉ (String.ofList body).toList := by rwa [String.toList_ofList]
    exact .inl hq
  | symbol h => exact absurd hk (hsymbols _ h)
  | reserved h hkeyword => exact absurd hk (hwords _ hkeyword)
  | slash | identifier => exact absurd hk (by decide)

/-- A declaration of a program was read where the declarations before it end. -/
theorem Splits.exists_readDeclaration {tokens rest : List Token} {segments : List Segment}
    (h : Splits tokens segments rest) {s : Stmt} (hs : s ∈ segments.filterMap Segment.tree?) :
    ∃ input left, input <:+ tokens ∧ readDeclaration input = .ok s left := by
  induction h with
  | done tokens => cases hs
  | @more segment segments tokens rest hn he hf _ ih =>
    have hrest (hs : s ∈ segments.filterMap Segment.tree?) :
        ∃ input left, input <:+ segment.tokens ++ tokens ∧ readDeclaration input = .ok s left := by
      obtain ⟨input, left, hsuffix, hread⟩ := ih hs
      exact ⟨input, left, hsuffix.trans (List.suffix_append _ _), hread⟩
    cases segment with
    | statement used tree =>
      rcases List.mem_cons.1 hs with rfl | hs
      · exact ⟨_, _, List.suffix_rfl, hf⟩
      · exact hrest hs
    | discarded used error => exact hrest hs

/-- **The literals of a program are among those of its tokens**, but for the values that have a
word of their own. -/
theorem readProgram_literals {Q : Value → Prop} {tokens : List Token}
    (hw : ∀ v ∈ [Value.nil, .bool false, .bool true], Q v)
    (ht : ∀ t ∈ tokens, t.kind ∈ [TokenKind.number, .string] → Q t.literal.value) :
    AllLiterals Q (Stmt.literalsOf (readProgram tokens).statements) := by
  obtain ⟨segments, rest, hsplits, hstatements, -⟩ := readProgram_splits tokens
  rw [hstatements]
  refine allLiterals_literalsOf fun s hs => ?_
  obtain ⟨input, left, hsuffix, hread⟩ := hsplits.exists_readDeclaration hs
  obtain ⟨used, rfl, d, hd, -⟩ := (Reader.sound _).declaration hread
  exact hd.all_literals hw fun t hm => ht t (hsuffix.subset (List.mem_append_left left hm))

/-- The trees that are read from a source, also where other parts of it have errors. -/
def sourceTrees (source : String) : List Stmt := (readProgram (scan source).tokens).statements

/-- Whether a value is a finite number, or no number at all. -/
def Value.isFinite : Value → Bool
  | number value => value.isFinite
  | _ => true

/-- Every number among the literals of the trees is finite. -/
def FiniteNumbers (ss : List Stmt) : Prop := ∀ v ∈ Stmt.literalsOf ss, v.isFinite = true

instance (ss : List Stmt) : Decidable (FiniteNumbers ss) :=
  inferInstanceAs (Decidable (∀ v ∈ Stmt.literalsOf ss, v.isFinite = true))

theorem sourceTrees_wellFormed (source : String) :
    Stmt.AllWellFormed Token.IsSpelled (sourceTrees source) :=
  Stmt.allWellFormed_iff.2 fun _ hs =>
    (Task.ReadFrom.program hs).wellFormed fun _ => scanned_isSpelled

/-- Where all numbers are finite, every literal can be told apart from all else that is shown. -/
theorem FiniteNumbers.shown {source : String} (h : FiniteNumbers (sourceTrees source)) :
    AllLiterals Value.IsShown (Stmt.literalsOf (sourceTrees source)) := by
  have hwords : ∀ v ∈ [Value.nil, .bool false, .bool true], v.IsShown ∨ ∃ x, v = .number x := by
    simp only [List.forall_mem_cons]
    exact ⟨.inl rfl, .inl rfl, .inl rfl, nofun⟩
  have hread : AllLiterals (fun v => v.IsShown ∨ ∃ x, v = .number x)
      (Stmt.literalsOf (sourceTrees source)) :=
    readProgram_literals hwords fun t hm hk => (scanned_isSpelled hm).literal hk
  intro v hv
  rcases hread v hv with hshown | ⟨x, rfl⟩
  · exact hshown
  · exact h _ hv

/-- **The text of a program shows its skeletons, and nothing else.**  If all numbers among the
literals of two programs are finite, then the programs are shown as the same text exactly if they
are structurally equal, up to the lines of tokens, the tokens that are kept only to report errors
at, and the notes of scope analysis. -/
theorem programText_unambiguous {a b : String} (ha : FiniteNumbers (sourceTrees a))
    (hb : FiniteNumbers (sourceTrees b)) :
    programText (sourceTrees a) = programText (sourceTrees b) ↔
      Stmt.skeletons (sourceTrees a) = Stmt.skeletons (sourceTrees b) := by
  have hwa := sourceTrees_wellFormed a
  have hwb := sourceTrees_wellFormed b
  rw [← String.toList_inj, toList_programText, toList_programText]
  constructor
  · intro h
    -- from the text to the s-expressions, and from them to the skeletons
    have hsexps := Sexp.lines_inj (Stmt.sexps_wellFormed hwa ha.shown)
      (Stmt.sexps_wellFormed hwb hb.shown) h
    exact Stmt.skeletons_eq hwa hwb hsexps
  · intro h
    rw [← Stmt.sexps_skeletons, h, Stmt.sexps_skeletons]

/-- A program, and the same with its tokens on other lines and its number spelled in another way. -/
theorem programText_unambiguous_spread :
    (scan "-1.5;fun f(a,b)\x7breturn a.c=\"x\";\x7d").tokens ≠
        (scan "- // sign\n01.50;\nfun f(a,\nb)\x7b\nreturn a.c = \"x\";\x7d").tokens ∧
      Stmt.skeletons (sourceTrees "-1.5;fun f(a,b)\x7breturn a.c=\"x\";\x7d") =
        Stmt.skeletons
          (sourceTrees "- // sign\n01.50;\nfun f(a,\nb)\x7b\nreturn a.c = \"x\";\x7d") :=
  ⟨by decide +kernel,
    (programText_unambiguous (by decide +kernel) (by decide +kernel)).1 (by decide +kernel)⟩

end ScopedScript

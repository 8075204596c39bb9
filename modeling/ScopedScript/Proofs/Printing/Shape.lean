import ScopedScript.Proofs.Grammar.WellFormed
import ScopedScript.Proofs.Printing.Trees
import ScopedScript.Proofs.Scan.Respacing

/-!
# The shape of a tree is seen from its s-expression

The tokens in a well-formed tree are names and operators.  A name is no reserved word, and no
operator is spelled like the word that stands for a kind of node.  So the word at the head of a
list and the parts behind it say which kind of node the list stands for, and node by node the whole
skeleton of the tree is seen from its s-expression.

## Main definitions

* `Tag`: the kinds of nodes.
* `Sexp.tag`: the kind of node that an s-expression stands for.

## Main results

* `IsLexeme.unique`: a lexeme makes one token.
* `Expr.tag_sexp`, `Stmt.tag_sexp`: the kind of a node is seen from its s-expression.
* `Expr.skeleton_eq`, `Stmt.skeleton_eq`: and so is the whole skeleton.
-/

namespace ScopedScript

/-! ## Names and operators -/

/-- **A lexeme makes one token.** -/
theorem IsLexeme.unique {text after after' : List Char} {made made' : TokenKind × Literal}
    (h : IsLexeme text after (some made)) (h' : IsLexeme text after' (some made')) :
    made = made' := by
  have hblank : BlankAhead [] := nofun
  have h := h.before_blank hblank
  have h' := h'.before_blank hblank
  obtain ⟨c, more, rfl⟩ := List.exists_cons_of_ne_nil h.ne_nil
  have hm := h.cut.2.2 (h.cut_before_blank hblank)
  have hm' := h'.cut.2.2 (h'.cut_before_blank hblank)
  exact Option.some.inj (hm.symm.trans hm')

namespace Token.IsSpelled

variable {t t' : Token}

/-- A token is determined by its lexeme, but for its line. -/
theorem unplaced_eq (h : t.IsSpelled) (h' : t'.IsSpelled) (hl : t.lexeme = t'.lexeme) :
    t.unplaced = t'.unplaced := by
  obtain ⟨after, h⟩ := h
  obtain ⟨after', h'⟩ := h'
  rw [hl] at h
  obtain ⟨hk, hliteral⟩ := Prod.mk.inj (h.unique h')
  rw [Token.unplaced, Token.unplaced, hk, hl, hliteral]

end Token.IsSpelled

/-- The operators of trees, with their kinds. -/
def operators : List (String × TokenKind) :=
  [("!", .bang), ("-", .minus), ("!=", .bangEqual), ("==", .equalEqual), (">", .greater),
    (">=", .greaterEqual), ("<", .less), ("<=", .lessEqual), ("+", .plus), ("/", .slash),
    ("*", .star), ("or", .or), ("and", .and)]

theorem unary_operators : ∀ kind ∈ [TokenKind.bang, .minus],
    kind ∈ operators.map Prod.snd ∧ kind ∉ [TokenKind.or, .and] := by decide

theorem binary_operators : ∀ kind ∈ binaryKinds,
    kind ∈ operators.map Prod.snd ∧ kind ∉ [TokenKind.or, .and] := by decide

theorem logical_operators : ∀ kind ∈ [TokenKind.or, .and], kind ∈ operators.map Prod.snd := by
  decide

/-- A word of the lexical grammar is one of s-expressions. -/
theorem IsWord.isWord {text : List Char} (h : IsWord text) : Sexp.isWord text = true := by
  obtain ⟨first, more, rfl, hf, hm⟩ := h
  have hparts : ∀ c ∈ first :: more, isWordPart c = true :=
    List.forall_mem_cons.2 ⟨by rw [isWordPart, hf, Bool.true_or], hm⟩
  have hdelimiters : ∀ c ∈ Sexp.delimiters, isWordPart c = false := by
    simp [Sexp.delimiters, isWordPart, isWordStart]
  have hsign : (first == '-') = false := by
    refine beq_eq_false_iff_ne.2 ?_
    rintro rfl
    cases hf
  refine Sexp.isWord_iff.2 ⟨⟨List.cons_ne_nil _ _, fun c hc hd => ?_⟩, ?_⟩
  · exact absurd (hparts c hc) (by rw [hdelimiters c hd]; decide)
  · rw [Sexp.looksNumeric, List.dropWhile_cons, hsign]
    exact not_isDigit_of_isWordStart hf

namespace Token.IsSpelled

variable {t : Token}

/-- A token of the kind of an operator is spelled so. -/
theorem operator (h : t.IsSpelled) (hk : t.kind ∈ operators.map Prod.snd) :
    (t.lexeme, t.kind) ∈ operators := by
  have hsymbols : ∀ entry ∈ symbolSpellings, entry.2 ∈ operators.map Prod.snd →
      (String.ofList entry.1, entry.2) ∈ operators := by decide
  have hwords : ∀ entry ∈ keywords, entry.2 ∈ operators.map Prod.snd → entry ∈ operators := by
    decide
  obtain ⟨after, h⟩ := h
  rw [← String.ofList_toList (s := t.lexeme)]
  generalize t.lexeme.toList = text at h ⊢
  generalize t.kind = kind at h hk ⊢
  generalize t.literal = literal at h
  cases h with
  | symbol h => exact hsymbols _ h hk
  | slash => decide
  | reserved h hkeyword => exact hwords _ hkeyword hk
  | whole | decimal | identifier | quoted => exact absurd hk (by decide)

/-- A name is a word, and none that stands for a value. -/
theorem name (h : t.IsSpelled) (hk : t.kind = .identifier) :
    Sexp.isWord t.lexeme.toList = true ∧ t.lexeme ∉ ["nil", "true", "false", "this"] := by
  have hvalues : ∀ word ∈ ["nil", "true", "false", "this"], word ∈ keywords.map Prod.fst := by
    decide
  obtain ⟨after, h⟩ := h
  nth_rewrite 2 [← String.ofList_toList (s := t.lexeme)]
  generalize t.lexeme.toList = text at h ⊢
  generalize t.literal = literal at h
  rw [hk] at h
  cases h with
  | symbol h => exact absurd h (by simp [symbolSpellings])
  | reserved h hkeyword => exact absurd hkeyword (by simp [keywords])
  | identifier h hkeyword =>
    refine ⟨h.isWord, fun hm => ?_⟩
    obtain ⟨entry, he, hword⟩ := List.mem_map.1 (hvalues _ hm)
    exact hkeyword entry.2 (hword ▸ he)

end Token.IsSpelled

/-! ## Kinds of nodes -/

/-- **The kinds of nodes.** -/
inductive Tag where
  | literal | «variable» | assign | group | unary | binary | logical | conditional | sequence
  | call | lambda | get | set | this | print | var | block | branch | loop | function | return
  | «class»
deriving DecidableEq

/-- The kind of an expression. -/
def Expr.tag : Expr → Tag
  | .literal .. => .literal
  | .variable .. => .variable
  | .assign .. => .assign
  | .group .. => .group
  | .unary .. => .unary
  | .binary .. => .binary
  | .logical .. => .logical
  | .conditional .. => .conditional
  | .sequence .. => .sequence
  | .call .. => .call
  | .lambda .. => .lambda
  | .get .. => .get
  | .set .. => .set
  | .this .. => .this

/-- The kind of a statement; an expression is shown as it is. -/
def Stmt.tag : Stmt → Tag
  | .expression e => e.tag
  | .print .. => .print
  | .var .. => .var
  | .block .. => .block
  | .branch .. => .branch
  | .loop .. => .loop
  | .function .. => .function
  | .return .. => .return
  | .class .. => .class

/-- The words that stand for one kind of node only. -/
def headTags : List (String × Tag) :=
  [("group", .group), ("or", .logical), ("and", .logical), ("ternary", .conditional),
    ("list", .sequence), ("call", .call), (".", .get), ("print", .print), ("var", .var),
    ("block", .block), ("if", .branch), ("while", .loop), ("return", .return), ("class", .class)]

namespace Sexp

/-- Whether the first of the parts is a name. -/
def startsNamed : List Sexp → Bool
  | word _ :: _ => true
  | _ => false

/-- The kind of node that a list stands for, by the word at its head and the parts behind it. -/
def nodeTag (head : String) (parts : List Sexp) : Tag :=
  if head = "=" then if startsNamed parts then .assign else .set
  else if head = "fun" then if startsNamed parts then .function else .lambda
  else (headTags.lookup head).getD (if parts.length = 1 then .unary else .binary)

/-- **The kind of node that an s-expression stands for.** -/
def tag : Sexp → Tag
  | number _ | quoted _ => .literal
  | word text =>
    if text ∈ ["nil", "true", "false"] then .literal else if text = "this" then .this
    else .variable
  | node (word head :: parts) => nodeTag head parts
  | node _ => .literal

end Sexp

/-- The kind of a node with an operator. -/
theorem nodeTag_operator {t : Token} (h : t.IsSpelled) (hk : t.kind ∈ operators.map Prod.snd)
    (parts : List Sexp) : Sexp.nodeTag t.lexeme parts =
      if t.kind ∈ [TokenKind.or, .and] then .logical
      else if parts.length = 1 then .unary else .binary := by
  have hall : ∀ entry ∈ operators, entry.1 ≠ "=" ∧ entry.1 ≠ "fun" ∧ headTags.lookup entry.1 =
      if entry.2 ∈ [TokenKind.or, .and] then some .logical else none := by decide
  obtain ⟨he, hf, hl⟩ := hall _ (h.operator hk)
  rw [Sexp.nodeTag, if_neg he, if_neg hf, hl]
  split <;> rfl

/-- **The kind of an expression is seen from its s-expression.** -/
theorem Expr.tag_sexp {e : Expr} (h : e.WellFormed Token.IsSpelled) : e.sexp.tag = e.tag := by
  cases e with
  | literal value =>
    cases value with
    | nil | number | string => rfl
    | bool value => cases value <;> rfl
    | _ => cases h
  | «variable» name hops scopes =>
    have hn := (h.1.name h.2).2
    simp only [List.mem_cons, List.not_mem_nil, or_false, not_or] at hn
    simp [Expr.sexp, Sexp.tag, hn, Expr.tag]
  | unary op operand =>
    obtain ⟨hk, hn⟩ := unary_operators _ h.2.1
    exact (nodeTag_operator h.1 hk _).trans (if_neg hn)
  | binary left op right =>
    -- the parts behind the operator are two, so that it is not read as the unary one
    obtain ⟨hk, hn⟩ := binary_operators _ h.2.2.1
    exact (nodeTag_operator h.2.1 hk _).trans (if_neg hn)
  | logical left op right =>
    have hk := logical_operators _ h.2.2.1
    exact (nodeTag_operator h.2.1 hk _).trans (if_pos h.2.2.1)
  | _ => rfl

/-- **The kind of a statement is seen from its s-expression.** -/
theorem Stmt.tag_sexp {s : Stmt} (h : s.WellFormed Token.IsSpelled) : s.sexp.tag = s.tag := by
  cases s with
  | expression e => exact Expr.tag_sexp h
  | function f => cases f; rfl
  | _ => rfl

/-! ## Skeletons -/

theorem Expr.tag_eq {e e' : Expr} (he : e.WellFormed Token.IsSpelled)
    (he' : e'.WellFormed Token.IsSpelled) (h : e.sexp = e'.sexp) : e.tag = e'.tag := by
  rw [← tag_sexp he, ← tag_sexp he', h]

theorem Stmt.tag_eq {s s' : Stmt} (hs : s.WellFormed Token.IsSpelled)
    (hs' : s'.WellFormed Token.IsSpelled) (h : s.sexp = s'.sexp) : s.tag = s'.tag := by
  rw [← tag_sexp hs, ← tag_sexp hs', h]

/-- Whether a kind of node is one of statements other than expressions. -/
def Tag.isStatement : Tag → Bool
  | print | var | block | branch | loop | function | «return» | «class» => true
  | _ => false

theorem Expr.tag_ne (e : Expr) {tag : Tag} (h : tag.isStatement = true) : e.tag ≠ tag := by
  rintro rfl
  cases e <;> cases h

/-- The literal that an s-expression stands for. -/
def Sexp.value : Sexp → Value
  | number value => .number value
  | quoted body => .string body
  | word text => if text = "true" then .bool true else if text = "false" then .bool false else .nil
  | node _ => .nil

/-- Literals are seen from their s-expressions. -/
theorem Value.value_sexp {v : Value} (h : v.isPlain = true) : v.sexp.value = v := by
  cases v with
  | nil | number | string => rfl
  | bool value => cases value <;> rfl
  | _ => cases h

/-- Parameters are seen from their s-expression, but for their lines. -/
theorem map_unplaced_eq {params params' : List Token} (hp : ∀ param ∈ params, param.IsSpelled)
    (hp' : ∀ param ∈ params', param.IsSpelled)
    (h : params.map Token.lexeme = params'.map Token.lexeme) :
    params.map Token.unplaced = params'.map Token.unplaced := by
  induction params generalizing params' with
  | nil =>
    obtain rfl : params' = [] := List.map_eq_nil_iff.1 h.symm
    rfl
  | cons param params ih =>
    cases params' with
    | nil => cases h
    | cons param' params' =>
      obtain ⟨hfirst, hmore⟩ := List.cons.inj h
      obtain ⟨hs, hp⟩ := List.forall_mem_cons.1 hp
      obtain ⟨hs', hp'⟩ := List.forall_mem_cons.1 hp'
      rw [List.map_cons, List.map_cons, hs.unplaced_eq hs' hfirst, ih hp hp' hmore]

theorem ParametersWellFormed.unplaced_eq {params params' : List Token}
    (hp : ParametersWellFormed Token.IsSpelled params)
    (hp' : ParametersWellFormed Token.IsSpelled params')
    (h : parameterSexp params = parameterSexp params') :
    params.map Token.unplaced = params'.map Token.unplaced := by
  refine map_unplaced_eq (fun param hm => (hp.2 param hm).1) (fun param hm => (hp'.2 param hm).1) ?_
  rw [← List.map_inj_right (f := Sexp.word) fun _ _ => Sexp.word.inj, List.map_map, List.map_map]
  exact Sexp.node.inj h

mutual

/-- **The skeleton of an expression is seen from its s-expression.** -/
theorem Expr.skeleton_eq {e e' : Expr} (he : e.WellFormed Token.IsSpelled)
    (he' : e'.WellFormed Token.IsSpelled) (h : e.sexp = e'.sexp) : e.skeleton = e'.skeleton := by
  have ht := Expr.tag_eq he he' h
  cases e with
  | literal value =>
    cases e' with
    | literal value' =>
      have hv : value.sexp.value = value'.sexp.value := congrArg Sexp.value h
      rw [Value.value_sexp he, Value.value_sexp he'] at hv
      rw [hv]
    | _ => cases ht
  | «variable» name hops scopes =>
    cases e' with
    | «variable» name' hops' scopes' =>
      simp only [Expr.sexp, Sexp.word.injEq] at h
      simp only [Expr.skeleton, he.1.unplaced_eq he'.1 h]
    | _ => cases ht
  | assign name value hops scopes =>
    cases e' with
    | assign name' value' hops' scopes' =>
      simp only [Expr.sexp, Sexp.node.injEq, List.cons.injEq, Sexp.word.injEq, true_and,
        and_true] at h
      simp only [Expr.skeleton, he.1.1.unplaced_eq he'.1.1 h.1, Expr.skeleton_eq he.2 he'.2 h.2]
    | _ => cases ht
  | group inner =>
    cases e' with
    | group inner' =>
      simp only [Expr.sexp, Sexp.node.injEq, List.cons.injEq, true_and, and_true] at h
      have hi : inner.skeleton = inner'.skeleton := Expr.skeleton_eq he he' h
      simp only [Expr.skeleton, hi]
    | _ => cases ht
  | unary op operand =>
    cases e' with
    | unary op' operand' =>
      simp only [Expr.sexp, Sexp.node.injEq, List.cons.injEq, Sexp.word.injEq, and_true] at h
      simp only [Expr.skeleton, he.1.unplaced_eq he'.1 h.1, Expr.skeleton_eq he.2.2 he'.2.2 h.2]
    | _ => cases ht
  | binary left op right =>
    cases e' with
    | binary left' op' right' =>
      simp only [Expr.sexp, Sexp.node.injEq, List.cons.injEq, Sexp.word.injEq, and_true] at h
      obtain ⟨hop, hleft, hright⟩ := h
      simp only [Expr.skeleton, he.2.1.unplaced_eq he'.2.1 hop, Expr.skeleton_eq he.1 he'.1 hleft,
        Expr.skeleton_eq he.2.2.2 he'.2.2.2 hright]
    | _ => cases ht
  | logical left op right =>
    cases e' with
    | logical left' op' right' =>
      simp only [Expr.sexp, Sexp.node.injEq, List.cons.injEq, Sexp.word.injEq, and_true] at h
      obtain ⟨hop, hleft, hright⟩ := h
      simp only [Expr.skeleton, he.2.1.unplaced_eq he'.2.1 hop, Expr.skeleton_eq he.1 he'.1 hleft,
        Expr.skeleton_eq he.2.2.2 he'.2.2.2 hright]
    | _ => cases ht
  | conditional condition whenTrue whenFalse =>
    cases e' with
    | conditional condition' whenTrue' whenFalse' =>
      simp only [Expr.sexp, Sexp.node.injEq, List.cons.injEq, true_and, and_true] at h
      simp only [Expr.skeleton, Expr.skeleton_eq he.1 he'.1 h.1,
        Expr.skeleton_eq he.2.1 he'.2.1 h.2.1, Expr.skeleton_eq he.2.2 he'.2.2 h.2.2]
    | _ => cases ht
  | sequence items =>
    cases e' with
    | sequence items' =>
      simp only [Expr.sexp, Sexp.node.injEq, List.cons.injEq, true_and] at h
      simp only [Expr.skeleton, Expr.skeletons_eq he.2 he'.2 h]
    | _ => cases ht
  | call callee paren args =>
    cases e' with
    | call callee' paren' args' =>
      simp only [Expr.sexp, Sexp.node.injEq, List.cons.injEq, true_and] at h
      simp only [Expr.skeleton, Expr.skeleton_eq he.1 he'.1 h.1,
        Expr.skeletons_eq he.2.2.2 he'.2.2.2 h.2]
    | _ => cases ht
  | lambda keyword params body =>
    cases e' with
    | lambda keyword' params' body' =>
      simp only [Expr.sexp, Sexp.node.injEq, List.cons.injEq, true_and] at h
      simp only [Expr.skeleton, he.2.1.unplaced_eq he'.2.1 h.1,
        Stmt.skeletons_eq he.2.2 he'.2.2 h.2]
    | _ => cases ht
  | get object name =>
    cases e' with
    | get object' name' =>
      simp only [Expr.sexp, Sexp.node.injEq, List.cons.injEq, Sexp.word.injEq, true_and,
        and_true] at h
      simp only [Expr.skeleton, Expr.skeleton_eq he.1 he'.1 h.1, he.2.1.unplaced_eq he'.2.1 h.2]
    | _ => cases ht
  | set object name value =>
    cases e' with
    | set object' name' value' =>
      simp only [Expr.sexp, Sexp.node.injEq, List.cons.injEq, Sexp.word.injEq, true_and,
        and_true] at h
      obtain ⟨⟨hobject, hname⟩, hvalue⟩ := h
      simp only [Expr.skeleton, Expr.skeleton_eq he.1 he'.1 hobject,
        he.2.1.1.unplaced_eq he'.2.1.1 hname, Expr.skeleton_eq he.2.2 he'.2.2 hvalue]
    | _ => cases ht
  | this keyword hops scopes =>
    cases e' with
    | this => rfl
    | _ => cases ht
termination_by structural e

theorem Expr.skeletons_eq {es es' : List Expr} (hes : Expr.ItemsWellFormed Token.IsSpelled es)
    (hes' : Expr.ItemsWellFormed Token.IsSpelled es') (h : Expr.sexps es = Expr.sexps es') :
    Expr.skeletons es = Expr.skeletons es' := by
  cases es with
  | nil =>
    cases es' with
    | nil => rfl
    | cons => cases h
  | cons e es =>
    cases es' with
    | nil => cases h
    | cons e' es' =>
      simp only [Expr.sexps, List.cons.injEq] at h
      simp only [Expr.skeletons, Expr.skeleton_eq hes.1 hes'.1 h.1,
        Expr.skeletons_eq hes.2.2 hes'.2.2 h.2]
termination_by structural es

theorem Expr.skeleton?_eq {o o' : Option Expr} (ho : Expr.OptionWellFormed Token.IsSpelled o)
    (ho' : Expr.OptionWellFormed Token.IsSpelled o') (h : Expr.sexp? o = Expr.sexp? o') :
    Expr.skeleton? o = Expr.skeleton? o' := by
  cases o with
  | none =>
    cases o' with
    | none => rfl
    | some => cases h
  | some e =>
    cases o' with
    | none => cases h
    | some e' =>
      simp only [Expr.sexp?, List.cons.injEq, and_true] at h
      have he : e.skeleton = e'.skeleton := Expr.skeleton_eq ho ho' h
      simp only [Expr.skeleton?, he]
termination_by structural o

/-- **The skeleton of a statement is seen from its s-expression.** -/
theorem Stmt.skeleton_eq {s s' : Stmt} (hs : s.WellFormed Token.IsSpelled)
    (hs' : s'.WellFormed Token.IsSpelled) (h : s.sexp = s'.sexp) : s.skeleton = s'.skeleton := by
  have ht := Stmt.tag_eq hs hs' h
  cases s with
  | expression e =>
    cases s' with
    | expression e' =>
      have he : e.skeleton = e'.skeleton := Expr.skeleton_eq hs hs' h
      simp only [Stmt.skeleton, he]
    | _ => exact absurd ht (e.tag_ne rfl)
  | print e =>
    cases s' with
    | expression e' => exact absurd ht.symm (e'.tag_ne rfl)
    | print e' =>
      simp only [Stmt.sexp, Sexp.node.injEq, List.cons.injEq, true_and, and_true] at h
      have he : e.skeleton = e'.skeleton := Expr.skeleton_eq hs hs' h
      simp only [Stmt.skeleton, he]
    | _ => cases ht
  | var name initializer =>
    cases s' with
    | expression e' => exact absurd ht.symm (e'.tag_ne rfl)
    | var name' initializer' =>
      simp only [Stmt.sexp, Sexp.node.injEq, List.cons.injEq, Sexp.word.injEq, true_and] at h
      simp only [Stmt.skeleton, hs.1.1.unplaced_eq hs'.1.1 h.1, Expr.skeleton?_eq hs.2 hs'.2 h.2]
    | _ => cases ht
  | block statements =>
    cases s' with
    | expression e' => exact absurd ht.symm (e'.tag_ne rfl)
    | block statements' =>
      simp only [Stmt.sexp, Sexp.node.injEq, List.cons.injEq, true_and] at h
      have hb : Stmt.skeletons statements = Stmt.skeletons statements' := Stmt.skeletons_eq hs hs' h
      simp only [Stmt.skeleton, hb]
    | _ => cases ht
  | branch condition whenTrue whenFalse =>
    cases s' with
    | expression e' => exact absurd ht.symm (e'.tag_ne rfl)
    | branch condition' whenTrue' whenFalse' =>
      simp only [Stmt.sexp, Sexp.node.injEq, List.cons.injEq, true_and] at h
      obtain ⟨hcondition, htrue, hfalse⟩ := h
      simp only [Stmt.skeleton, Expr.skeleton_eq hs.1 hs'.1 hcondition,
        Stmt.skeleton_eq hs.2.1 hs'.2.1 htrue, Stmt.skeleton?_eq hs.2.2.2 hs'.2.2.2 hfalse]
    | _ => cases ht
  | loop condition body =>
    cases s' with
    | expression e' => exact absurd ht.symm (e'.tag_ne rfl)
    | loop condition' body' =>
      simp only [Stmt.sexp, Sexp.node.injEq, List.cons.injEq, true_and, and_true] at h
      simp only [Stmt.skeleton, Expr.skeleton_eq hs.1 hs'.1 h.1,
        Stmt.skeleton_eq hs.2.1 hs'.2.1 h.2]
    | _ => cases ht
  | function f =>
    cases s' with
    | expression e' => exact absurd ht.symm (e'.tag_ne rfl)
    | function f' =>
      have hf : f.skeleton = f'.skeleton := FunctionDecl.skeleton_eq hs hs' h
      simp only [Stmt.skeleton, hf]
    | _ => cases ht
  | «return» keyword value =>
    cases s' with
    | expression e' => exact absurd ht.symm (e'.tag_ne rfl)
    | «return» keyword' value' =>
      simp only [Stmt.sexp, Sexp.node.injEq, List.cons.injEq, true_and] at h
      simp only [Stmt.skeleton, Expr.skeleton?_eq hs.2 hs'.2 h]
    | _ => cases ht
  | «class» name methods =>
    cases s' with
    | expression e' => exact absurd ht.symm (e'.tag_ne rfl)
    | «class» name' methods' =>
      simp only [Stmt.sexp, Sexp.node.injEq, List.cons.injEq, Sexp.word.injEq, true_and] at h
      simp only [Stmt.skeleton, hs.1.1.unplaced_eq hs'.1.1 h.1,
        FunctionDecl.skeletons_eq hs.2 hs'.2 h.2]
    | _ => cases ht
termination_by structural s

theorem Stmt.skeletons_eq {ss ss' : List Stmt} (hss : Stmt.AllWellFormed Token.IsSpelled ss)
    (hss' : Stmt.AllWellFormed Token.IsSpelled ss') (h : Stmt.sexps ss = Stmt.sexps ss') :
    Stmt.skeletons ss = Stmt.skeletons ss' := by
  cases ss with
  | nil =>
    cases ss' with
    | nil => rfl
    | cons => cases h
  | cons s ss =>
    cases ss' with
    | nil => cases h
    | cons s' ss' =>
      simp only [Stmt.sexps, List.cons.injEq] at h
      simp only [Stmt.skeletons, Stmt.skeleton_eq hss.1 hss'.1 h.1,
        Stmt.skeletons_eq hss.2 hss'.2 h.2]
termination_by structural ss

theorem Stmt.skeleton?_eq {o o' : Option Stmt} (ho : Stmt.OptionWellFormed Token.IsSpelled o)
    (ho' : Stmt.OptionWellFormed Token.IsSpelled o') (h : Stmt.sexp? o = Stmt.sexp? o') :
    Stmt.skeleton? o = Stmt.skeleton? o' := by
  cases o with
  | none =>
    cases o' with
    | none => rfl
    | some => cases h
  | some s =>
    cases o' with
    | none => cases h
    | some s' =>
      simp only [Stmt.sexp?, List.cons.injEq, and_true] at h
      simp only [Stmt.skeleton?, Stmt.skeleton_eq ho.1 ho'.1 h]
termination_by structural o

theorem FunctionDecl.skeleton_eq {f f' : FunctionDecl} (hf : f.WellFormed Token.IsSpelled)
    (hf' : f'.WellFormed Token.IsSpelled) (h : f.sexp = f'.sexp) : f.skeleton = f'.skeleton := by
  cases f with
  | mk name params body =>
    cases f' with
    | mk name' params' body' =>
      simp only [FunctionDecl.sexp, Sexp.node.injEq, List.cons.injEq, Sexp.word.injEq,
        true_and] at h
      obtain ⟨hname, hparams, hbody⟩ := h
      simp only [FunctionDecl.skeleton, hf.1.1.unplaced_eq hf'.1.1 hname,
        hf.2.1.unplaced_eq hf'.2.1 hparams, Stmt.skeletons_eq hf.2.2 hf'.2.2 hbody]
termination_by structural f

theorem FunctionDecl.skeletons_eq {fs fs' : List FunctionDecl}
    (hfs : FunctionDecl.AllWellFormed Token.IsSpelled fs)
    (hfs' : FunctionDecl.AllWellFormed Token.IsSpelled fs')
    (h : FunctionDecl.sexps fs = FunctionDecl.sexps fs') :
    FunctionDecl.skeletons fs = FunctionDecl.skeletons fs' := by
  cases fs with
  | nil =>
    cases fs' with
    | nil => rfl
    | cons => cases h
  | cons f fs =>
    cases fs' with
    | nil => cases h
    | cons f' fs' =>
      simp only [FunctionDecl.sexps, List.cons.injEq] at h
      simp only [FunctionDecl.skeletons, FunctionDecl.skeleton_eq hfs.1 hfs'.1 h.1,
        FunctionDecl.skeletons_eq hfs.2 hfs'.2 h.2]
termination_by structural fs

end

end ScopedScript

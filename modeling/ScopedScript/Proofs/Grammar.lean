import ScopedScript.Tree.ParseError
import ScopedScript.Tree

/-!
# The grammar

The grammar of the language as a relation between token lists and trees, written down
without the readers.  `Derives nearest p tokens` says that `tokens`, as a whole, are the
phrase `p`; a phrase carries the tree it stands for.

The grammar says nothing about which `if` an `else` belongs to, so a token list may be a
statement in more than one way.  A statement phrase therefore says whether it ends in an
`if` that an `else` could still join.  Where `nearest` is true, no such statement stands
before an `else`: then an `else` belongs to the nearest `if` that is open.  Where `nearest`
is false, the relation is the grammar as it is written.

## Main definitions

* `Tier`: the levels of left-associative operators, from loose to tight.
* `Phrase`: the phrases with their trees.
* `Derives`: which token lists are which phrases.
-/

namespace ScopedScript

/-! ## Phrases -/

/-- **The levels of left-associative operators**, from loose to tight. -/
inductive Tier where
  | or
  | and
  | equality
  | comparison
  | term
  | factor
deriving DecidableEq

namespace Tier

/-- The operators of a level. -/
def operators : Tier → List TokenKind
  | or => [.or]
  | and => [.and]
  | equality => [.bangEqual, .equalEqual]
  | comparison => [.greater, .greaterEqual, .less, .lessEqual]
  | term => [.minus, .plus]
  | factor => [.slash, .star]

/-- The tree of an operator between two operands. -/
def join : Tier → Expr → Token → Expr → Expr
  | or | and => .logical
  | _ => .binary

end Tier

/-- **The phrases of the grammar**, each with the tree it stands for.  The Boolean of a
statement says whether it ends in an `if` that an `else` could still join. -/
inductive Phrase where
  | expression (tree : Expr)
  | items (trees : List Expr)
  | assignment (tree : Expr)
  | ternary (tree : Expr)
  | tier (level : Tier) (tree : Expr)
  | unary (tree : Expr)
  | call (tree : Expr)
  | arguments (trees : List Expr)
  | primary (tree : Expr)
  | optional (tree : Option Expr)
  | variable (tree : Stmt)
  | initializer (tree : Option Stmt)
  | function (decl : FunctionDecl)
  | functions (decls : List FunctionDecl)
  | statement (dangling : Bool) (tree : Stmt)
  | declaration (dangling : Bool) (tree : Stmt)
  | declarations (trees : List Stmt)

/-- The operands of a level: the phrases of the next tighter one. -/
def Tier.operand : Tier → Expr → Phrase
  | or, tree => .tier .and tree
  | and, tree => .tier .equality tree
  | equality, tree => .tier .comparison tree
  | comparison, tree => .tier .term tree
  | term, tree => .tier .factor tree
  | factor, tree => .unary tree

/-- One or more identifiers with commas between them. -/
inductive Names : List Token → List Token → Prop where
  | one {name : Token} (hn : name.kind = .identifier) : Names [name] [name]
  | more {name comma : Token} {names tokens : List Token} (hn : name.kind = .identifier)
      (hc : comma.kind = .comma) (h : Names names tokens) :
      Names (name :: names) (name :: comma :: tokens)

/-- A parameter list without its parentheses: nothing, or as many names as a function may
have parameters. -/
inductive Parameters : List Token → List Token → Prop where
  | none : Parameters [] []
  | some {names tokens : List Token} (h : Names names tokens) (hl : names.length ≤ maxArity) :
      Parameters names tokens

/-- **A for loop in terms of while.**  The initializer is in a block around the loop, and
the increment is in a block with the body. -/
def forTree : Option Stmt → Expr → Option Expr → Stmt → Stmt
  | none, condition, none, body => .loop condition body
  | none, condition, some step, body => .loop condition (.block [body, .expression step])
  | some first, condition, none, body => .block [first, .loop condition body]
  | some first, condition, some step, body =>
    .block [first, .loop condition (.block [body, .expression step])]

/-! ## Derivations -/

/-- **Which token lists are which phrases.**  Every operator level groups to the left,
assignment, the conditional and the unary operators to the right. -/
inductive Derives (nearest : Bool) : Phrase → List Token → Prop where
  -- expression ::= assignment ( "," assignment )*
  | single {e : Expr} {ts : List Token} (h : Derives nearest (.items [e]) ts) :
      Derives nearest (.expression e) ts
  | sequence {e e' : Expr} {es : List Expr} {ts : List Token}
      (h : Derives nearest (.items (e :: e' :: es)) ts) :
      Derives nearest (.expression (.sequence (e :: e' :: es))) ts
  | lastItem {e : Expr} {ts : List Token} (h : Derives nearest (.assignment e) ts) :
      Derives nearest (.items [e]) ts
  | moreItems {e : Expr} {es : List Expr} {ts us : List Token} {comma : Token}
      (h : Derives nearest (.assignment e) ts) (hc : comma.kind = .comma)
      (hs : Derives nearest (.items es) us) :
      Derives nearest (.items (e :: es)) (ts ++ comma :: us)
  -- assignment ::= ( call "." )? IDENTIFIER "=" assignment | ternary
  | assignVariable {name equal : Token} {value : Expr} {ts : List Token}
      (hn : name.kind = .identifier) (he : equal.kind = .equal)
      (h : Derives nearest (.assignment value) ts) :
      Derives nearest (.assignment (.assign name value none)) (name :: equal :: ts)
  | assignProperty {object value : Expr} {dot name equal : Token} {ts us : List Token}
      (ho : Derives nearest (.call object) ts) (hd : dot.kind = .dot)
      (hn : name.kind = .identifier) (he : equal.kind = .equal)
      (h : Derives nearest (.assignment value) us) :
      Derives nearest (.assignment (.set object name value)) (ts ++ dot :: name :: equal :: us)
  | noAssignment {e : Expr} {ts : List Token} (h : Derives nearest (.ternary e) ts) :
      Derives nearest (.assignment e) ts
  -- ternary ::= or ( "?" ternary ":" ternary )?
  | conditional {c a b : Expr} {question colon : Token} {ts us vs : List Token}
      (hc : Derives nearest (.tier .or c) ts) (hq : question.kind = .question)
      (ha : Derives nearest (.ternary a) us) (hk : colon.kind = .colon)
      (hb : Derives nearest (.ternary b) vs) :
      Derives nearest (.ternary (.conditional c a b))
        (ts ++ question :: (us ++ colon :: vs))
  | noConditional {e : Expr} {ts : List Token} (h : Derives nearest (.tier .or e) ts) :
      Derives nearest (.ternary e) ts
  -- level ::= operand ( operator operand )*
  | operand {level : Tier} {e : Expr} {ts : List Token}
      (h : Derives nearest (level.operand e) ts) : Derives nearest (.tier level e) ts
  | operator {level : Tier} {left right : Expr} {op : Token} {ts us : List Token}
      (hl : Derives nearest (.tier level left) ts) (ho : op.kind ∈ level.operators)
      (hr : Derives nearest (level.operand right) us) :
      Derives nearest (.tier level (level.join left op right)) (ts ++ op :: us)
  -- unary ::= ( "!" | "-" ) unary | call
  | unaryOperator {op : Token} {e : Expr} {ts : List Token}
      (ho : op.kind ∈ [TokenKind.bang, .minus]) (h : Derives nearest (.unary e) ts) :
      Derives nearest (.unary (.unary op e)) (op :: ts)
  | noUnary {e : Expr} {ts : List Token} (h : Derives nearest (.call e) ts) :
      Derives nearest (.unary e) ts
  -- call ::= primary ( "(" expression? ")" | "." IDENTIFIER )*
  | noCall {e : Expr} {ts : List Token} (h : Derives nearest (.primary e) ts) :
      Derives nearest (.call e) ts
  | application {callee : Expr} {args : List Expr} {left right : Token} {ts us : List Token}
      (hc : Derives nearest (.call callee) ts) (hl : left.kind = .leftParen)
      (ha : Derives nearest (.arguments args) us) (hm : args.length ≤ maxArity)
      (hr : right.kind = .rightParen) :
      Derives nearest (.call (.call callee right args)) (ts ++ left :: (us ++ [right]))
  | property {object : Expr} {dot name : Token} {ts : List Token}
      (ho : Derives nearest (.call object) ts) (hd : dot.kind = .dot)
      (hn : name.kind = .identifier) :
      Derives nearest (.call (.get object name)) (ts ++ [dot, name])
  | noArguments : Derives nearest (.arguments []) []
  | someArguments {es : List Expr} {ts : List Token} (h : Derives nearest (.items es) ts) :
      Derives nearest (.arguments es) ts
  -- primary
  | falseLiteral {t : Token} (h : t.kind = .false) :
      Derives nearest (.primary (.literal (.bool false))) [t]
  | trueLiteral {t : Token} (h : t.kind = .true) :
      Derives nearest (.primary (.literal (.bool true))) [t]
  | nilLiteral {t : Token} (h : t.kind = .nil) :
      Derives nearest (.primary (.literal .nil)) [t]
  | literal {t : Token} (h : t.kind ∈ [TokenKind.number, .string]) :
      Derives nearest (.primary (.literal t.literal.value)) [t]
  | this {t : Token} (h : t.kind = .this) : Derives nearest (.primary (.this t none)) [t]
  | name {t : Token} (h : t.kind = .identifier) :
      Derives nearest (.primary (.variable t none)) [t]
  | group {e : Expr} {left right : Token} {ts : List Token} (hl : left.kind = .leftParen)
      (h : Derives nearest (.expression e) ts) (hr : right.kind = .rightParen) :
      Derives nearest (.primary (.group e)) (left :: (ts ++ [right]))
  | lambda {keyword left right opening closing : Token} {params ps ts : List Token}
      {body : List Stmt} (hk : keyword.kind = .fun) (hl : left.kind = .leftParen)
      (hp : Parameters params ps) (hr : right.kind = .rightParen)
      (ho : opening.kind = .leftBrace) (h : Derives nearest (.declarations body) ts)
      (hc : closing.kind = .rightBrace) :
      Derives nearest (.primary (.lambda keyword params body))
        (keyword :: left :: (ps ++ right :: opening :: (ts ++ [closing])))
  -- expression?
  | absent : Derives nearest (.optional none) []
  | present {e : Expr} {ts : List Token} (h : Derives nearest (.expression e) ts) :
      Derives nearest (.optional (some e)) ts
  -- IDENTIFIER ( "=" expression )? ";"
  | plainVariable {name semicolon : Token} (hn : name.kind = .identifier)
      (hs : semicolon.kind = .semicolon) :
      Derives nearest (.variable (.var name none)) [name, semicolon]
  | initializedVariable {name equal semicolon : Token} {e : Expr} {ts : List Token}
      (hn : name.kind = .identifier) (he : equal.kind = .equal)
      (h : Derives nearest (.expression e) ts) (hs : semicolon.kind = .semicolon) :
      Derives nearest (.variable (.var name (some e))) (name :: equal :: (ts ++ [semicolon]))
  -- the initializer of a for loop
  | noInitializer {semicolon : Token} (hs : semicolon.kind = .semicolon) :
      Derives nearest (.initializer none) [semicolon]
  | variableInitializer {keyword : Token} {s : Stmt} {ts : List Token}
      (hk : keyword.kind = .var) (h : Derives nearest (.variable s) ts) :
      Derives nearest (.initializer (some s)) (keyword :: ts)
  | expressionInitializer {e : Expr} {semicolon : Token} {ts : List Token}
      (h : Derives nearest (.expression e) ts) (hs : semicolon.kind = .semicolon) :
      Derives nearest (.initializer (some (.expression e))) (ts ++ [semicolon])
  -- function ::= IDENTIFIER "(" parameters? ")" "{" declaration* "}"
  | function {name left right opening closing : Token} {params ps ts : List Token}
      {body : List Stmt} (hn : name.kind = .identifier) (hl : left.kind = .leftParen)
      (hp : Parameters params ps) (hr : right.kind = .rightParen)
      (ho : opening.kind = .leftBrace) (h : Derives nearest (.declarations body) ts)
      (hc : closing.kind = .rightBrace) :
      Derives nearest (.function (.mk name params body))
        (name :: left :: (ps ++ right :: opening :: (ts ++ [closing])))
  | noFunctions : Derives nearest (.functions []) []
  | moreFunctions {f : FunctionDecl} {fs : List FunctionDecl} {ts us : List Token}
      (h : Derives nearest (.function f) ts) (hs : Derives nearest (.functions fs) us) :
      Derives nearest (.functions (f :: fs)) (ts ++ us)
  -- statement
  | expressionStatement {e : Expr} {semicolon : Token} {ts : List Token}
      (h : Derives nearest (.expression e) ts) (hs : semicolon.kind = .semicolon) :
      Derives nearest (.statement false (.expression e)) (ts ++ [semicolon])
  | print {e : Expr} {keyword semicolon : Token} {ts : List Token}
      (hk : keyword.kind = .print) (h : Derives nearest (.expression e) ts)
      (hs : semicolon.kind = .semicolon) :
      Derives nearest (.statement false (.print e)) (keyword :: (ts ++ [semicolon]))
  | «return» {value : Option Expr} {keyword semicolon : Token} {ts : List Token}
      (hk : keyword.kind = .return) (h : Derives nearest (.optional value) ts)
      (hs : semicolon.kind = .semicolon) :
      Derives nearest (.statement false (.return keyword value))
        (keyword :: (ts ++ [semicolon]))
  | block {ss : List Stmt} {opening closing : Token} {ts : List Token}
      (ho : opening.kind = .leftBrace) (h : Derives nearest (.declarations ss) ts)
      (hc : closing.kind = .rightBrace) :
      Derives nearest (.statement false (.block ss)) (opening :: (ts ++ [closing]))
  | «while» {c : Expr} {body : Stmt} {d : Bool} {keyword left right : Token}
      {ts us : List Token} (hk : keyword.kind = .while) (hl : left.kind = .leftParen)
      (hc : Derives nearest (.expression c) ts) (hr : right.kind = .rightParen)
      (hb : Derives nearest (.statement d body) us) :
      Derives nearest (.statement d (.loop c body))
        (keyword :: left :: (ts ++ right :: us))
  | «for» {first : Option Stmt} {condition step : Option Expr} {body : Stmt} {d : Bool}
      {keyword left semicolon right : Token} {ts us vs ws : List Token}
      (hk : keyword.kind = .for) (hl : left.kind = .leftParen)
      (hf : Derives nearest (.initializer first) ts)
      (hc : Derives nearest (.optional condition) us) (hs : semicolon.kind = .semicolon)
      (hi : Derives nearest (.optional step) vs) (hr : right.kind = .rightParen)
      (hb : Derives nearest (.statement d body) ws) :
      Derives nearest
        (.statement d (forTree first (condition.getD (.literal (.bool true))) step body))
        (keyword :: left :: (ts ++ (us ++ semicolon :: (vs ++ right :: ws))))
  | ifOnly {c : Expr} {a : Stmt} {d : Bool} {keyword left right : Token} {ts us : List Token}
      (hk : keyword.kind = .if) (hl : left.kind = .leftParen)
      (hc : Derives nearest (.expression c) ts) (hr : right.kind = .rightParen)
      (ha : Derives nearest (.statement d a) us) :
      Derives nearest (.statement true (.branch c a none))
        (keyword :: left :: (ts ++ right :: us))
  | ifElse {c : Expr} {a b : Stmt} {d d' : Bool} {keyword left right other : Token}
      {ts us vs : List Token} (hk : keyword.kind = .if) (hl : left.kind = .leftParen)
      (hc : Derives nearest (.expression c) ts) (hr : right.kind = .rightParen)
      (ha : Derives nearest (.statement d a) us) (hd : nearest = true → d = false)
      (he : other.kind = .else) (hb : Derives nearest (.statement d' b) vs) :
      Derives nearest (.statement d' (.branch c a (some b)))
        (keyword :: left :: (ts ++ right :: (us ++ other :: vs)))
  -- declaration
  | «class» {name keyword opening closing : Token} {methods : List FunctionDecl}
      {ts : List Token} (hk : keyword.kind = .class) (hn : name.kind = .identifier)
      (ho : opening.kind = .leftBrace) (h : Derives nearest (.functions methods) ts)
      (hc : closing.kind = .rightBrace) :
      Derives nearest (.declaration false (.class name methods))
        (keyword :: name :: opening :: (ts ++ [closing]))
  | functionDeclaration {keyword : Token} {f : FunctionDecl} {ts : List Token}
      (hk : keyword.kind = .fun) (h : Derives nearest (.function f) ts) :
      Derives nearest (.declaration false (.function f)) (keyword :: ts)
  | variableDeclaration {keyword : Token} {s : Stmt} {ts : List Token}
      (hk : keyword.kind = .var) (h : Derives nearest (.variable s) ts) :
      Derives nearest (.declaration false s) (keyword :: ts)
  | statementDeclaration {d : Bool} {s : Stmt} {ts : List Token}
      (h : Derives nearest (.statement d s) ts) : Derives nearest (.declaration d s) ts
  -- program ::= declaration*
  | noDeclarations : Derives nearest (.declarations []) []
  | moreDeclarations {d : Bool} {s : Stmt} {ss : List Stmt} {ts us : List Token}
      (h : Derives nearest (.declaration d s) ts) (hs : Derives nearest (.declarations ss) us) :
      Derives nearest (.declarations (s :: ss)) (ts ++ us)

end ScopedScript

import ScopedScript.Number.Text
import ScopedScript.Text.Blank

/-!
# Tokens

The words of the language.  A token has a kind, the text it was read from, the
value of a literal, and the line on which it ends.

## Main definitions

* `TokenKind`: the kinds, with their display names.
* `Token`: a token.  `Token.text` is its one-line display.
* `keyword?`: the kind of a reserved word.
-/

namespace ScopedScript

/-- **The kinds of tokens.**  The kind `eof` ends a token list early where one is given
by hand; reading source text never yields it. -/
inductive TokenKind where
  | leftParen | rightParen | leftBrace | rightBrace | comma | dot | minus | plus
  | semicolon | slash | star | question | colon
  | bang | bangEqual | equal | equalEqual | greater | greaterEqual | less | lessEqual
  | identifier | string | number
  | and | or | true | false | if | else | var | fun | return | «class» | this | super
  | while | for | print | nil | eof
deriving DecidableEq

namespace TokenKind

/-- The display name of a kind. -/
def name : TokenKind → String
  | .leftParen => "LEFT_PAREN" | .rightParen => "RIGHT_PAREN" | .leftBrace => "LEFT_BRACE"
  | .rightBrace => "RIGHT_BRACE" | .comma => "COMMA" | .dot => "DOT" | .minus => "MINUS"
  | .plus => "PLUS" | .semicolon => "SEMICOLON" | .slash => "SLASH" | .star => "STAR"
  | .question => "QUESTION" | .colon => "COLON" | .bang => "BANG" | .bangEqual => "BANG_EQUAL"
  | .equal => "EQUAL" | .equalEqual => "EQUAL_EQUAL" | .greater => "GREATER"
  | .greaterEqual => "GREATER_EQUAL" | .less => "LESS" | .lessEqual => "LESS_EQUAL"
  | .identifier => "IDENTIFIER" | .string => "STRING" | .number => "NUMBER" | .and => "AND"
  | .or => "OR" | .true => "TRUE" | .false => "FALSE" | .if => "IF" | .else => "ELSE"
  | .var => "VAR" | .fun => "FUN" | .return => "RETURN" | .class => "CLASS" | .this => "THIS"
  | .super => "SUPER" | .while => "WHILE" | .for => "FOR" | .print => "PRINT" | .nil => "NIL"
  | .eof => "EOF"

/-- Every kind once. -/
def all : List TokenKind :=
  [.leftParen, .rightParen, .leftBrace, .rightBrace, .comma, .dot, .minus, .plus, .semicolon,
    .slash, .star, .question, .colon, .bang, .bangEqual, .equal, .equalEqual, .greater,
    .greaterEqual, .less, .lessEqual, .identifier, .string, .number, .and, .or, .true, .false,
    .if, .else, .var, .fun, .return, .class, .this, .super, .while, .for, .print, .nil, .eof]

/-- The kind with a display name. -/
def ofName? (name : String) : Option TokenKind := all.find? (·.name == name)

theorem mem_all (kind : TokenKind) : kind ∈ all := by cases kind <;> decide

end TokenKind

/-- The reserved words with their kinds. -/
def keywords : List (String × TokenKind) :=
  [("and", .and), ("class", .class), ("else", .else), ("false", .false), ("for", .for),
    ("fun", .fun), ("if", .if), ("nil", .nil), ("or", .or), ("print", .print),
    ("return", .return), ("super", .super), ("this", .this), ("true", .true), ("var", .var),
    ("while", .while)]

/-- The kind of a reserved word. -/
def keyword? (word : String) : Option TokenKind := keywords.lookup word

/-- The value that a token stands for by itself, if it is a literal. -/
inductive Literal where
  | absent
  | number (value : Float)
  | string (value : String)
deriving DecidableEq

/-- How a literal is shown: an absent one as nothing. -/
def Literal.text : Literal → String
  | .absent => ""
  | .number value => Number.text value
  | .string value => value

/-- **A token**: its kind, the text it was read from, its literal, and the line on which
it ends. -/
structure Token where
  kind : TokenKind
  lexeme : String
  literal : Literal
  line : Int
deriving DecidableEq

namespace Token

/-- The identifier `name`, for names that are not read from a source. -/
def ident (name : String) (line : Int) : Token := ⟨.identifier, name, .absent, line⟩

/-- The display of a token: its kind, its lexeme and its literal, without blanks at the
end. -/
def text (token : Token) : String :=
  Text.trimEnd (token.kind.name ++ " " ++ token.lexeme ++ " " ++ token.literal.text)

end Token

end ScopedScript

import Gateware.Position

/- Tokens. A token is its text and the place where it stands; its kind is a
   function of the text alone, so no token can carry a kind that its text does
   not have. -/
namespace Gateware

/-- The kinds of token that the grammar tells apart. -/
inductive Token.Kind where
  | endOfStatement
  | identifier
  | literal
  | direction
  | storage
  | ifWord
  | elseWord
  | switchWord
  | defaultWord
  | leftParen
  | rightParen
  | leftBrace
  | rightBrace
  | leftBracket
  | rightBracket
  | atMark
  | bang
  | comma
  | colon
  | arithmetic
  | assign
  | comparison
  | unknown
  deriving DecidableEq, Repr

namespace Token.Kind

/-- The kind of a text that is no keyword and no symbol: its first character
decides. -/
def ofFirst : List Char → Kind
  | [] => .unknown
  | c :: _ =>
    if c.isAlpha || c == '_' then .identifier
    else if c.isDigit then .literal
    else .unknown

/-- The kind of a text: keywords and symbols first, then the first
character. -/
def ofText (text : String) : Kind :=
  match text with
  | "in" | "out" | "inout" => .direction
  | "wire" | "reg" => .storage
  | "if" => .ifWord
  | "else" => .elseWord
  | "switch" => .switchWord
  | "default" => .defaultWord
  | ";" => .endOfStatement
  | "(" => .leftParen
  | ")" => .rightParen
  | "\x7b" => .leftBrace
  | "\x7d" => .rightBrace
  | "[" => .leftBracket
  | "]" => .rightBracket
  | "@" => .atMark
  | "!" => .bang
  | "," => .comma
  | ":" => .colon
  | "+" | "-" | "*" | "/" | "<<" | ">>" => .arithmetic
  | "=" | "<-" => .assign
  | "==" | ">=" | "<=" | ">" | "<" => .comparison
  | other => ofFirst other.toList

/-- Whether tokens of this kind join two operands of an expression. -/
def isOperator : Kind → Bool
  | .arithmetic | .comparison => true
  | _ => false

def label : Kind → String
  | .endOfStatement => "EndOfStatement"
  | .identifier => "Identifier"
  | .literal => "Literal"
  | .direction => "Direction"
  | .storage => "Storage"
  | .ifWord => "If"
  | .elseWord => "Else"
  | .switchWord => "Switch"
  | .defaultWord => "Default"
  | .leftParen => "LParen"
  | .rightParen => "RParen"
  | .leftBrace => "LBrace"
  | .rightBrace => "RBrace"
  | .leftBracket => "LBracket"
  | .rightBracket => "RBracket"
  | .atMark => "AtMark"
  | .bang => "Bang"
  | .comma => "Comma"
  | .colon => "Colon"
  | .arithmetic => "Math"
  | .assign => "Assign"
  | .comparison => "Compare"
  | .unknown => "Unknown"

/-- The wording of a kind in an error message. -/
def describe : Kind → String
  | .endOfStatement => "';'"
  | .identifier => "identifier"
  | .literal => "literal"
  | .direction => "direction (in/out/inout)"
  | .storage => "storage class (wire/reg)"
  | .ifWord => "'if'"
  | .elseWord => "'else'"
  | .switchWord => "'switch'"
  | .defaultWord => "'default'"
  | .leftParen => "'('"
  | .rightParen => "')'"
  | .leftBrace => "'\x7b'"
  | .rightBrace => "'\x7d'"
  | .leftBracket => "'['"
  | .rightBracket => "']'"
  | .atMark => "'@'"
  | .bang => "'!'"
  | .comma => "','"
  | .colon => "':'"
  | .arithmetic => "arithmetic operator"
  | .assign => "assignment ('=' or '<-')"
  | .comparison => "comparison operator"
  | .unknown => "unknown token"

end Token.Kind

/-- A piece of source text and the position of its first character. -/
structure Token where
  text : String
  pos : Position
  deriving DecidableEq, Repr

namespace Token

def kind (t : Token) : Kind :=
  Kind.ofText t.text

/-- The form used in messages: the quoted text and its place. -/
def render (t : Token) : String :=
  s!"`{t.text}` at {t.pos.render}"

end Token

end Gateware

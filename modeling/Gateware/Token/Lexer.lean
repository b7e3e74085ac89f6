import Gateware.Text.Blank
import Gateware.Token

/- Splitting a text into tokens. Between tokens stand gaps of blanks and line
   comments. A token takes one character and then grows while its last
   character and the next one belong together (`continues`), so every token is
   as long as it can be. Each call of `Lexer.next?` reads one gap and one token;
   `Lexer.tokens` reads all of them and the position where the text ends. -/
namespace Gateware

/-- A character of identifiers, keywords and literals. -/
def isWordChar (c : Char) : Bool :=
  c.isAlphanum || c == '_'

/-- A character of comparisons, shifts and assignments. -/
def isRelationChar (c : Char) : Bool :=
  c == '<' || c == '=' || c == '>'

/-- Whether `next` extends a token whose last character is `last`. -/
def continues (last next : Char) : Bool :=
  (isWordChar last && isWordChar next) || (isRelationChar last && isRelationChar next) ||
    (last == '<' && next == '-')

/-- The part of a text that is still to be read, and where it begins. -/
structure Lexer where
  pos : Position
  rest : List Char
  deriving DecidableEq, Repr

namespace Lexer

def ofSource (source : String) : Lexer :=
  ⟨Position.start, source.toList⟩

/-- Leaves out blanks and comments. A comment starts at two slashes and runs up
to the end of its line; `inComment` says whether one is open. -/
def skipGap (inComment : Bool) (pos : Position) : List Char → Lexer
  | [] => ⟨pos, []⟩
  | c :: cs =>
    if inComment then skipGap (c != '\n') (pos.advance c) cs
    else if Text.isBlank c then skipGap false (pos.advance c) cs
    else if c == '/' && cs.head? == some '/' then skipGap true (pos.advance c) cs
    else ⟨pos, c :: cs⟩

/-- The lexer at its next token, or at the end of the text. -/
def skip (l : Lexer) : Lexer :=
  skipGap false l.pos l.rest

/-- Lets a token grow. `taken` holds its characters so far, the latest first,
and `last` is the latest one. -/
def grow (taken : List Char) (last : Char) (pos : Position) : List Char → List Char × Lexer
  | [] => (taken.reverse, ⟨pos, []⟩)
  | c :: cs =>
    if continues last c then grow (c :: taken) c (pos.advance c) cs
    else (taken.reverse, ⟨pos, c :: cs⟩)

/-- The next token and what follows it, or nothing if only a gap is left. -/
def next? (l : Lexer) : Option (Token × Lexer) :=
  match l.skip with
  | ⟨_, []⟩ => none
  | ⟨pos, c :: cs⟩ =>
    let (text, after) := grow [c] c (pos.advance c) cs
    some (⟨String.ofList text, pos⟩, after)

/-- Where the text ends if no token is left: the position after the last gap. -/
def stop (l : Lexer) : Position :=
  l.skip.pos

/-- Reads at most `limit` tokens, onto those already `read`, the latest first. -/
def collect : Nat → List Token → Lexer → List Token × Position
  | 0, read, l => (read.reverse, l.stop)
  | limit + 1, read, l =>
    match l.next? with
    | none => (read.reverse, l.stop)
    | some (token, after) => collect limit (token :: read) after

/-- All tokens, and the position where the text ends. Every token takes a
character, so the number of characters bounds the number of tokens. -/
def tokens (l : Lexer) : List Token × Position :=
  collect l.rest.length [] l

end Lexer

end Gateware

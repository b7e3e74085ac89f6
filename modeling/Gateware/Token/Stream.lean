import Gateware.Token.Lexer

/- A stream of tokens with one token of look-ahead. Looking at the next token
   reads it from the text and keeps it; taking it empties the place again. Once
   the text is used up every request for a token fails at the same position. -/
namespace Gateware

/-- A token was asked for where the text has ended. -/
structure EndOfInput where
  pos : Position
  deriving DecidableEq, Repr

def EndOfInput.message (e : EndOfInput) : String :=
  s!"unexpected end of input at {e.pos.render}"

/-- A lexer and the token that has been looked at but not taken. -/
structure TokenStream where
  lexer : Lexer
  ahead : Option Token
  deriving DecidableEq, Repr

namespace TokenStream

def ofSource (source : String) : TokenStream :=
  ⟨Lexer.ofSource source, none⟩

/-- Reads the next token into the look-ahead place, if it is empty and a token
is left. -/
def fill (s : TokenStream) : TokenStream :=
  match s.ahead with
  | some _ => s
  | none =>
    match s.lexer.next? with
    | some (token, after) => ⟨after, some token⟩
    | none => ⟨s.lexer.skip, none⟩

/-- The next token, which stays in the stream. -/
def peek (s : TokenStream) : Except EndOfInput Token × TokenStream :=
  let s := s.fill
  match s.ahead with
  | some token => (.ok token, s)
  | none => (.error ⟨s.lexer.pos⟩, s)

/-- The next token, which leaves the stream. -/
def next (s : TokenStream) : Except EndOfInput Token × TokenStream :=
  let s := s.fill
  match s.ahead with
  | some token => (.ok token, { s with ahead := none })
  | none => (.error ⟨s.lexer.pos⟩, s)

def hasMore (s : TokenStream) : Bool × TokenStream :=
  let s := s.fill
  (s.ahead.isSome, s)

inductive Request where
  | peek
  | next
  | hasMore
  deriving DecidableEq, Repr

inductive Answer where
  | token (result : Except EndOfInput Token)
  | more (left : Bool)

def serve (s : TokenStream) : Request → Answer × TokenStream
  | .peek => let (result, s) := s.peek; (.token result, s)
  | .next => let (result, s) := s.next; (.token result, s)
  | .hasMore => let (left, s) := s.hasMore; (.more left, s)

def serveAll (s : TokenStream) : List Request → List Answer
  | [] => []
  | r :: rs => let (answer, s) := s.serve r; answer :: serveAll s rs

end TokenStream

end Gateware

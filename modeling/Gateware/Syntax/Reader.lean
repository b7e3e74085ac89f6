import Gateware.Syntax.Error

/- Reading from a queue of tokens. A `Reader` takes tokens from the front of the
   queue and gives a value or the first error; the queue also knows where the
   text ends, because that is where a reader that runs out of tokens fails. -/
namespace Gateware

/-- The tokens that are still to be read, and the position where they end. -/
structure TokenQueue where
  pending : List Token
  stop : Position
  deriving DecidableEq, Repr

def TokenQueue.ofSource (source : String) : TokenQueue :=
  let (pending, stop) := (Lexer.ofSource source).tokens
  ⟨pending, stop⟩

/-- A step that reads from a token queue. -/
abbrev Reader := StateT TokenQueue (Except SyntaxError)

namespace Reader

def fail {α : Type} (e : SyntaxError) : Reader α :=
  fun _ => .error e

/-- The next token, which stays in the queue. -/
def peek : Reader Token := fun q =>
  match q.pending with
  | [] => .error (.endOfInput ⟨q.stop⟩)
  | token :: _ => .ok (token, q)

/-- The next token, which leaves the queue. -/
def next : Reader Token := fun q =>
  match q.pending with
  | [] => .error (.endOfInput ⟨q.stop⟩)
  | token :: rest => .ok (token, ⟨rest, q.stop⟩)

def pending : Reader (List Token) := fun q =>
  .ok (q.pending, q)

def nextIs (kind : Token.Kind) : Reader Bool := do
  return (← peek).kind == kind

/-- Takes the next token if it has the given kind. -/
def accept (kind : Token.Kind) : Reader (Option Token) := do
  if ← nextIs kind then return some (← next) else return none

/-- Fails at the next token. -/
def refuse {α : Type} (construct : Construct) (expected : List Token.Kind) : Reader α := do
  fail (.unexpected construct (← next) expected)

/-- Takes the next token, which has to have the given kind. -/
def expect (kind : Token.Kind) (construct : Construct) : Reader Token := do
  let token ← next
  if token.kind = kind then return token
  else fail (.unexpected construct token [kind])

end Reader

end Gateware

import Gateware.Syntax.Stmt

/- Reading modules. A source text is a list of modules; reading stops at the
   first error and keeps the modules that were complete before it. -/
namespace Gateware

namespace Reader

/-- Reads ports separated by commas, up to the closing parenthesis. Each of them
takes a token, so there are no more rounds than tokens in `budget`; the ports
`read` so far come latest first. -/
def portsUntilParen : (budget : List Token) → (read : List Port) → Reader (List Port)
  | budget, read => do
    let read := (← port) :: read
    let token ← next
    match token.kind with
    | .rightParen => return read.reverse
    | .comma =>
      match budget with
      | [] => refuse .port [.direction]
      | _ :: budget => portsUntilParen budget read
    | _ => fail (.unexpected .portList token [.comma, .rightParen])

/-- Reads the ports of a module, in parentheses. -/
def ports : Reader (List Port) := do
  let _ ← expect .leftParen .portList
  match ← accept .rightParen with
  | some _ => return []
  | none => portsUntilParen (← pending) []

/-- Reads a module: its name, its ports and its body. -/
def module : Reader Module := do
  let name ← ident .moduleName
  let ports ← ports
  let body ← block (stmt maxNesting)
  return ⟨name, ports, body⟩

end Reader

/-- What was read from a source text: the modules that are complete, and the
error that stopped the reading, if there was one. -/
structure Reading where
  modules : List Module
  failure : Option SyntaxError

namespace Reading

/-- Reads modules until the queue is empty. Each of them takes a token, so there
are no more rounds than tokens in `budget`; the modules `read` so far come latest
first. -/
def ofQueue : (budget : List Token) → (read : List Module) → TokenQueue → Reading
  | _, read, ⟨[], _⟩ => ⟨read.reverse, none⟩
  | [], read, ⟨_ :: _, stop⟩ => ⟨read.reverse, some (.endOfInput ⟨stop⟩)⟩
  | _ :: budget, read, queue =>
    match Reader.module queue with
    | .error e => ⟨read.reverse, some e⟩
    | .ok (m, queue) => ofQueue budget (m :: read) queue

def ofSource (source : String) : Reading :=
  let queue := TokenQueue.ofSource source
  ofQueue queue.pending [] queue

/-- The modules, or the error that stopped the reading. -/
def result (r : Reading) : Except SyntaxError (List Module) :=
  match r.failure with
  | none => .ok r.modules
  | some e => .error e

end Reading

/-- The modules of a source text. -/
def parse (source : String) : Except SyntaxError (List Module) :=
  (Reading.ofSource source).result

end Gateware

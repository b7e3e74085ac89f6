import Gateware.Event
import Gateware.Syntax.Module

/- The journal of a reading: which tokens were taken from the text, and what was
   finished after each of them. A token is taken when the reader first looks at
   it, so an expression is finished after the token that follows it, and a module
   after its closing brace. Every expression stands after an `if` or after the
   symbol of an assignment, and no expression holds either of them. -/
namespace Gateware

namespace Journal

/-- The expression that begins after a token, if one does: the token that follows
it and the event that it was read. -/
def expressionAfter? (stop : Position) (token : Token) (rest : List Token) :
    Option (Token × Event) :=
  if token.kind = .ifWord ∨ token.kind = .assign then
    match Rpn.scan stop true 0 [] [] rest with
    | .ok (items, follow :: _) => some (follow, .reordered (items.map Rpn.token))
    | _ => none
  else none

/-- Where a module ends, and the event that it was read. -/
def moduleEnd (m : Module) : Position × Event :=
  (m.body.stop, .readModule m.name.name m.ports.length m.body.stmts.length)

/-- Goes through the tokens. Reading failed at the token at `failed`, if at all:
the tokens before it were accepted, and those after it were taken only as part of
an expression that was finished. `open?` is that expression, `ends` tells where
modules end, and `events` are the events so far, the latest first. -/
def walk (stop : Position) (failed : Option Position) :
    (open? : Option (Token × Event)) → (ends : List (Position × Event)) → (events : List Event) →
    List Token → List Event
  | _, _, events, [] => events.reverse
  | open?, ends, events, token :: rest =>
    let beyond := failed.any (· < token.pos)
    if beyond && open?.isNone then events.reverse
    else
      let events := .lexed token :: events
      let (open?, events) := match open? with
        | some (follow, event) => if follow = token then (none, event :: events) else (open?, events)
        | none => (none, events)
      let (ends, events) := match ends with
        | (pos, event) :: later => if pos = token.pos then (later, event :: events) else (ends, events)
        | [] => ([], events)
      let accepted := failed.all (token.pos < ·)
      let open? := match open? with
        | some finished => some finished
        | none => if accepted then expressionAfter? stop token rest else none
      walk stop failed open? ends events rest

/-- The position of the token at which reading failed. A text that ends too early
fails at no token. -/
def failedAt : Option SyntaxError → Option Position
  | none | some (.endOfInput _) => none
  | some e => some e.position

end Journal

/-- The events of reading the source text of a file. -/
def Reading.journal (file source : String) : List Event :=
  let queue := TokenQueue.ofSource source
  let reading := Reading.ofSource source
  .reading file ::
    Journal.walk queue.stop (Journal.failedAt reading.failure) none
      (reading.modules.map Journal.moduleEnd) [] queue.pending

end Gateware

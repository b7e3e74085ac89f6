import Gateware.Event

/- The log as text. Every event is one line: the severity, the component and the
   message. Components line up with the widest one that the log has shown up to
   there. -/
namespace Gateware.Log

/-- A text filled up with blanks to a width. -/
def padded (width : Nat) (text : String) : String :=
  text ++ String.ofList (List.replicate (width - text.length) ' ')

/-- The line of an event, with components as wide as `width`. -/
def line (width : Nat) (e : Event) : String :=
  s!" {padded 5 e.severity.label} {padded width e.component.label} > {e.message}\n"

/-- Writes the lines of events after a text; `width` is that of the widest
component so far. -/
def write (width : Nat) (out : String) : List Event → String
  | [] => out
  | e :: es =>
    let width := max width e.component.label.length
    write width (out ++ line width e) es

def render (verbosity : Verbosity) (events : List Event) : String :=
  write 0 "" (events.filter fun e => verbosity.shows e.severity)

end Gateware.Log

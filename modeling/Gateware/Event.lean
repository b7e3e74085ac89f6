import Gateware.Expr
import Gateware.Token

/- Events: what the stages report while they work. An event has a severity, a
   component that reports it and a message; a verbosity selects the events that
   are shown. -/
namespace Gateware

/-- How much an event matters. -/
inductive Severity where
  | info
  | debug
  | trace
  deriving DecidableEq, Repr

def Severity.label : Severity → String
  | .info => "INFO"
  | .debug => "DEBUG"
  | .trace => "TRACE"

/-- How much of a log is shown. -/
inductive Verbosity where
  | off
  | error
  | warn
  | info
  | debug
  | trace
  deriving DecidableEq, Repr

/-- Whether events of a severity are shown. -/
def Verbosity.shows : Verbosity → Severity → Bool
  | .off, _ | .error, _ | .warn, _ => false
  | .info, severity => severity == .info
  | .debug, severity => severity != .trace
  | .trace, _ => true

inductive Component where
  | lexer
  | expression
  | reader
  | scope
  | lowering
  | command
  deriving DecidableEq, Repr

def Component.label : Component → String
  | .lexer => "chrono_parse::lexer"
  | .expression => "chrono_parse::expr"
  | .reader => "chrono_parse::parser"
  | .scope => "chrono_verilog::scope"
  | .lowering => "chrono_verilog::emit"
  | .command => "chrono_cli"

/-- Something that a stage has done. -/
inductive Event where
  /-- A source text with the given name is going to be read. -/
  | reading (file : String)
  /-- A token was taken from the text. -/
  | lexed (token : Token)
  /-- An expression was put into reverse Polish order. -/
  | reordered (tokens : List Token)
  /-- A module is complete. -/
  | readModule (name : String) (ports stmts : Nat)
  /-- A module is going to be lowered. -/
  | loweringModule (name : String) (ports : Nat)
  /-- A signal gets another name than its own. -/
  | renamed (id : Ident) (emitted : String)
  /-- A frame was opened; `depth` counts the frames after it. -/
  | entered (depth : Nat)
  /-- A frame was left; `depth` counts the frames after it. -/
  | exited (depth : Nat)
  /-- A signal was bound in the innermost frame. -/
  | declared (name emitted : String) (width : Nat)
  /-- The output file is complete. -/
  | wrote (modules : Nat) (path : String)
  deriving DecidableEq, Repr

namespace Event

/-- How much an event matters. -/
def severity : Event → Severity
  | .reading _ | .readModule .. | .loweringModule .. | .renamed .. => .debug
  | .lexed _ | .reordered _ | .entered _ | .exited _ | .declared .. => .trace
  | .wrote .. => .info

def component : Event → Component
  | .reading _ | .readModule .. => .reader
  | .lexed _ => .lexer
  | .reordered _ => .expression
  | .loweringModule .. | .renamed .. => .lowering
  | .entered _ | .exited _ | .declared .. => .scope
  | .wrote .. => .command

def message : Event → String
  | .reading file => s!"parsing {file}"
  | .lexed token => s!"lexed {token.kind.label} {token.render}"
  | .reordered tokens => "postfix: " ++ String.intercalate " " (tokens.map (·.text))
  | .readModule name ports stmts =>
    s!"parsed module `{name}` ({ports} parameters, {stmts} statements)"
  | .loweringModule name ports => s!"emitting module `{name}` ({ports} ports)"
  | .renamed id emitted => s!"'{id.name}' at {id.pos.render} emitted as '{emitted}'"
  | .entered depth => s!"enter scope (depth {depth})"
  | .exited depth => s!"exit scope (depth {depth})"
  | .declared name emitted width => s!"declare '{name}' as '{emitted}' (width {width})"
  | .wrote modules path => s!"wrote {modules} module(s) to {path}"

end Event

end Gateware

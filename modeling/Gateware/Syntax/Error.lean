import Gateware.Token.Stream

/- What can be wrong with a source text. Each error is a cause; its wording is
   in `SyntaxError.message` alone. -/
namespace Gateware

/-- The construct that was being read when a token did not fit. -/
inductive Construct where
  | moduleName
  | portList
  | port
  | bitWidth
  | clock
  | block
  | statement
  | assignment
  | conditional
  | alternative
  | declaration
  | expression
  | group
  deriving DecidableEq, Repr

def Construct.describe : Construct → String
  | .moduleName => "module name"
  | .portList => "module parameter list"
  | .port => "module parameter"
  | .bitWidth => "bit width"
  | .clock => "clock"
  | .block => "block"
  | .statement => "statement"
  | .assignment => "assignment"
  | .conditional => "if statement"
  | .alternative => "else branch"
  | .declaration => "signal declaration"
  | .expression => "expression"
  | .group => "parenthesized expression"

inductive SyntaxError where
  /-- The text ended inside a construct. -/
  | endOfInput (failure : EndOfInput)
  /-- A token that does not fit here; one of the `expected` kinds would. -/
  | unexpected (construct : Construct) (received : Token) (expected : List Token.Kind)
  /-- A bit width that is not a number below 2^32. -/
  | malformedWidth (token : Token)
  /-- A reverse Polish sequence that does not form a tree. -/
  | malformedExpression (pos : Position)
  /-- Statements or operators nested beyond the limit. -/
  | tooDeep (pos : Position)
  deriving DecidableEq, Repr

namespace SyntaxError

/-- Where the error is reported. -/
def position : SyntaxError → Position
  | .endOfInput e => e.pos
  | .unexpected _ received _ => received.pos
  | .malformedWidth token => token.pos
  | .malformedExpression pos => pos
  | .tooDeep pos => pos

def message : SyntaxError → String
  | .endOfInput e => e.message
  | .unexpected construct received expected =>
    let kinds := String.intercalate " or " (expected.map Token.Kind.describe)
    s!"error parsing {construct.describe}: received {received.render}, expected {kinds}"
  | .malformedWidth token =>
    s!"malformed bit width {token.render}: expected a non-negative integer"
  | .malformedExpression pos => s!"malformed expression at {pos.render}"
  | .tooDeep pos => s!"nesting depth limit exceeded at {pos.render}"

/-- The wording of the failure behind an error, where there is one. -/
def cause : SyntaxError → Option String
  | .endOfInput e => some e.message
  | _ => none

end SyntaxError

end Gateware

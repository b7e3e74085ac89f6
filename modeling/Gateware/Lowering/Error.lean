import Gateware.Expr

/- What can be wrong with a module that was read. Each error is a cause; its
   wording is in `LoweringError.message` alone. -/
namespace Gateware

/-- The parts of a syntax tree that have no counterpart in Verilog. -/
inductive Unsupported where
  | malformedStatement
  | expressionStatement
  | returnStatement
  | loopStatement
  | nestedSequence
  | valueDeclaration
  | strayPort
  | nestedModule
  | malformedExpression
  | nonArithmeticOperator
  deriving DecidableEq, Repr

def Unsupported.describe : Unsupported → String
  | .malformedStatement => "malformed statement"
  | .expressionStatement => "expression statement"
  | .returnStatement => "return statement"
  | .loopStatement => "loop statement"
  | .nestedSequence => "nested clocked sequence"
  | .valueDeclaration => "value declaration"
  | .strayPort => "parameter declaration outside a module header"
  | .nestedModule => "nested module"
  | .malformedExpression => "malformed expression"
  | .nonArithmeticOperator => "non-arithmetic operator"

inductive LoweringError where
  /-- A part of the tree without a counterpart. -/
  | unsupported (node : Unsupported) (pos : Position)
  /-- A name that no declaration in reach binds. -/
  | undeclared (id : Ident)
  /-- A second declaration of a name in the same frame. -/
  | duplicate (id : Ident) (first : Position)
  /-- A registered assignment to a signal without a clock. -/
  | missingClock (id : Ident)
  /-- A register where a wire is needed, or the other way round. -/
  | storageMismatch (id : Ident) (needsRegister : Bool)
  /-- A registered assignment where no clock edge triggers it. -/
  | registeredInCombinational (id : Ident)
  deriving DecidableEq, Repr

namespace LoweringError

/-- Where the error is reported. -/
def position : LoweringError → Position
  | .unsupported _ pos => pos
  | .undeclared id | .duplicate id _ | .missingClock id | .storageMismatch id _
  | .registeredInCombinational id => id.pos

def message : LoweringError → String
  | .unsupported node pos => s!"unsupported node at {pos.render}: {node.describe} cannot be emitted"
  | .undeclared id => s!"undeclared signal '{id.name}' at {id.pos.render}"
  | .duplicate id first =>
    s!"signal '{id.name}' at {id.pos.render} is already declared at {first.render}"
  | .missingClock id =>
    s!"registered assignment to '{id.name}' at {id.pos.render} but the signal has no clock"
  | .storageMismatch id true =>
    s!"'{id.name}' at {id.pos.render} is assigned inside an always block and must be declared reg"
  | .storageMismatch id false =>
    s!"'{id.name}' at {id.pos.render} is a reg and cannot be driven by a continuous assignment"
  | .registeredInCombinational id =>
    s!"registered assignment to '{id.name}' at {id.pos.render} outside a clocked sequence"

end LoweringError

end Gateware

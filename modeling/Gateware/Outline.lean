import Gateware.Stmt

/- An outline of a module: its parts in the order in which they begin, each with
   its position. Statements that hold an expression also show where it begins and
   whether it is computable. Statements that no source text contains are left
   out. -/
namespace Gateware

/-- The parts that an outline lists. -/
inductive Outline.Part where
  | module
  | assignment
  | conditional
  | block
  | sequence
  | register
  | wire
  | name
  deriving DecidableEq, Repr

/-- One line of an outline. -/
structure Outline.Entry where
  part : Outline.Part
  pos : Position
  value : Option (Position × Bool)
  deriving DecidableEq, Repr

namespace Outline

def Part.label : Part → String
  | .module => "Module"
  | .assignment => "Assign"
  | .conditional => "If"
  | .block => "Block"
  | .sequence => "Sequence"
  | .register => "Decl reg"
  | .wire => "Decl wire"
  | .name => "name"

def Entry.plain (part : Part) (pos : Position) : Entry :=
  ⟨part, pos, none⟩

def Entry.valued (part : Part) (pos : Position) (e : Expr) : Entry :=
  ⟨part, pos, some (e.position, e.isComputable)⟩

mutual

/-- The outline of a statement. -/
def ofStmt : Stmt → List Entry
  | .assign _ _ rhs pos => [.valued .assignment pos rhs]
  | .conditional cond body alternative pos =>
    .valued .conditional pos cond :: (ofStmt body ++ ofOption alternative)
  | .block ⟨stmts, start, _⟩ => .plain .block start :: ofStmts stmts
  | .sequence _ inner pos => .plain .sequence pos :: ofStmt inner
  | .decl (.signal s) pos =>
    [.plain (if s.isRegister then .register else .wire) pos, .plain .name s.name.pos]
  | .decl (.value _) _ | .decl (.port _) _ | .decl (.submodule _) _ => []
  | .malformed _ | .expr .. | .result .. | .loop .. => []

def ofOption : Option Stmt → List Entry
  | none => []
  | some s => ofStmt s

def ofStmts : List Stmt → List Entry
  | [] => []
  | s :: ss => ofStmt s ++ ofStmts ss

end

/-- The outline of a module. Its body has no entry of its own. -/
def ofModule (m : Module) : List Entry :=
  .plain .module m.position :: ofStmts m.body.stmts

end Outline

end Gateware

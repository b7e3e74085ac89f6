import Gateware.Operator
import Gateware.Position

/- Expressions of the source language. The reader makes identifiers, literals
   and binary expressions; the other forms can be put into a tree by hand. -/
namespace Gateware

/-- A name and where it stands. -/
structure Ident where
  name : String
  pos : Position
  deriving DecidableEq, Repr

/-- A number as it is written, and where it stands. -/
structure Literal where
  value : String
  pos : Position
  deriving DecidableEq, Repr

inductive Expr where
  | malformed (pos : Position)
  | ident (id : Ident)
  | literal (lit : Literal)
  | paren (inner : Expr) (start stop : Position)
  | call (func : Ident) (args : List Expr) (pos : Position)
  | binary (op : Operator) (lhs rhs : Expr) (pos : Position)
  deriving Repr

namespace Expr

def position : Expr → Position
  | .malformed pos => pos
  | .ident id => id.pos
  | .literal lit => lit.pos
  | .paren _ start _ => start
  | .call _ _ pos => pos
  | .binary _ _ _ pos => pos

/-- Whether the value is known without running the hardware: only literals take
part in it. -/
def isComputable : Expr → Bool
  | .malformed _ | .ident _ | .call .. => false
  | .literal _ => true
  | .paren inner _ _ => inner.isComputable
  | .binary _ lhs rhs _ => lhs.isComputable && rhs.isComputable

end Expr

end Gateware

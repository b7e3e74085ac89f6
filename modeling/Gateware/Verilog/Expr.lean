/- Verilog expressions. A tree is printed with parentheses only where its shape
   would be lost without them, by the precedence of the eleven operators and
   with every operator grouping to the left. -/
namespace Gateware.Verilog

inductive BinaryOp where
  | add
  | sub
  | mul
  | div
  | leftShift
  | rightShift
  | equals
  | greaterEq
  | lessEq
  | greater
  | less
  deriving DecidableEq, Repr

namespace BinaryOp

def symbol : BinaryOp → String
  | .add => "+"
  | .sub => "-"
  | .mul => "*"
  | .div => "/"
  | .leftShift => "<<"
  | .rightShift => ">>"
  | .equals => "=="
  | .greaterEq => ">="
  | .lessEq => "<="
  | .greater => ">"
  | .less => "<"

/-- How tightly an operator binds; a larger number binds tighter. -/
def precedence : BinaryOp → Nat
  | .equals | .greaterEq | .lessEq | .greater | .less => 1
  | .leftShift | .rightShift => 2
  | .add | .sub => 3
  | .mul | .div => 4

end BinaryOp

inductive Expr where
  | name (text : String)
  | literal (text : String)
  | paren (inner : Expr)
  | call (func : String) (args : List Expr)
  | binary (op : BinaryOp) (lhs rhs : Expr)
  deriving Repr

namespace Expr

/-- Whether an operand of `parent` needs parentheses: it binds more loosely, or
just as tightly on the right. -/
def needsParens (parent : BinaryOp) (right : Bool) : Expr → Bool
  | .binary op _ _ =>
    op.precedence < parent.precedence || (right && op.precedence == parent.precedence)
  | _ => false

/-- A text, in parentheses if asked for. -/
def enclose (parens : Bool) (text : String) : String :=
  if parens then "(" ++ text ++ ")" else text

mutual

def text : Expr → String
  | .name s => s
  | .literal s => s
  | .paren inner => enclose true inner.text
  | .call func args => func ++ enclose true (String.intercalate ", " (texts args))
  | .binary op lhs rhs =>
    enclose (lhs.needsParens op false) lhs.text ++ " " ++ op.symbol ++ " " ++
      enclose (rhs.needsParens op true) rhs.text

def texts : List Expr → List String
  | [] => []
  | e :: es => e.text :: texts es

end

end Expr

end Gateware.Verilog

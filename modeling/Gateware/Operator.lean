/- Operators and how tightly they bind. Eleven of them can join the operands of an
   expression; the two assignments and the bracket take part in precedence alone. -/
namespace Gateware

inductive Operator where
  | assign
  | assignRegistered
  | leftShift
  | rightShift
  | add
  | sub
  | mul
  | div
  | bracket
  | equals
  | greaterEq
  | lessEq
  | greater
  | less
  deriving DecidableEq, Repr

namespace Operator

def ofSymbol? (symbol : String) : Option Operator :=
  match symbol with
  | "=" => some .assign
  | "<-" => some .assignRegistered
  | "<<" => some .leftShift
  | ">>" => some .rightShift
  | "+" => some .add
  | "-" => some .sub
  | "*" => some .mul
  | "/" => some .div
  | "(" | ")" => some .bracket
  | "==" => some .equals
  | ">=" => some .greaterEq
  | "<=" => some .lessEq
  | ">" => some .greater
  | "<" => some .less
  | _ => none

/-- How tightly an operator binds; a larger number binds tighter. -/
def precedence : Operator → Nat
  | .assign | .assignRegistered => 0
  | .equals | .greaterEq | .lessEq | .greater | .less => 1
  | .leftShift | .rightShift => 2
  | .add | .sub => 3
  | .mul | .div => 4
  | .bracket => 5

/-- The name of an operator in a syntax tree listing. -/
def label : Operator → String
  | .assign => "Assign"
  | .assignRegistered => "AssignRegistered"
  | .leftShift => "LeftShift"
  | .rightShift => "RightShift"
  | .add => "Add"
  | .sub => "Sub"
  | .mul => "Mul"
  | .div => "Div"
  | .bracket => "Bracket"
  | .equals => "Equals"
  | .greaterEq => "GreaterEq"
  | .lessEq => "LessEq"
  | .greater => "Greater"
  | .less => "Less"

end Operator

end Gateware

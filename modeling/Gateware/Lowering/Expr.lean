import Gateware.Scope
import Gateware.Verilog.Expr

/- Lowering expressions: every name becomes the emitted name of the signal it
   stands for, and every operator its Verilog counterpart. An operator is checked
   before its operands, and operands from left to right. -/
namespace Gateware

/-- The Verilog counterpart of an operator. -/
def Operator.toVerilog? : Operator → Option Verilog.BinaryOp
  | .add => some .add
  | .sub => some .sub
  | .mul => some .mul
  | .div => some .div
  | .leftShift => some .leftShift
  | .rightShift => some .rightShift
  | .equals => some .equals
  | .greaterEq => some .greaterEq
  | .lessEq => some .lessEq
  | .greater => some .greater
  | .less => some .less
  | .assign | .assignRegistered | .bracket => none

mutual

def Expr.lower (scope : Scope) : Expr → Except LoweringError Verilog.Expr
  | .malformed pos => .error (.unsupported .malformedExpression pos)
  | .ident id => return .name (← scope.require id).emitted
  | .literal lit => return .literal lit.value
  | .paren inner _ _ => return .paren (← inner.lower scope)
  | .call func args _ => return .call func.name (← Expr.lowerAll scope args)
  | .binary op lhs rhs pos =>
    match op.toVerilog? with
    | none => .error (.unsupported .nonArithmeticOperator pos)
    | some op => return .binary op (← lhs.lower scope) (← rhs.lower scope)

def Expr.lowerAll (scope : Scope) : List Expr → Except LoweringError (List Verilog.Expr)
  | [] => return []
  | e :: es => return (← e.lower scope) :: (← Expr.lowerAll scope es)

end

end Gateware

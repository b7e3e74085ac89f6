import Gateware.Expr

/- Signals: the wires and registers that a module declares, with their widths
   and the clocks they are sampled on, and the ports among them. -/
namespace Gateware

/-- How a signal keeps its value. -/
inductive Storage where
  | wire
  | reg
  deriving DecidableEq, Repr

inductive Direction where
  | input
  | output
  | inout
  deriving DecidableEq, Repr

/-- The clock a register is sampled on; `negated` chooses the falling edge. -/
structure Clock where
  name : Ident
  negated : Bool
  deriving DecidableEq, Repr

structure Signal where
  name : Ident
  width : Nat
  storage : Storage
  clock : Option Clock
  deriving DecidableEq, Repr

/-- A signal is a register if it is declared one or sampled on a clock. -/
def Signal.isRegister (s : Signal) : Bool :=
  s.storage == .reg || s.clock.isSome

/-- A signal in the header of a module. -/
structure Port where
  signal : Signal
  direction : Direction
  deriving DecidableEq, Repr

end Gateware

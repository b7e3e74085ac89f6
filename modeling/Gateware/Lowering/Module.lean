import Gateware.Lowering.Stmt

/- Lowering modules. One state goes through all modules of a list, in order, up to the first
   error. Every module begins with no names taken and no declarations hoisted, in the frames
   that the module before it has left open. -/
namespace Gateware

namespace Lowering

/-- Declares a port under a fresh name. -/
def port (p : Port) : Lowering Verilog.Port := do
  let emitted ← claim p.signal.name.name
  introduce p.signal emitted
  return ⟨p.direction, declarationOf p.signal emitted⟩

def ports : List Port → Lowering (List Verilog.Port)
  | [] => return []
  | p :: ps => return (← port p) :: (← ports ps)

/-- Lowers a module. The ports have a frame, and the body has one inside it. -/
def module (m : Module) : Lowering Verilog.Module := do
  note (.loweringModule m.name.name m.ports.length)
  inFrame do
    let ports ← ports m.ports
    let items ← inFrame (allItems m.body.stmts)
    return ⟨m.name.name, ports, (← get).hoisted, items⟩

/-- The state for the next module: no names are taken and no declarations are hoisted. -/
def State.renewed (s : State) : State := { s with used := [], hoisted := [] }

def modules : List Module → Lowering (List Verilog.Module)
  | [] => return []
  | m :: ms => do
    modify State.renewed
    return (← module m) :: (← modules ms)

end Lowering

def Module.lower (m : Module) : Report LoweringError Verilog.Module := do
  let (lowered, _) ← (Lowering.module m).run Lowering.State.initial
  return lowered

def Module.lowerAll (ms : List Module) : Report LoweringError (List Verilog.Module) := do
  let (lowered, _) ← (Lowering.modules ms).run Lowering.State.initial
  return lowered

/-- The Verilog text of modules, with a record of how it came about. -/
def emit (ms : List Module) : Report LoweringError String :=
  return Verilog.text (← Module.lowerAll ms)

end Gateware

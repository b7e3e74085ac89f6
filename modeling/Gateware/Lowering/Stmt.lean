import Gateware.Lowering.Expr
import Gateware.Lowering.Names
import Gateware.Report
import Gateware.Stmt
import Gateware.Verilog.Module

/- Lowering statements. At the level of a module a statement becomes items
   (`Lowering.items`); inside a procedure it becomes procedural statements
   (`Lowering.contents`), and declarations are hoisted out of it. Every block, and
   every body of a condition or a sequence, has a frame of its own. -/
namespace Gateware

/-- What lowering keeps track of inside a module. -/
structure Lowering.State where
  /-- The signals in reach. -/
  scope : Scope
  /-- The Verilog names that are taken. -/
  used : List String
  /-- The declarations made inside procedures. -/
  hoisted : List Verilog.Declaration
  deriving Repr

/-- A step of lowering. -/
abbrev Lowering := StateT Lowering.State (Report LoweringError)

namespace Lowering

def State.initial : State := ⟨Scope.root, [], []⟩

def note (event : Event) : Lowering Unit :=
  StateT.lift (Report.note event)

def fail {α : Type} (e : LoweringError) : Lowering α :=
  fun _ => ⟨[], .error e⟩

def scope : Lowering Scope :=
  return (← get).scope

/-- Runs a step in a frame of its own. -/
def inFrame {α : Type} (step : Lowering α) : Lowering α := do
  modify fun s => { s with scope := s.scope.enter }
  note (.entered (← scope).depth)
  let a ← step
  modify fun s => { s with scope := s.scope.exit }
  note (.exited (← scope).depth)
  return a

/-- Takes a name that is not used in the module. -/
def claim (name : String) : Lowering String := do
  let fresh := freshName (← get).used name
  modify fun s => { s with used := fresh :: s.used }
  return fresh

def introduce (signal : Signal) (emitted : String) : Lowering Unit := do
  let scope ← (← scope).declareAs signal emitted
  modify fun s => { s with scope := scope }
  note (.declared signal.name.name emitted signal.width)

/-- The Verilog declaration of a signal under a name. -/
def declarationOf (signal : Signal) (emitted : String) : Verilog.Declaration :=
  ⟨signal.isRegister, signal.width, emitted⟩

/-- Declares a signal of the body under a fresh name. -/
def declareSignal (signal : Signal) : Lowering Verilog.Declaration := do
  let emitted ← claim signal.name.name
  if emitted ≠ signal.name.name then note (.renamed signal.name emitted)
  introduce signal emitted
  return declarationOf signal emitted

def declare (d : Decl) (pos : Position) : Lowering Verilog.Declaration :=
  match d with
  | .signal s => declareSignal s
  | .value _ => fail (.unsupported .valueDeclaration pos)
  | .port _ => fail (.unsupported .strayPort pos)
  | .submodule _ => fail (.unsupported .nestedModule pos)

def expression (e : Expr) : Lowering Verilog.Expr := do
  e.lower (← scope)

/-- The edge of a clock, which has to be in reach. -/
def trigger (clock : Clock) : Lowering Verilog.Trigger := do
  let binding ← (← scope).require clock.name
  return ⟨if clock.negated then .falling else .rising, binding.emitted⟩

/-- The two kinds of procedure: those that follow their inputs and those that
run on the edge of a clock. -/
inductive Procedure where
  | combinational
  | clocked
  deriving DecidableEq, Repr

/-- Lowers the two sides of an assignment: the target has to be in reach, the
value has to have a Verilog form, and the target has to be a register exactly if
the assignment needs one. -/
def sides (lhs : Ident) (rhs : Expr) (needsRegister : Bool) :
    Lowering (Binding × Verilog.Expr) := do
  let target ← (← scope).require lhs
  let value ← expression rhs
  if target.signal.isRegister ≠ needsRegister then fail (.storageMismatch lhs needsRegister)
  return (target, value)

/-- Lowers an assignment at the level of a module. -/
def continuous (kind : AssignKind) (lhs : Ident) (rhs : Expr) : Lowering Verilog.Item :=
  match kind with
  | .plain => do
    let (target, value) ← sides lhs rhs false
    return .assign target.emitted value
  | .registered => do
    let (target, value) ← sides lhs rhs true
    match target.signal.clock with
    | none => fail (.missingClock lhs)
    | some clock => return .register (← trigger clock) target.emitted value

def procedural (procedure : Procedure) (kind : AssignKind) (lhs : Ident) (rhs : Expr) :
    Lowering Verilog.Stmt := do
  let (target, value) ← sides lhs rhs true
  match kind, procedure with
  | .plain, _ => return .blocking target.emitted value
  | .registered, .clocked => return .nonblocking target.emitted value
  | .registered, .combinational => fail (.registeredInCombinational lhs)

/-- Puts the contents of a block between `begin` and `end`, in a frame of their
own; any other statement stands for itself. -/
def delimit (s : Stmt) (contents : Lowering (List Verilog.Stmt)) : Lowering (List Verilog.Stmt) :=
  if s.isBlock then do return [.block (← inFrame contents)] else contents

/-- The conditions after the first one, and what to run if none of them holds. -/
abbrev Branches := List (Verilog.Expr × List Verilog.Stmt) × Option (List Verilog.Stmt)

mutual

/-- Lowers a statement inside a procedure. A block gives the statements in it. -/
def contents (procedure : Procedure) : Stmt → Lowering (List Verilog.Stmt)
  | .decl d pos => do
    let declaration ← declare d pos
    modify fun s => { s with hoisted := s.hoisted ++ [declaration] }
    return []
  | .assign kind lhs rhs _ => return [← procedural procedure kind lhs rhs]
  | .sequence _ _ pos => fail (.unsupported .nestedSequence pos)
  | .conditional cond body alternative _ => do
    let cond ← expression cond
    let body ← inFrame (contents procedure body)
    let (others, otherwise) ← branches procedure alternative
    return [.conditional cond body others otherwise]
  | .block ⟨stmts, _, _⟩ => allContents procedure stmts
  | .malformed pos => fail (.unsupported .malformedStatement pos)
  | .expr _ pos => fail (.unsupported .expressionStatement pos)
  | .result _ pos => fail (.unsupported .returnStatement pos)
  | .loop _ _ pos => fail (.unsupported .loopStatement pos)

def allContents (procedure : Procedure) : List Stmt → Lowering (List Verilog.Stmt)
  | [] => return []
  | s :: ss => return (← delimit s (contents procedure s)) ++ (← allContents procedure ss)

/-- Lowers the alternative of a condition. Conditions in a chain become further
conditions of the first one. -/
def branches (procedure : Procedure) : Option Stmt → Lowering Branches
  | none => return ([], none)
  | some (.conditional cond body alternative _) => do
    let cond ← expression cond
    let body ← inFrame (contents procedure body)
    let (others, otherwise) ← branches procedure alternative
    return ((cond, body) :: others, otherwise)
  | some s => return ([], some (← inFrame (contents procedure s)))

end

mutual

/-- Lowers a statement at the level of a module. Blocks are spliced in. -/
def items : Stmt → Lowering (List Verilog.Item)
  | .decl d pos => return [.declaration (← declare d pos)]
  | .assign kind lhs rhs _ => return [← continuous kind lhs rhs]
  | .sequence clock inner _ => do
    let trigger ← trigger clock
    return [.always (.trigger trigger) (← inFrame (contents .clocked inner))]
  | .conditional cond body alternative pos =>
    return [.always .inputs (← contents .combinational (.conditional cond body alternative pos))]
  | .block ⟨stmts, _, _⟩ => inFrame (allItems stmts)
  | .malformed pos => fail (.unsupported .malformedStatement pos)
  | .expr _ pos => fail (.unsupported .expressionStatement pos)
  | .result _ pos => fail (.unsupported .returnStatement pos)
  | .loop _ _ pos => fail (.unsupported .loopStatement pos)

def allItems : List Stmt → Lowering (List Verilog.Item)
  | [] => return []
  | s :: ss => return (← items s) ++ (← allItems ss)

end

end Lowering

end Gateware

import Gateware.Lowering.Error
import Gateware.Stmt

/- What is wrong with a module, read off the source alone.

   A walk visits the parts of a module in the order in which they are written and lists a fault for
   each rule that is broken; it never stops and never prints. This file has definitions only:

   1. the signals that are in reach at some place (`Frames`); the ports, the body of the module, every
      block, and every body of a condition or of a clocked statement that is not a block has a frame;
   2. the faults of names that are used and declared (`unresolved`, `redeclared`) and of expressions
      (`Expr.faults`);
   3. where a statement stands (`Context`), on which it depends what rules an assignment has to keep
      (`misassigned`, `unclocked`);
   4. the faults of statements and modules (`Stmt.faults`, `ModuleOf.faults`).

   Nothing here refers to lowering, so that what lowering reports can be compared with it. -/
namespace Gateware

/-! ## Signals in reach -/

/-- The open frames, the innermost first. Each holds the signals declared in it, the
latest first. -/
abbrev Frames := List (List Signal)

namespace Frames

/-- The signal of a name in the innermost frame that has one. -/
def lookup (frames : Frames) (name : String) : Option Signal :=
  frames.findSome? fun frame => frame.find? fun s => s.name.name == name

def declare (frames : Frames) (signal : Signal) : Frames :=
  (signal :: frames.headD []) :: frames.tail

def after (frames : Frames) : Stmt → Frames
  | .decl (.signal s) _ => frames.declare s
  | _ => frames

def afterPorts (frames : Frames) : List Port → Frames
  | [] => frames
  | p :: ps => (frames.declare p.signal).afterPorts ps

/-- The frames for the body of a condition or of a clocked statement. A block brings a
frame of its own. -/
def body (frames : Frames) (s : Stmt) : Frames := if s.isBlock then frames else [] :: frames

/-- The frames for the alternative of a condition. Another condition declares nothing
outside of its bodies and needs no frame. -/
def alternative (frames : Frames) : Stmt → Frames
  | .conditional .. => frames
  | s => frames.body s

/-- A name that is used has to be in reach. -/
def unresolved (frames : Frames) (id : Ident) : List LoweringError :=
  match frames.lookup id.name with
  | some _ => []
  | none => [.undeclared id]

/-- A name is declared once in a frame. -/
def redeclared (frames : Frames) (signal : Signal) : List LoweringError :=
  match (frames.headD []).find? fun s => s.name.name == signal.name.name with
  | some first => [.duplicate signal.name first.name.pos]
  | none => []

end Frames

/-! ## Expressions -/

mutual

/-- The faults of an expression: parts that have no Verilog form, and names that are not
in reach. An operator comes before its operands, and these from left to right. -/
def Expr.faults (frames : Frames) : Expr → List LoweringError
  | .malformed pos => [.unsupported .malformedExpression pos]
  | .ident id => frames.unresolved id
  | .literal _ => []
  | .paren inner _ _ => inner.faults frames
  | .call _ args _ => Expr.allFaults frames args
  | .binary op lhs rhs pos =>
    (if op ∈ [.assign, .assignRegistered, .bracket] then [.unsupported .nonArithmeticOperator pos] else []) ++
      (lhs.faults frames ++ rhs.faults frames)

def Expr.allFaults (frames : Frames) : List Expr → List LoweringError
  | [] => []
  | e :: es => e.faults frames ++ Expr.allFaults frames es

end

/-! ## Statements -/

/-- Where a statement stands: at the level of a module, in a condition outside of any
clocked statement, or in a clocked statement. -/
inductive Context where
  | continuous
  | combinational
  | clocked
  deriving DecidableEq, Repr

/-- Where the bodies of a condition stand. -/
def Context.inside : Context → Context
  | .continuous => .combinational
  | context => context

/-- Only an assignment `=` at the level of a module drives a wire. -/
def AssignKind.needsRegister : AssignKind → Context → Bool
  | .plain, .continuous => false
  | _, _ => true

/-- The target of an assignment is a register exactly if the assignment needs one. -/
def AssignKind.wrongStorage (kind : AssignKind) (context : Context) (lhs : Ident) (target : Signal) :
    List LoweringError :=
  if target.isRegister = kind.needsRegister context then []
  else [.storageMismatch lhs (kind.needsRegister context)]

/-- An assignment `<-` stands in a clocked statement or, at the level of a module, has a
target with a clock that is in reach. -/
def Frames.unclocked (frames : Frames) (kind : AssignKind) (context : Context) (lhs : Ident)
    (target : Signal) : List LoweringError :=
  match kind, context, target.clock with
  | .plain, _, _ | .registered, .clocked, _ => []
  | .registered, .combinational, _ => [.registeredInCombinational lhs]
  | .registered, .continuous, none => [.missingClock lhs]
  | .registered, .continuous, some clock => frames.unresolved clock.name

/-- The faults of an assignment: its target, its value, and then whether they fit. -/
def Frames.misassigned (frames : Frames) (kind : AssignKind) (context : Context) (lhs : Ident) (rhs : Expr) :
    List LoweringError :=
  frames.unresolved lhs ++ (rhs.faults frames ++ ((frames.lookup lhs.name).map fun target =>
    kind.wrongStorage context lhs target ++ frames.unclocked kind context lhs target).getD [])

namespace Stmt

mutual

def faults (frames : Frames) (context : Context) : Stmt → List LoweringError
  | .decl (.signal signal) _ => frames.redeclared signal
  | .decl (.value _) pos => [.unsupported .valueDeclaration pos]
  | .decl (.port _) pos => [.unsupported .strayPort pos]
  | .decl (.submodule _) pos => [.unsupported .nestedModule pos]
  | .assign kind lhs rhs _ => frames.misassigned kind context lhs rhs
  | .sequence clock inner pos =>
    match context with
    | .continuous => frames.unresolved clock.name ++ inner.faults (frames.body inner) .clocked
    | .combinational | .clocked => [.unsupported .nestedSequence pos]
  | .conditional cond body alternative _ =>
    cond.faults frames ++ (body.faults (frames.body body) context.inside ++
      alternativeFaults frames context.inside alternative)
  | .block ⟨stmts, _, _⟩ => allFaults ([] :: frames) context stmts
  | .malformed pos => [.unsupported .malformedStatement pos]
  | .expr _ pos => [.unsupported .expressionStatement pos]
  | .result _ pos => [.unsupported .returnStatement pos]
  | .loop _ _ pos => [.unsupported .loopStatement pos]

/-- The faults of statements in a row, each of them after the declarations of those
before it. -/
def allFaults (frames : Frames) (context : Context) : List Stmt → List LoweringError
  | [] => []
  | s :: ss => s.faults frames context ++ allFaults (frames.after s) context ss

def alternativeFaults (frames : Frames) (context : Context) : Option Stmt → List LoweringError
  | none => []
  | some s => s.faults (frames.alternative s) context

end

end Stmt

/-! ## Modules -/

def Port.faults (frames : Frames) : List Port → List LoweringError
  | [] => []
  | p :: ps => frames.redeclared p.signal ++ Port.faults (frames.declare p.signal) ps

/-- The faults of a module. The body has a frame inside that of the ports. -/
def ModuleOf.faults (m : Module) : List LoweringError :=
  Port.faults [[]] m.ports ++ Stmt.allFaults ([] :: Frames.afterPorts [[]] m.ports) .continuous m.body.stmts

end Gateware

import Gateware.Lowering.Module

/- Which declaration a name stands for, read off the source alone.

   The declarations of a module are numbered in the order in which they are written, ports first.
   This file has definitions only:

   1. the signals declared in a module, and which of them are inside a procedure (`declarations`,
      `inProcedure`);
   2. the frames that are open at some place, each with the names declared in it so far (`Env`); the
      ports, the body of the module, every block, and every body of a condition or of a clocked
      statement that is not a block has a frame;
   3. the names that are used, each with the declaration it denotes (`occurrences`), in the order in
      which they are written;
   4. the names at the same places of a Verilog module (`names`), also in that order.

   Nothing here refers to lowering, so that what lowering does can be compared with it. -/
namespace Gateware

mutual

/-- The names among the operands of an expression, from left to right. -/
def Expr.operands : Expr → List Ident
  | .malformed _ | .literal _ => []
  | .ident id => [id]
  | .paren inner _ _ => inner.operands
  | .call _ args _ => Expr.allOperands args
  | .binary _ lhs rhs _ => lhs.operands ++ rhs.operands

/-- The names among the operands of expressions in a row. -/
def Expr.allOperands : List Expr → List Ident
  | [] => []
  | e :: es => e.operands ++ Expr.allOperands es

end

/-! ## Declarations -/

namespace Stmt

mutual

def declarations : Stmt → List Signal
  | .decl (.signal s) _ => [s]
  | .sequence _ inner _ => inner.declarations
  | .conditional _ body alternative _ => body.declarations ++ alternativeDeclarations alternative
  | .block ⟨stmts, _, _⟩ => allDeclarations stmts
  | _ => []

def allDeclarations : List Stmt → List Signal
  | [] => []
  | s :: ss => s.declarations ++ allDeclarations ss

/-- The signals declared in the alternative of a condition. -/
def alternativeDeclarations : Option Stmt → List Signal
  | none => []
  | some s => s.declarations

end

mutual

/-- For each declaration of a statement at the level of a module, whether it is inside
a procedure. -/
def inProcedure : Stmt → List Bool
  | .decl (.signal _) _ => [false]
  | .block ⟨stmts, _, _⟩ => allInProcedure stmts
  | s => s.declarations.map fun _ => true

def allInProcedure : List Stmt → List Bool
  | [] => []
  | s :: ss => s.inProcedure ++ allInProcedure ss

end

end Stmt

def ModuleOf.declarations (m : Module) : List Signal :=
  m.ports.map (·.signal) ++ Stmt.allDeclarations m.body.stmts

/-! ## Occurrences -/

/-- A name that is used, and the number of the declaration it denotes. -/
structure Occurrence where
  id : Ident
  declaration : Option Nat
  deriving DecidableEq

/-- The open frames, the innermost first. Each holds the names declared in it and the
numbers of their declarations, the latest first. -/
abbrev Env := List (List (String × Nat))

namespace Env

/-- The declaration of a name in the innermost frame that has one. -/
def lookup (env : Env) (name : String) : Option Nat :=
  env.findSome? fun frame => List.lookup name frame

def declare (env : Env) (name : String) (number : Nat) : Env :=
  ((name, number) :: env.headD []) :: env.tail

def occurrence (env : Env) (id : Ident) : Occurrence := ⟨id, env.lookup id.name⟩

/-- The frames for the body of a condition or of a clocked statement. A block brings a
frame of its own. -/
def body (env : Env) (s : Stmt) : Env := if s.isBlock then env else [] :: env

/-- The frames after a statement, which may declare a name with the given number. -/
def after (env : Env) (number : Nat) : Stmt → Env
  | .decl (.signal s) _ => env.declare s.name.name number
  | _ => env

/-- The frames after ports, which are numbered from the given number on. -/
def afterPorts (env : Env) (number : Nat) : List Port → Env
  | [] => env
  | p :: ps => (env.declare p.signal.name.name number).afterPorts (number + 1) ps

end Env

namespace Stmt

mutual

/-- The names used in a statement, in order: targets, operands, conditions and clocks
of clocked statements. `number` counts the declarations before the statement. -/
def occurrences (env : Env) (number : Nat) : Stmt → List Occurrence
  | .assign _ lhs rhs _ => env.occurrence lhs :: rhs.operands.map env.occurrence
  | .sequence clock inner _ => env.occurrence clock.name :: inner.occurrences (env.body inner) number
  | .conditional cond body alternative _ =>
    cond.operands.map env.occurrence ++ body.occurrences (env.body body) number ++
      alternativeOccurrences env (number + body.declarations.length) alternative
  | .block ⟨stmts, _, _⟩ => allOccurrences ([] :: env) number stmts
  | _ => []

/-- The names used in statements in a row, each of them after the declarations of those
before it. -/
def allOccurrences (env : Env) (number : Nat) : List Stmt → List Occurrence
  | [] => []
  | s :: ss => s.occurrences env number ++
      allOccurrences (env.after number s) (number + s.declarations.length) ss

/-- The names used in the alternative of a condition. -/
def alternativeOccurrences (env : Env) (number : Nat) : Option Stmt → List Occurrence
  | none => []
  | some s => s.occurrences (env.body s) number

end

end Stmt

/-- The names used in the body of a module. -/
def ModuleOf.occurrences (m : Module) : List Occurrence :=
  Stmt.allOccurrences ([] :: Env.afterPorts [[]] 0 m.ports) m.ports.length m.body.stmts

/-! ## The same places in Verilog -/

namespace Verilog

mutual

def Expr.names : Expr → List String
  | .name text => [text]
  | .literal _ => []
  | .paren inner => inner.names
  | .call _ args => Expr.allNames args
  | .binary _ lhs rhs => lhs.names ++ rhs.names

def Expr.allNames : List Expr → List String
  | [] => []
  | e :: es => e.names ++ Expr.allNames es

end

namespace Stmt

mutual

def names : Stmt → List String
  | .blocking target value => target :: value.names
  | .nonblocking target value => target :: value.names
  | .block body => allNames body
  | .conditional cond body others otherwise =>
    cond.names ++ allNames body ++ (othersNames others ++ otherwiseNames otherwise)

def allNames : List Stmt → List String
  | [] => []
  | s :: ss => s.names ++ allNames ss

def othersNames : List (Expr × List Stmt) → List String
  | [] => []
  | (cond, body) :: others => cond.names ++ allNames body ++ othersNames others

/-- The targets and names of what runs if no condition holds. -/
def otherwiseNames : Option (List Stmt) → List String
  | none => []
  | some body => allNames body

end

end Stmt

/-- The clock of a procedure with a body. -/
def Sensitivity.names : Sensitivity → List String
  | .inputs => []
  | .trigger t => [t.clock]

/-- The targets, names and clocks of an item. The clock of a procedure that was made for
a single assignment is not written in the source. -/
def Item.names : Item → List String
  | .declaration _ => []
  | .assign target value => target :: value.names
  | .register _ target value => target :: value.names
  | .always sensitivity body => sensitivity.names ++ Stmt.allNames body

/-- The declaration that an item is, if it is one. -/
def Item.declared : Item → List Declaration
  | .declaration d => [d]
  | _ => []

/-- The targets, names and clocks in the items of a module. -/
def Module.names (m : Module) : List String := m.items.flatMap Item.names

end Verilog

end Gateware

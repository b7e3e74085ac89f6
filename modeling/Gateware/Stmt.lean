import Gateware.Signal

/- Statements, declarations and modules. `BlockOf`, `ModuleOf` and `DeclOf`
   leave the type of statements open, because a statement can hold each of
   them; `Block`, `Module` and `Decl` are the three over `Stmt`. -/
namespace Gateware

/-- Statements between braces. -/
structure BlockOf (σ : Type) where
  stmts : List σ
  start : Position
  stop : Position
  deriving Repr

/-- A module: a name, ports and a body. -/
structure ModuleOf (σ : Type) where
  name : Ident
  ports : List Port
  body : BlockOf σ
  deriving Repr

/-- A value with a name and a type. -/
structure NamedValue where
  name : Ident
  type : String
  value : Expr
  deriving Repr

inductive DeclOf (σ : Type) where
  | value (v : NamedValue)
  | signal (s : Signal)
  | port (p : Port)
  | submodule (m : ModuleOf σ)
  deriving Repr

/-- The two ways to assign: at once (`=`) or at the next clock edge (`<-`). -/
inductive AssignKind where
  | plain
  | registered
  deriving DecidableEq, Repr

inductive Stmt where
  | malformed (pos : Position)
  | decl (d : DeclOf Stmt) (pos : Position)
  | expr (e : Expr) (pos : Position)
  | assign (kind : AssignKind) (lhs : Ident) (rhs : Expr) (pos : Position)
  | sequence (clock : Clock) (inner : Stmt) (pos : Position)
  | result (value : Expr) (pos : Position)
  | block (b : BlockOf Stmt)
  | conditional (cond : Expr) (body : Stmt) (alternative : Option Stmt) (pos : Position)
  | loop (cond : Expr) (body : Stmt) (pos : Position)
  deriving Repr

abbrev Block := BlockOf Stmt

abbrev Module := ModuleOf Stmt

abbrev Decl := DeclOf Stmt

def Stmt.position : Stmt → Position
  | .malformed pos | .decl _ pos | .expr _ pos | .assign _ _ _ pos | .sequence _ _ pos
  | .result _ pos | .conditional _ _ _ pos | .loop _ _ pos => pos
  | .block b => b.start

def Stmt.isBlock : Stmt → Bool
  | .block _ => true
  | _ => false

/-- The position of a module is that of its name. -/
def ModuleOf.position {σ : Type} (m : ModuleOf σ) : Position :=
  m.name.pos

/-- The position of a declaration is that of the name it declares. -/
def DeclOf.position {σ : Type} : DeclOf σ → Position
  | .value v => v.name.pos
  | .signal s => s.name.pos
  | .port p => p.signal.name.pos
  | .submodule m => m.position

end Gateware

import Gateware.Signal
import Gateware.Verilog.Expr

/- Verilog modules and their text. Inside a procedure there are only assignments,
   blocks and conditions; declarations, continuous assignments and procedures
   stand at the level of the module. The text of a module is a list of lines, each
   indented with tabs. -/
namespace Gateware.Verilog

inductive Stmt where
  /-- An assignment that takes effect at once. -/
  | blocking (target : String) (value : Expr)
  /-- An assignment that takes effect at the end of the time step. -/
  | nonblocking (target : String) (value : Expr)
  /-- Statements between `begin` and `end`. -/
  | block (body : List Stmt)
  /-- A condition, the statements it guards, further conditions, and the
  statements to run if none of them holds. -/
  | conditional (cond : Expr) (body : List Stmt) (others : List (Expr × List Stmt))
      (otherwise : Option (List Stmt))
  deriving Repr

/-- The edge of a clock. -/
inductive Edge where
  | rising
  | falling
  deriving DecidableEq, Repr

/-- The edge of a clock on which a procedure runs. -/
structure Trigger where
  edge : Edge
  clock : String
  deriving DecidableEq, Repr

/-- What makes a procedure run: any of its inputs, or the edge of a clock. -/
inductive Sensitivity where
  | inputs
  | trigger (t : Trigger)
  deriving DecidableEq, Repr

/-- A declared net or register. -/
structure Declaration where
  isRegister : Bool
  width : Nat
  name : String
  deriving DecidableEq, Repr

structure Port where
  direction : Direction
  declaration : Declaration
  deriving DecidableEq, Repr

/-- A part of the body of a module. -/
inductive Item where
  /-- A declaration. -/
  | declaration (d : Declaration)
  /-- A continuous assignment. -/
  | assign (target : String) (value : Expr)
  /-- A procedure of one assignment that takes effect at the end of the step. -/
  | register (trigger : Trigger) (target : String) (value : Expr)
  /-- A procedure with a body between `begin` and `end`. -/
  | always (sensitivity : Sensitivity) (body : List Stmt)
  deriving Repr

/-- A module. The declarations that procedures need come before its items. -/
structure Module where
  name : String
  ports : List Port
  hoisted : List Declaration
  items : List Item
  deriving Repr

/-! ## Lines -/

/-- A line of text and how many tabs stand before it. -/
structure Line where
  indent : Nat
  text : String
  deriving DecidableEq, Repr

def Line.render (l : Line) : String :=
  String.ofList (List.replicate l.indent '\t') ++ l.text ++ "\n"

/-- The range of a bus, with a blank before it; a single bit has none. -/
def range (width : Nat) : String :=
  if width > 1 then s!" [{width - 1}:0]" else ""

def directionWord : Direction → String
  | .input => "input"
  | .output => "output"
  | .inout => "inout"

def Declaration.text (d : Declaration) : String :=
  let word := if d.isRegister then "reg" else "wire"
  s!"{word}{range d.width} {d.name};"

/-- The text of a port, without the comma that may follow it. -/
def Port.text (p : Port) : String :=
  let word := if p.declaration.isRegister then " reg" else ""
  s!"{directionWord p.direction}{word}{range p.declaration.width} {p.declaration.name}"

/-- The lines of ports; all but the last one end with a comma. -/
def Port.lines : List Port → List Line
  | [] => []
  | [p] => [⟨1, p.text⟩]
  | p :: ps => ⟨1, p.text ++ ","⟩ :: Port.lines ps

def Trigger.text (t : Trigger) : String :=
  let word := match t.edge with
    | .rising => "posedge"
    | .falling => "negedge"
  s!"{word} {t.clock}"

def Sensitivity.text : Sensitivity → String
  | .inputs => "*"
  | .trigger t => t.text

mutual

def Stmt.lines (indent : Nat) : Stmt → List Line
  | .blocking target value => [⟨indent, s!"{target} = {value.text};"⟩]
  | .nonblocking target value => [⟨indent, s!"{target} <= {value.text};"⟩]
  | .block body => ⟨indent, "begin"⟩ :: (Stmt.bodyLines (indent + 1) body ++ [⟨indent, "end"⟩])
  | .conditional cond body others otherwise =>
    ⟨indent, s!"if ({cond.text}) begin"⟩ ::
      (Stmt.bodyLines (indent + 1) body ++ Stmt.othersLines indent others ++
        Stmt.otherwiseLines indent otherwise ++ [⟨indent, "end"⟩])

def Stmt.bodyLines (indent : Nat) : List Stmt → List Line
  | [] => []
  | s :: ss => s.lines indent ++ Stmt.bodyLines indent ss

/-- The lines of further conditions. -/
def Stmt.othersLines (indent : Nat) : List (Expr × List Stmt) → List Line
  | [] => []
  | (cond, body) :: others =>
    ⟨indent, s!"end else if ({cond.text}) begin"⟩ ::
      (Stmt.bodyLines (indent + 1) body ++ Stmt.othersLines indent others)

/-- The lines to run if no condition holds. -/
def Stmt.otherwiseLines (indent : Nat) : Option (List Stmt) → List Line
  | none => []
  | some body => ⟨indent, "end else begin"⟩ :: Stmt.bodyLines (indent + 1) body

end

def Item.lines (indent : Nat) : Item → List Line
  | .declaration d => [⟨indent, d.text⟩]
  | .assign target value => [⟨indent, s!"assign {target} = {value.text};"⟩]
  | .register trigger target value =>
    [⟨indent, s!"always @({trigger.text})"⟩, ⟨indent + 1, s!"{target} <= {value.text};"⟩]
  | .always sensitivity body =>
    ⟨indent, s!"always @({sensitivity.text}) begin"⟩ ::
      (Stmt.bodyLines (indent + 1) body ++ [⟨indent, "end"⟩])

def Module.lines (m : Module) : List Line :=
  ⟨0, s!"module {m.name} ("⟩ ::
    (Port.lines m.ports ++ [⟨0, ");"⟩] ++ m.hoisted.map (fun d => ⟨1, d.text⟩) ++
      m.items.flatMap (Item.lines 1) ++ [⟨0, "endmodule"⟩])

def Module.text (m : Module) : String :=
  m.lines.foldl (fun out line => out ++ line.render) ""

/-- The text of modules, with an empty line between them. -/
def text (ms : List Module) : String :=
  String.intercalate "\n" (ms.map Module.text)

end Gateware.Verilog

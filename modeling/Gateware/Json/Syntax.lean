import Gateware.Json
import Gateware.Stmt

/- The JSON form of syntax trees. A structure is an object with all its fields, a
   choice is an object with one field named for the alternative, an alternative
   without content is a string, and what is absent is null. The decoders accept
   every value that the encoders make, with the fields of an object in any order,
   and fill in what is left out: a position at the start of the text, a width of
   one, storage as a wire, no clock, a rising edge, no alternative. -/
namespace Gateware

/-! ## Encoding -/

/-- A choice with content. -/
def Json.tagged (tag : String) (content : Json) : Json :=
  .object [(tag, content)]

def Position.toJson (p : Position) : Json :=
  .object [("line", .number p.line), ("column", .number p.column)]

def Ident.toJson (id : Ident) : Json :=
  .object [("name", .string id.name), ("pos", id.pos.toJson)]

def Literal.toJson (lit : Literal) : Json :=
  .object [("value", .string lit.value), ("pos", lit.pos.toJson)]

def Operator.toJson (op : Operator) : Json :=
  .string op.label

mutual

/-- An expression, tagged with its shape. -/
def Expr.toJson : Expr → Json
  | .malformed pos => .tagged "Bad" (.object [("pos", pos.toJson)])
  | .ident id => .tagged "Ident" id.toJson
  | .literal lit => .tagged "Literal" lit.toJson
  | .paren inner start stop =>
    .tagged "Paren" (.object [("inner", inner.toJson), ("start", start.toJson), ("end", stop.toJson)])
  | .call func args pos =>
    .tagged "Call"
      (.object [("func", func.toJson), ("args", .array (Expr.listToJson args)), ("pos", pos.toJson)])
  | .binary op lhs rhs pos =>
    .tagged "Math"
      (.object [("lhs", lhs.toJson), ("rhs", rhs.toJson), ("op", op.toJson), ("pos", pos.toJson)])

def Expr.listToJson : List Expr → List Json
  | [] => []
  | e :: es => e.toJson :: Expr.listToJson es

end

def Storage.toJson : Storage → Json
  | .wire => .string "Wire"
  | .reg => .string "Reg"

def Direction.toJson : Direction → Json
  | .input => .string "In"
  | .output => .string "Out"
  | .inout => .string "InOut"

def AssignKind.toJson : AssignKind → Json
  | .plain => .string "Plain"
  | .registered => .string "Registered"

/-- A clock and whether its falling edge counts. -/
def Clock.toJson (c : Clock) : Json :=
  .object [("name", c.name.toJson), ("negated", .bool c.negated)]

/-- A clock, or null where there is none. -/
def Clock.optionToJson : Option Clock → Json
  | none => .null
  | some c => c.toJson

def Signal.toJson (s : Signal) : Json :=
  .object [("name", s.name.toJson), ("width", .number s.width), ("storage", s.storage.toJson),
    ("clock", Clock.optionToJson s.clock)]

def Port.toJson (p : Port) : Json :=
  .object [("signal", p.signal.toJson), ("direction", p.direction.toJson)]

def NamedValue.toJson (v : NamedValue) : Json :=
  .object [("name", v.name.toJson), ("ty", .string v.type), ("value", v.value.toJson)]

mutual

/-- A statement, tagged with its shape. -/
def Stmt.toJson : Stmt → Json
  | .malformed pos => .tagged "Bad" (.object [("pos", pos.toJson)])
  | .decl d pos => .tagged "Decl" (.object [("decl", Decl.toJson d), ("pos", pos.toJson)])
  | .expr e pos => .tagged "Expr" (.object [("expr", e.toJson), ("pos", pos.toJson)])
  | .assign kind lhs rhs pos =>
    .tagged "Assign"
      (.object [("op", kind.toJson), ("lhs", lhs.toJson), ("rhs", rhs.toJson), ("pos", pos.toJson)])
  | .sequence clock inner pos =>
    .tagged "Sequence"
      (.object [("clock", clock.toJson), ("inner", inner.toJson), ("pos", pos.toJson)])
  | .result value pos =>
    .tagged "Return" (.object [("result", value.toJson), ("pos", pos.toJson)])
  | .block b => .tagged "Block" (Block.toJson b)
  | .conditional cond body alternative pos =>
    .tagged "If"
      (.object [("cond", cond.toJson), ("body", body.toJson),
        ("else_", Stmt.optionToJson alternative), ("pos", pos.toJson)])
  | .loop cond body pos =>
    .tagged "Loop" (.object [("cond", cond.toJson), ("body", body.toJson), ("pos", pos.toJson)])

def Stmt.optionToJson : Option Stmt → Json
  | none => .null
  | some s => s.toJson

def Stmt.listToJson : List Stmt → List Json
  | [] => []
  | s :: ss => s.toJson :: Stmt.listToJson ss

def Block.toJson : Block → Json
  | ⟨stmts, start, stop⟩ =>
    .object [("stmts", .array (Stmt.listToJson stmts)), ("start", start.toJson), ("end", stop.toJson)]

def Module.toJson : Module → Json
  | ⟨name, ports, body⟩ =>
    .object [("name", name.toJson), ("params", .array (ports.map Port.toJson)),
      ("body", Block.toJson body)]

/-- A declaration, tagged with what it declares. -/
def Decl.toJson : Decl → Json
  | .value v => .tagged "Value" v.toJson
  | .signal s => .tagged "Signal" s.toJson
  | .port p => .tagged "Param" p.toJson
  | .submodule m => .tagged "Module" (Module.toJson m)

end

def Module.listToJson (ms : List Module) : Json :=
  .array (ms.map Module.toJson)

/-! ## Decoding

`ofFields?` reads a structure from the fields of its object and `ofField?` from the field with a
name, `ofJson?` reads a value and `ofItems?` the items of an array, where one item that does not
fit makes the whole fail. A field that may be left out says what it is then; all others fail. -/

namespace Json

/-- The content of the first field with a name. -/
def field? (key : String) (fields : List (String × Json)) : Option Json :=
  fields.lookup key

def text? (key : String) (fields : List (String × Json)) : Option String :=
  match field? key fields with
  | some (.string s) => some s
  | _ => none

def number? (key : String) (fields : List (String × Json)) : Option Nat :=
  match field? key fields with
  | some (.number n) => some n
  | _ => none

end Json

/-- The position in a field; left out, it is the start of the text. -/
def Position.ofField? (key : String) (fields : List (String × Json)) : Option Position :=
  match Json.field? key fields with
  | none | some .null => some Position.start
  | some (.object fields) =>
    return ⟨← Json.number? "line" fields, ← Json.number? "column" fields⟩
  | some _ => none

/-- The name that the fields of an object make up. -/
def Ident.ofFields? (fields : List (String × Json)) : Option Ident :=
  return ⟨← Json.text? "name" fields, ← Position.ofField? "pos" fields⟩

/-- The name in a field, which may not be left out. -/
def Ident.ofField? (key : String) (fields : List (String × Json)) : Option Ident :=
  match Json.field? key fields with
  | some (.object fields) => Ident.ofFields? fields
  | _ => none

def Literal.ofFields? (fields : List (String × Json)) : Option Literal :=
  return ⟨← Json.text? "value" fields, ← Position.ofField? "pos" fields⟩

def Operator.ofLabel? (label : String) : Option Operator :=
  match label with
  | "Assign" => some .assign
  | "AssignRegistered" => some .assignRegistered
  | "LeftShift" => some .leftShift
  | "RightShift" => some .rightShift
  | "Add" => some .add
  | "Sub" => some .sub
  | "Mul" => some .mul
  | "Div" => some .div
  | "Bracket" => some .bracket
  | "Equals" => some .equals
  | "GreaterEq" => some .greaterEq
  | "LessEq" => some .lessEq
  | "Greater" => some .greater
  | "Less" => some .less
  | _ => none

mutual

/-- The expression that a tagged object stands for. -/
def Expr.ofJson? : Json → Option Expr
  | .object [(tag, .object fields)] =>
    match tag with
    | "Bad" => return .malformed (← Position.ofField? "pos" fields)
    | "Ident" => return .ident (← Ident.ofFields? fields)
    | "Literal" => return .literal (← Literal.ofFields? fields)
    | "Paren" =>
      return .paren (← Expr.ofField? "inner" fields) (← Position.ofField? "start" fields)
        (← Position.ofField? "end" fields)
    | "Call" =>
      return .call (← Ident.ofField? "func" fields) (← Expr.listOfField? "args" fields)
        (← Position.ofField? "pos" fields)
    | "Math" =>
      return .binary (← Json.text? "op" fields >>= Operator.ofLabel?)
        (← Expr.ofField? "lhs" fields) (← Expr.ofField? "rhs" fields)
        (← Position.ofField? "pos" fields)
    | _ => none
  | _ => none

-- The search for the field is written out here, so that the recursion is on the fields.
def Expr.ofField? (key : String) : List (String × Json) → Option Expr
  | [] => none
  | (name, value) :: fields => if name = key then Expr.ofJson? value else Expr.ofField? key fields

def Expr.listOfField? (key : String) : List (String × Json) → Option (List Expr)
  | [] => none
  | (name, value) :: fields =>
    if name = key then Expr.listOfJson? value else Expr.listOfField? key fields

def Expr.listOfJson? : Json → Option (List Expr)
  | .array items => Expr.ofItems? items
  | _ => none

def Expr.ofItems? : List Json → Option (List Expr)
  | [] => some []
  | item :: items => return (← Expr.ofJson? item) :: (← Expr.ofItems? items)

end

/-- The storage in a field; left out, it is a wire. -/
def Storage.ofField? (key : String) (fields : List (String × Json)) : Option Storage :=
  match Json.field? key fields with
  | none => some .wire
  | some (.string "Wire") => some .wire
  | some (.string "Reg") => some .reg
  | some _ => none

def Direction.ofField? (key : String) (fields : List (String × Json)) : Option Direction :=
  match Json.field? key fields with
  | some (.string "In") => some .input
  | some (.string "Out") => some .output
  | some (.string "InOut") => some .inout
  | _ => none

def AssignKind.ofField? (key : String) (fields : List (String × Json)) : Option AssignKind :=
  match Json.field? key fields with
  | some (.string "Plain") => some .plain
  | some (.string "Registered") => some .registered
  | _ => none

/-- A flag in a field; left out, it is not set. -/
def Json.flag? (key : String) (fields : List (String × Json)) : Option Bool :=
  match Json.field? key fields with
  | none => some false
  | some (.bool b) => some b
  | some _ => none

def Clock.ofFields? (fields : List (String × Json)) : Option Clock :=
  return ⟨← Ident.ofField? "name" fields, ← Json.flag? "negated" fields⟩

/-- The clock in a field; left out, there is none. -/
def Clock.optionOfField? (key : String) (fields : List (String × Json)) : Option (Option Clock) :=
  match Json.field? key fields with
  | none | some .null => some none
  | some (.object fields) => return some (← Clock.ofFields? fields)
  | some _ => none

/-- The clock in a field where one is required. -/
def Clock.ofField? (key : String) (fields : List (String × Json)) : Option Clock :=
  match Json.field? key fields with
  | some (.object fields) => Clock.ofFields? fields
  | _ => none

/-- The width in a field; left out, it is one. -/
def Signal.widthOfField? (key : String) (fields : List (String × Json)) : Option Nat :=
  match Json.field? key fields with
  | none => some 1
  | some (.number n) => some n
  | some _ => none

def Signal.ofFields? (fields : List (String × Json)) : Option Signal :=
  return ⟨← Ident.ofField? "name" fields, ← Signal.widthOfField? "width" fields,
    ← Storage.ofField? "storage" fields, ← Clock.optionOfField? "clock" fields⟩

def Signal.ofJson? : Json → Option Signal
  | .object fields => Signal.ofFields? fields
  | _ => none

def Port.ofFields? (fields : List (String × Json)) : Option Port :=
  return ⟨← Json.field? "signal" fields >>= Signal.ofJson?, ← Direction.ofField? "direction" fields⟩

def Port.ofItems? : List Json → Option (List Port)
  | [] => some []
  | .object fields :: items => return (← Port.ofFields? fields) :: (← Port.ofItems? items)
  | _ :: _ => none

def Port.listOfField? (key : String) (fields : List (String × Json)) : Option (List Port) :=
  match Json.field? key fields with
  | some (.array items) => Port.ofItems? items
  | _ => none

def NamedValue.ofFields? (fields : List (String × Json)) : Option NamedValue :=
  return ⟨← Ident.ofField? "name" fields, ← Json.text? "ty" fields, ← Expr.ofField? "value" fields⟩

mutual

/-- The statement that a tagged object stands for. -/
def Stmt.ofJson? : Json → Option Stmt
  | .object [(tag, .object fields)] =>
    match tag with
    | "Bad" => return .malformed (← Position.ofField? "pos" fields)
    | "Decl" => return .decl (← Decl.ofField? "decl" fields) (← Position.ofField? "pos" fields)
    | "Expr" => return .expr (← Expr.ofField? "expr" fields) (← Position.ofField? "pos" fields)
    | "Assign" =>
      return .assign (← AssignKind.ofField? "op" fields) (← Ident.ofField? "lhs" fields)
        (← Expr.ofField? "rhs" fields) (← Position.ofField? "pos" fields)
    | "Sequence" =>
      return .sequence (← Clock.ofField? "clock" fields) (← Stmt.ofField? "inner" fields)
        (← Position.ofField? "pos" fields)
    | "Return" =>
      return .result (← Expr.ofField? "result" fields) (← Position.ofField? "pos" fields)
    | "Block" =>
      return .block ⟨← Stmt.listOfField? "stmts" fields, ← Position.ofField? "start" fields,
        ← Position.ofField? "end" fields⟩
    | "If" =>
      return .conditional (← Expr.ofField? "cond" fields) (← Stmt.ofField? "body" fields)
        (← Stmt.optionOfField? "else_" fields) (← Position.ofField? "pos" fields)
    | "Loop" =>
      return .loop (← Expr.ofField? "cond" fields) (← Stmt.ofField? "body" fields)
        (← Position.ofField? "pos" fields)
    | _ => none
  | _ => none

def Stmt.ofField? (key : String) : List (String × Json) → Option Stmt
  | [] => none
  | (name, value) :: fields => if name = key then Stmt.ofJson? value else Stmt.ofField? key fields

/-- The statement in a field; left out or null, there is none. -/
def Stmt.optionOfField? (key : String) : List (String × Json) → Option (Option Stmt)
  | [] => some none
  | (name, value) :: fields =>
    if name = key then
      match value with
      | .null => some none
      | value => some <$> Stmt.ofJson? value
    else Stmt.optionOfField? key fields

def Stmt.listOfField? (key : String) : List (String × Json) → Option (List Stmt)
  | [] => none
  | (name, value) :: fields =>
    if name = key then Stmt.listOfJson? value else Stmt.listOfField? key fields

def Stmt.listOfJson? : Json → Option (List Stmt)
  | .array items => Stmt.ofItems? items
  | _ => none

def Stmt.ofItems? : List Json → Option (List Stmt)
  | [] => some []
  | item :: items => return (← Stmt.ofJson? item) :: (← Stmt.ofItems? items)

def Block.ofField? (key : String) : List (String × Json) → Option Block
  | [] => none
  | (name, value) :: fields => if name = key then Block.ofJson? value else Block.ofField? key fields

def Block.ofJson? : Json → Option Block
  | .object fields =>
    return ⟨← Stmt.listOfField? "stmts" fields, ← Position.ofField? "start" fields,
      ← Position.ofField? "end" fields⟩
  | _ => none

def Module.ofJson? : Json → Option Module
  | .object fields =>
    return ⟨← Ident.ofField? "name" fields, ← Port.listOfField? "params" fields,
      ← Block.ofField? "body" fields⟩
  | _ => none

def Decl.ofField? (key : String) : List (String × Json) → Option Decl
  | [] => none
  | (name, value) :: fields => if name = key then Decl.ofJson? value else Decl.ofField? key fields

/-- The declaration that a tagged object stands for. -/
def Decl.ofJson? : Json → Option Decl
  | .object [(tag, content)] =>
    match tag, content with
    | "Value", .object fields => return .value (← NamedValue.ofFields? fields)
    | "Signal", .object fields => return .signal (← Signal.ofFields? fields)
    | "Param", .object fields => return .port (← Port.ofFields? fields)
    | "Module", content => return .submodule (← Module.ofJson? content)
    | _, _ => none
  | _ => none

end

def Module.listOfJson? : Json → Option (List Module)
  | .array items => items.mapM Module.ofJson?
  | _ => none

end Gateware

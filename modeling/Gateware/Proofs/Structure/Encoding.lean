import Gateware.Json.Syntax

/- The JSON form of syntax trees keeps all of them.

   A syntax tree is written as JSON with the names and alternatives of its own types, and read
   back by decoders that look fields up by name. This file

   1. writes the form down as a schema (`TypeName.definition`): the fields or alternatives of
      each type of tree, in order, and what a value of a type looks like (`Conforms`);
   2. proves that every encoded tree conforms to it (`Expr.conforms`, `Stmt.conforms`,
      `Module.conforms`), by recursion on the tree;
   3. proves that a decoder finds a field wherever it stands (`search_of_field`), and that it
      makes of an encoded tree the tree again (`Expr.ofJson?_toJson`, `Stmt.ofJson?_toJson`,
      `Module.ofJson?_toJson`): field by field, in the order in which the decoder reads them;
   4. concludes that different modules have different values (`module_json_loses_nothing`).

   Statements, blocks, declarations and modules are mutually recursive, and so are the proofs
   about them. Nothing is assumed of a tree: those that no source text has are kept as well. -/
namespace Gateware

/-! ## The schema -/

namespace Json

/-- The types that syntax trees are made of. -/
inductive TypeName where
  | position
  | ident
  | literal
  | expr
  | operator
  | assignKind
  | storage
  | direction
  | clock
  | signal
  | port
  | namedValue
  | block
  | stmt
  | module
  | decl
  deriving DecidableEq, Repr

/-- What a field holds. -/
inductive Schema where
  | number
  | flag
  | text
  | list (item : Schema)
  | optional (item : Schema)
  | named (type : TypeName)
  deriving DecidableEq, Repr

/-- The content of an alternative: none, a value of its own type, or fields. -/
inductive Content where
  | none
  | value (schema : Schema)
  | fields (fs : List (String × Schema))
  deriving DecidableEq, Repr

/-- A type has all of some fields or is one of some alternatives. -/
inductive Definition where
  | structure (fields : List (String × Schema))
  | choice (alternatives : List (String × Content))
  deriving DecidableEq, Repr

/-- Alternatives without content. -/
def Definition.labels (tags : List String) : Definition := .choice (tags.map fun tag => (tag, .none))

/-- The fields and alternatives of the types, in order. -/
def TypeName.definition : TypeName → Definition
  | .position => .structure [("line", .number), ("column", .number)]
  | .ident => .structure [("name", .text), ("pos", .named .position)]
  | .literal => .structure [("value", .text), ("pos", .named .position)]
  | .expr => .choice [
      ("Bad", .fields [("pos", .named .position)]),
      ("Ident", .value (.named .ident)),
      ("Literal", .value (.named .literal)),
      ("Paren", .fields [("inner", .named .expr), ("start", .named .position), ("end", .named .position)]),
      ("Call", .fields [("func", .named .ident), ("args", .list (.named .expr)), ("pos", .named .position)]),
      ("Math", .fields [("lhs", .named .expr), ("rhs", .named .expr), ("op", .named .operator),
        ("pos", .named .position)])]
  | .operator => .labels ["Assign", "AssignRegistered", "LeftShift", "RightShift", "Add", "Sub", "Mul", "Div",
      "Bracket", "Equals", "GreaterEq", "LessEq", "Greater", "Less"]
  | .assignKind => .labels ["Plain", "Registered"]
  | .storage => .labels ["Wire", "Reg"]
  | .direction => .labels ["In", "Out", "InOut"]
  | .clock => .structure [("name", .named .ident), ("negated", .flag)]
  | .signal => .structure [("name", .named .ident), ("width", .number), ("storage", .named .storage),
      ("clock", .optional (.named .clock))]
  | .port => .structure [("signal", .named .signal), ("direction", .named .direction)]
  | .namedValue => .structure [("name", .named .ident), ("ty", .text), ("value", .named .expr)]
  | .block => .structure [("stmts", .list (.named .stmt)), ("start", .named .position), ("end", .named .position)]
  | .stmt => .choice [
      ("Bad", .fields [("pos", .named .position)]),
      ("Decl", .fields [("decl", .named .decl), ("pos", .named .position)]),
      ("Expr", .fields [("expr", .named .expr), ("pos", .named .position)]),
      ("Assign", .fields [("op", .named .assignKind), ("lhs", .named .ident), ("rhs", .named .expr),
        ("pos", .named .position)]),
      ("Sequence", .fields [("clock", .named .clock), ("inner", .named .stmt), ("pos", .named .position)]),
      ("Return", .fields [("result", .named .expr), ("pos", .named .position)]),
      ("Block", .value (.named .block)),
      ("If", .fields [("cond", .named .expr), ("body", .named .stmt), ("else_", .optional (.named .stmt)),
        ("pos", .named .position)]),
      ("Loop", .fields [("cond", .named .expr), ("body", .named .stmt), ("pos", .named .position)])]
  | .module => .structure [("name", .named .ident), ("params", .list (.named .port)), ("body", .named .block)]
  | .decl => .choice [
      ("Value", .value (.named .namedValue)),
      ("Signal", .value (.named .signal)),
      ("Param", .value (.named .port)),
      ("Module", .value (.named .module))]

mutual

/-- A value looks as a schema says: a structure is an object with its fields in order, an
alternative without content is its name, one with content is an object with its name as
the only field, and null stands for what is absent. -/
inductive Conforms : Schema → Json → Prop
  | number (n : Nat) : Conforms .number (.number n)
  | flag (b : Bool) : Conforms .flag (.bool b)
  | text (s : String) : Conforms .text (.string s)
  | list {item : Schema} {items : List Json} (h : ∀ j ∈ items, Conforms item j) :
      Conforms (.list item) (.array items)
  | absent (item : Schema) : Conforms (.optional item) .null
  | present {item : Schema} {j : Json} (h : Conforms item j) : Conforms (.optional item) j
  | structure {type : TypeName} {fs : List (String × Schema)} {js : List (String × Json)}
      (htype : type.definition = .structure fs) (h : ConformsAll fs js) : Conforms (.named type) (.object js)
  | label {type : TypeName} {alternatives : List (String × Content)} {tag : String}
      (htype : type.definition = .choice alternatives) (htag : (tag, .none) ∈ alternatives) :
      Conforms (.named type) (.string tag)
  | value {type : TypeName} {alternatives : List (String × Content)} {tag : String} {schema : Schema} {j : Json}
      (htype : type.definition = .choice alternatives) (htag : (tag, .value schema) ∈ alternatives)
      (h : Conforms schema j) : Conforms (.named type) (.tagged tag j)
  | fields {type : TypeName} {alternatives : List (String × Content)} {tag : String} {fs : List (String × Schema)}
      {js : List (String × Json)} (htype : type.definition = .choice alternatives)
      (htag : (tag, .fields fs) ∈ alternatives) (h : ConformsAll fs js) :
      Conforms (.named type) (.tagged tag (.object js))

/-- Fields have the names and the values of a schema, in order. -/
inductive ConformsAll : List (String × Schema) → List (String × Json) → Prop
  | nil : ConformsAll [] []
  | cons {key : String} {schema : Schema} {j : Json} {fs : List (String × Schema)} {js : List (String × Json)}
      (h : Conforms schema j) (hs : ConformsAll fs js) : ConformsAll ((key, schema) :: fs) ((key, j) :: js)

end

end Json

open Json (Conforms)

theorem Position.conforms (p : Position) : Conforms (.named .position) p.toJson :=
  .structure rfl (.cons (.number _) (.cons (.number _) .nil))

theorem Ident.conforms (id : Ident) : Conforms (.named .ident) id.toJson :=
  .structure rfl (.cons (.text _) (.cons id.pos.conforms .nil))

theorem Literal.conforms (lit : Literal) : Conforms (.named .literal) lit.toJson :=
  .structure rfl (.cons (.text _) (.cons lit.pos.conforms .nil))

theorem Operator.conforms (op : Operator) : Conforms (.named .operator) op.toJson :=
  .label rfl (by cases op <;> decide)

theorem AssignKind.conforms (kind : AssignKind) : Conforms (.named .assignKind) kind.toJson := by
  cases kind <;> exact .label rfl (by decide)

theorem Storage.conforms (storage : Storage) : Conforms (.named .storage) storage.toJson := by
  cases storage <;> exact .label rfl (by decide)

theorem Direction.conforms (direction : Direction) : Conforms (.named .direction) direction.toJson := by
  cases direction <;> exact .label rfl (by decide)

theorem Clock.conforms (clock : Clock) : Conforms (.named .clock) clock.toJson :=
  .structure rfl (.cons clock.name.conforms (.cons (.flag _) .nil))

theorem Clock.conforms_option (clock : Option Clock) :
    Conforms (.optional (.named .clock)) (Clock.optionToJson clock) := by
  cases clock with
  | none => exact .absent _
  | some clock => exact .present clock.conforms

theorem Signal.conforms (signal : Signal) : Conforms (.named .signal) signal.toJson :=
  .structure rfl (.cons signal.name.conforms (.cons (.number _) (.cons signal.storage.conforms
    (.cons (Clock.conforms_option signal.clock) .nil))))

theorem Port.conforms (p : Port) : Conforms (.named .port) p.toJson :=
  .structure rfl (.cons p.signal.conforms (.cons p.direction.conforms .nil))

theorem Port.conforms_list (ps : List Port) : Conforms (.list (.named .port)) (.array (ps.map Port.toJson)) := by
  refine .list fun j hj => ?_
  obtain ⟨p, -, rfl⟩ := List.mem_map.mp hj
  exact p.conforms

mutual

theorem Expr.conforms : ∀ e : Expr, Conforms (.named .expr) e.toJson
  | .malformed pos => .fields rfl (by decide) (.cons pos.conforms .nil)
  | .ident id => .value rfl (by decide) id.conforms
  | .literal lit => .value rfl (by decide) lit.conforms
  | .paren inner start stop =>
    .fields rfl (by decide) (.cons inner.conforms (.cons start.conforms (.cons stop.conforms .nil)))
  | .call func args pos =>
    .fields rfl (by decide)
      (.cons func.conforms (.cons (.list (Expr.conforms_list args)) (.cons pos.conforms .nil)))
  | .binary op lhs rhs pos =>
    .fields rfl (by decide)
      (.cons lhs.conforms (.cons rhs.conforms (.cons op.conforms (.cons pos.conforms .nil))))

theorem Expr.conforms_list : ∀ es : List Expr, ∀ j ∈ Expr.listToJson es, Conforms (.named .expr) j
  | [] => fun _ hj => nomatch hj
  | e :: es => List.forall_mem_cons.mpr ⟨e.conforms, Expr.conforms_list es⟩

end

theorem NamedValue.conforms (v : NamedValue) : Conforms (.named .namedValue) v.toJson :=
  .structure rfl (.cons v.name.conforms (.cons (.text _) (.cons v.value.conforms .nil)))

mutual

theorem Stmt.conforms : ∀ s : Stmt, Conforms (.named .stmt) s.toJson
  | .malformed pos => .fields rfl (by decide) (.cons pos.conforms .nil)
  | .decl d pos => .fields rfl (by decide) (.cons (Decl.conforms d) (.cons pos.conforms .nil))
  | .expr e pos => .fields rfl (by decide) (.cons e.conforms (.cons pos.conforms .nil))
  | .assign kind lhs rhs pos =>
    .fields rfl (by decide)
      (.cons kind.conforms (.cons lhs.conforms (.cons rhs.conforms (.cons pos.conforms .nil))))
  | .sequence clock inner pos =>
    .fields rfl (by decide) (.cons clock.conforms (.cons inner.conforms (.cons pos.conforms .nil)))
  | .result value pos => .fields rfl (by decide) (.cons value.conforms (.cons pos.conforms .nil))
  | .block b => .value rfl (by decide) (Block.conforms b)
  | .conditional cond body alternative pos =>
    .fields rfl (by decide) (.cons cond.conforms (.cons body.conforms
      (.cons (Stmt.conforms_option alternative) (.cons pos.conforms .nil))))
  | .loop cond body pos =>
    .fields rfl (by decide) (.cons cond.conforms (.cons body.conforms (.cons pos.conforms .nil)))

theorem Stmt.conforms_option : ∀ s : Option Stmt, Conforms (.optional (.named .stmt)) (Stmt.optionToJson s)
  | none => .absent _
  | some s => .present s.conforms

theorem Stmt.conforms_list : ∀ ss : List Stmt, ∀ j ∈ Stmt.listToJson ss, Conforms (.named .stmt) j
  | [] => fun _ hj => nomatch hj
  | s :: ss => List.forall_mem_cons.mpr ⟨s.conforms, Stmt.conforms_list ss⟩

theorem Block.conforms : ∀ b : Block, Conforms (.named .block) (Block.toJson b)
  | ⟨stmts, start, stop⟩ =>
    .structure rfl (.cons (.list (Stmt.conforms_list stmts)) (.cons start.conforms (.cons stop.conforms .nil)))

theorem Module.conforms : ∀ m : Module, Conforms (.named .module) (Module.toJson m)
  | ⟨name, ports, body⟩ =>
    .structure rfl (.cons name.conforms (.cons (Port.conforms_list ports) (.cons (Block.conforms body) .nil)))

theorem Decl.conforms : ∀ d : Decl, Conforms (.named .decl) (Decl.toJson d)
  | .value v => .value rfl (by decide) v.conforms
  | .signal s => .value rfl (by decide) s.conforms
  | .port p => .value rfl (by decide) p.conforms
  | .submodule m => .value rfl (by decide) (Module.conforms m)

end

/-! ## Decoding what was encoded -/

namespace Json

/-- Two steps of decoding that both succeed. -/
theorem andThen {α β : Type} {x : Option α} {f : α → Option β} {a : α} {b : β} (hx : x = some a)
    (hf : f a = some b) : (x >>= f) = some b := by
  rw [hx]
  exact hf

variable {key : String} {fields : List (String × Json)}

theorem text?_of_field {s : String} (h : field? key fields = some (.string s)) : text? key fields = some s := by
  rw [text?, h]

theorem flag?_of_field {b : Bool} (h : field? key fields = some (.bool b)) : flag? key fields = some b := by
  rw [flag?, h]

/-- A search through fields that decodes the first one with the name decodes what is found under
that name. -/
theorem search_of_field {α : Type} {search : List (String × Json) → Option α} {decode : Json → Option α}
    (hsearch : ∀ name value rest,
      search ((name, value) :: rest) = if name = key then decode value else search rest)
    {j : Json} (h : field? key fields = some j) : search fields = decode j := by
  induction fields with
  | nil => cases h
  | cons entry fields ih =>
    obtain ⟨name, value⟩ := entry
    rw [hsearch]
    by_cases hname : name = key
    · subst hname
      rw [field?, List.lookup_cons_self] at h
      rw [if_pos rfl, Option.some.inj h]
    · have hne : (key == name) = false := by simpa using Ne.symm hname
      rw [field?, List.lookup_cons, hne] at h
      rw [if_neg hname]
      exact ih h

end Json

section
open Json
variable {key : String} {fields : List (String × Json)}

theorem Position.ofField?_toJson {p : Position} (h : field? key fields = some p.toJson) :
    Position.ofField? key fields = some p := by
  rw [Position.ofField?, h]
  rfl

theorem Ident.ofField?_toJson {id : Ident} (h : field? key fields = some id.toJson) :
    Ident.ofField? key fields = some id := by
  rw [Ident.ofField?, h]
  rfl

theorem Operator.ofLabel?_label (op : Operator) : Operator.ofLabel? op.label = some op := by
  cases op <;> rfl

theorem AssignKind.ofField?_toJson {kind : AssignKind} (h : field? key fields = some kind.toJson) :
    AssignKind.ofField? key fields = some kind := by
  rw [AssignKind.ofField?, h]
  cases kind <;> rfl

theorem Storage.ofField?_toJson {storage : Storage} (h : field? key fields = some storage.toJson) :
    Storage.ofField? key fields = some storage := by
  rw [Storage.ofField?, h]
  cases storage <;> rfl

theorem Direction.ofField?_toJson {direction : Direction} (h : field? key fields = some direction.toJson) :
    Direction.ofField? key fields = some direction := by
  rw [Direction.ofField?, h]
  cases direction <;> rfl

theorem Clock.ofFields?_eq (clock : Clock) :
    Clock.ofFields? [("name", clock.name.toJson), ("negated", .bool clock.negated)] = some clock := by
  refine andThen (Ident.ofField?_toJson rfl) ?_
  refine andThen (flag?_of_field rfl) ?_
  rfl

theorem Clock.ofField?_toJson {clock : Clock} (h : field? key fields = some clock.toJson) :
    Clock.ofField? key fields = some clock := by
  rw [Clock.ofField?, h]
  exact clock.ofFields?_eq

theorem Clock.optionOfField?_toJson {clock : Option Clock} (h : field? key fields = some (Clock.optionToJson clock)) :
    Clock.optionOfField? key fields = some clock := by
  rw [Clock.optionOfField?, h]
  cases clock with
  | none => rfl
  | some clock => exact andThen clock.ofFields?_eq rfl

theorem Signal.ofJson?_toJson (signal : Signal) : Signal.ofJson? signal.toJson = some signal := by
  have hwidth {fields : List (String × Json)} (h : field? "width" fields = some (.number signal.width)) :
      Signal.widthOfField? "width" fields = some signal.width := by
    rw [Signal.widthOfField?, h]
  refine andThen (Ident.ofField?_toJson rfl) ?_
  refine andThen (hwidth rfl) ?_
  refine andThen (Storage.ofField?_toJson rfl) ?_
  refine andThen (Clock.optionOfField?_toJson rfl) ?_
  rfl

theorem Port.ofFields?_eq (p : Port) :
    Port.ofFields? [("signal", p.signal.toJson), ("direction", p.direction.toJson)] = some p := by
  refine andThen p.signal.ofJson?_toJson ?_
  refine andThen (Direction.ofField?_toJson rfl) ?_
  rfl

theorem Port.ofItems?_toJson (ps : List Port) : Port.ofItems? (ps.map Port.toJson) = some ps := by
  induction ps with
  | nil => rfl
  | cons p ps ih =>
    refine andThen p.ofFields?_eq ?_
    refine andThen ih ?_
    rfl

theorem Port.listOfField?_toJson {ps : List Port} (h : field? key fields = some (.array (ps.map Port.toJson))) :
    Port.listOfField? key fields = some ps := by
  rw [Port.listOfField?, h]
  exact Port.ofItems?_toJson ps

theorem Expr.ofField?_of_field {j : Json} (h : field? key fields = some j) :
    Expr.ofField? key fields = Expr.ofJson? j :=
  search_of_field (fun _ _ _ => rfl) h

theorem Expr.listOfField?_of_field {items : List Json} (h : field? key fields = some (.array items)) :
    Expr.listOfField? key fields = Expr.ofItems? items := by
  show Expr.listOfField? key fields = Expr.listOfJson? (.array items)
  exact search_of_field (fun _ _ _ => rfl) h

theorem Stmt.ofField?_of_field {j : Json} (h : field? key fields = some j) :
    Stmt.ofField? key fields = Stmt.ofJson? j :=
  search_of_field (fun _ _ _ => rfl) h

theorem Stmt.listOfField?_of_field {items : List Json} (h : field? key fields = some (.array items)) :
    Stmt.listOfField? key fields = Stmt.ofItems? items := by
  show Stmt.listOfField? key fields = Stmt.listOfJson? (.array items)
  exact search_of_field (fun _ _ _ => rfl) h

/-- An alternative that is there, or null where there is none. -/
def Stmt.optionOfJson? : Json → Option (Option Stmt)
  | .null => some none
  | j => some <$> Stmt.ofJson? j

/-- No statement is encoded as null. -/
theorem Stmt.optionOfJson?_toJson (s : Stmt) : Stmt.optionOfJson? s.toJson = some <$> Stmt.ofJson? s.toJson := by
  cases s <;> rfl

theorem Stmt.optionOfField?_of_field {j : Json} (h : field? key fields = some j) :
    Stmt.optionOfField? key fields = Stmt.optionOfJson? j :=
  search_of_field (fun _ value _ => by cases value <;> rfl) h

theorem Block.ofField?_of_field {j : Json} (h : field? key fields = some j) :
    Block.ofField? key fields = Block.ofJson? j :=
  search_of_field (fun _ _ _ => rfl) h

theorem Decl.ofField?_of_field {j : Json} (h : field? key fields = some j) :
    Decl.ofField? key fields = Decl.ofJson? j :=
  search_of_field (fun _ _ _ => rfl) h

theorem NamedValue.ofFields?_eq (v : NamedValue) (hvalue : Expr.ofJson? v.value.toJson = some v.value) :
    NamedValue.ofFields? [("name", v.name.toJson), ("ty", .string v.type), ("value", v.value.toJson)] = some v := by
  refine andThen (Ident.ofField?_toJson rfl) ?_
  refine andThen (text?_of_field rfl) ?_
  refine andThen ((Expr.ofField?_of_field rfl).trans hvalue) ?_
  rfl

end

open Json (andThen text?_of_field)

-- In each case the fields are taken in the order of the decoder; `rfl` finds a field by its name.
mutual

theorem Expr.ofJson?_toJson : ∀ e : Expr, Expr.ofJson? e.toJson = some e
  | .malformed pos => by
    refine andThen (Position.ofField?_toJson rfl) ?_
    rfl
  | .ident id => rfl
  | .literal lit => rfl
  | .paren inner start stop => by
    have hinner : Expr.ofJson? inner.toJson = some inner := inner.ofJson?_toJson
    refine andThen ((Expr.ofField?_of_field rfl).trans hinner) ?_
    refine andThen (Position.ofField?_toJson rfl) ?_
    refine andThen (Position.ofField?_toJson rfl) ?_
    rfl
  | .call func args pos => by
    have hargs : Expr.ofItems? (Expr.listToJson args) = some args := Expr.ofItems?_toJson args
    refine andThen (Ident.ofField?_toJson rfl) ?_
    refine andThen ((Expr.listOfField?_of_field rfl).trans hargs) ?_
    refine andThen (Position.ofField?_toJson rfl) ?_
    rfl
  | .binary op lhs rhs pos => by
    have hlhs : Expr.ofJson? lhs.toJson = some lhs := lhs.ofJson?_toJson
    have hrhs : Expr.ofJson? rhs.toJson = some rhs := rhs.ofJson?_toJson
    refine andThen (andThen (text?_of_field rfl) op.ofLabel?_label) ?_
    refine andThen ((Expr.ofField?_of_field rfl).trans hlhs) ?_
    refine andThen ((Expr.ofField?_of_field rfl).trans hrhs) ?_
    refine andThen (Position.ofField?_toJson rfl) ?_
    rfl

theorem Expr.ofItems?_toJson : ∀ es : List Expr, Expr.ofItems? (Expr.listToJson es) = some es
  | [] => rfl
  | e :: es => by
    refine andThen e.ofJson?_toJson ?_
    refine andThen (Expr.ofItems?_toJson es) ?_
    rfl

end

mutual

theorem Stmt.ofJson?_toJson : ∀ s : Stmt, Stmt.ofJson? s.toJson = some s
  | .malformed pos => by
    refine andThen (Position.ofField?_toJson rfl) ?_
    rfl
  | .decl d pos => by
    have hdecl : Decl.ofJson? (Decl.toJson d) = some d := Decl.ofJson?_toJson d
    refine andThen ((Decl.ofField?_of_field rfl).trans hdecl) ?_
    refine andThen (Position.ofField?_toJson rfl) ?_
    rfl
  | .expr e pos => by
    refine andThen ((Expr.ofField?_of_field rfl).trans e.ofJson?_toJson) ?_
    refine andThen (Position.ofField?_toJson rfl) ?_
    rfl
  | .assign kind lhs rhs pos => by
    refine andThen (AssignKind.ofField?_toJson rfl) ?_
    refine andThen (Ident.ofField?_toJson rfl) ?_
    refine andThen ((Expr.ofField?_of_field rfl).trans rhs.ofJson?_toJson) ?_
    refine andThen (Position.ofField?_toJson rfl) ?_
    rfl
  | .sequence clock inner pos => by
    have hinner : Stmt.ofJson? inner.toJson = some inner := inner.ofJson?_toJson
    refine andThen (Clock.ofField?_toJson rfl) ?_
    refine andThen ((Stmt.ofField?_of_field rfl).trans hinner) ?_
    refine andThen (Position.ofField?_toJson rfl) ?_
    rfl
  | .result value pos => by
    refine andThen ((Expr.ofField?_of_field rfl).trans value.ofJson?_toJson) ?_
    refine andThen (Position.ofField?_toJson rfl) ?_
    rfl
  | .block ⟨stmts, start, stop⟩ => by
    have hstmts : Stmt.ofItems? (Stmt.listToJson stmts) = some stmts := Stmt.ofItems?_toJson stmts
    refine andThen ((Stmt.listOfField?_of_field rfl).trans hstmts) ?_
    refine andThen (Position.ofField?_toJson rfl) ?_
    refine andThen (Position.ofField?_toJson rfl) ?_
    rfl
  | .conditional cond body alternative pos => by
    have hbody : Stmt.ofJson? body.toJson = some body := body.ofJson?_toJson
    refine andThen ((Expr.ofField?_of_field rfl).trans cond.ofJson?_toJson) ?_
    refine andThen ((Stmt.ofField?_of_field rfl).trans hbody) ?_
    refine andThen (Stmt.optionOfField?_toJson alternative rfl) ?_
    refine andThen (Position.ofField?_toJson rfl) ?_
    rfl
  | .loop cond body pos => by
    have hbody : Stmt.ofJson? body.toJson = some body := body.ofJson?_toJson
    refine andThen ((Expr.ofField?_of_field rfl).trans cond.ofJson?_toJson) ?_
    refine andThen ((Stmt.ofField?_of_field rfl).trans hbody) ?_
    refine andThen (Position.ofField?_toJson rfl) ?_
    rfl

theorem Stmt.optionOfField?_toJson : ∀ (s : Option Stmt) {key : String} {fields : List (String × Json)},
    Json.field? key fields = some (Stmt.optionToJson s) → Stmt.optionOfField? key fields = some s
  | none, _, _, h => Stmt.optionOfField?_of_field h
  | some s, _, _, h => by
    rw [Stmt.optionOfField?_of_field h, Stmt.optionToJson, Stmt.optionOfJson?_toJson, s.ofJson?_toJson]
    rfl

theorem Stmt.ofItems?_toJson : ∀ ss : List Stmt, Stmt.ofItems? (Stmt.listToJson ss) = some ss
  | [] => rfl
  | s :: ss => by
    refine andThen s.ofJson?_toJson ?_
    refine andThen (Stmt.ofItems?_toJson ss) ?_
    rfl

theorem Block.ofJson?_toJson : ∀ b : Block, Block.ofJson? (Block.toJson b) = some b
  | ⟨stmts, start, stop⟩ => by
    have hstmts : Stmt.ofItems? (Stmt.listToJson stmts) = some stmts := Stmt.ofItems?_toJson stmts
    refine andThen ((Stmt.listOfField?_of_field rfl).trans hstmts) ?_
    refine andThen (Position.ofField?_toJson rfl) ?_
    refine andThen (Position.ofField?_toJson rfl) ?_
    rfl

theorem Module.ofJson?_toJson : ∀ m : Module, Module.ofJson? (Module.toJson m) = some m
  | ⟨name, ports, body⟩ => by
    have hbody : Block.ofJson? (Block.toJson body) = some body := Block.ofJson?_toJson body
    refine andThen (Ident.ofField?_toJson rfl) ?_
    refine andThen (Port.listOfField?_toJson rfl) ?_
    refine andThen ((Block.ofField?_of_field rfl).trans hbody) ?_
    rfl

theorem Decl.ofJson?_toJson : ∀ d : Decl, Decl.ofJson? (Decl.toJson d) = some d
  | .value v => andThen (v.ofFields?_eq v.value.ofJson?_toJson) rfl
  | .signal s => andThen s.ofJson?_toJson rfl
  | .port p => andThen p.ofFields?_eq rfl
  | .submodule m => andThen (Module.ofJson?_toJson m) rfl

end

theorem Module.listOfJson?_toJson (ms : List Module) : Module.listOfJson? (Module.listToJson ms) = some ms := by
  have hitems : (ms.map Module.toJson).mapM Module.ofJson? = some ms := by
    induction ms with
    | nil => rfl
    | cons m ms ih =>
      rw [List.map_cons, List.mapM_cons, Module.ofJson?_toJson, ih]
      rfl
  exact hitems

/-- The JSON form of modules loses nothing: it is the form that the schema describes, decoding
gives the modules back, and so modules with the same value are the same. -/
theorem module_json_loses_nothing (ms : List Module) :
    Conforms (.list (.named .module)) (Module.listToJson ms) ∧
      Module.listOfJson? (Module.listToJson ms) = some ms ∧
      ∀ ms', Module.listToJson ms' = Module.listToJson ms ↔ ms' = ms := by
  refine ⟨?_, Module.listOfJson?_toJson ms, ?_⟩
  · refine .list fun j hj => ?_
    obtain ⟨m, -, rfl⟩ := List.mem_map.mp hj
    exact Module.conforms m
  · intro ms'
    constructor
    · intro h
      have hdecoded := congrArg Module.listOfJson? h
      rw [Module.listOfJson?_toJson, Module.listOfJson?_toJson] at hdecoded
      exact Option.some.inj hdecoded
    · intro h
      rw [h]

end Gateware

import Gateware.Proofs.Lowering.Runs
import Gateware.Proofs.Naming.Namespace
import Gateware.Proofs.Reading.Relocation
import Gateware.Proofs.Structure.Shape

/- The text of a module and the structure of its source.

   `names` are the names under which the declarations of a module are emitted, in the order of the
   source, ports first. With them the statements of the source have shapes of their own. This file

   1. defines these shapes (`Stmt.outer`, `Stmt.inner`, `ModuleOf.shapes`): blocks at the level of a
      module are spliced in, declarations inside procedures stand elsewhere, and a body that is no
      block is read as a block of one statement;
   2. proves by induction on runs that lowering emits lines which are read as these shapes
      (`Contents.shapes_eq`, `Items.reads`): the scope of a run is the one that the shapes are taken
      in, and the next declaration is the one whose number is the number of names taken so far;
   3. says how the lines of a module are laid out (`LaidOut`) and proves it of every module that is
      lowered (`laidOut_of_yields`);
   4. concludes for the text of modules that are read and can be emitted (`emit_lays_out`), and shows
      what of a declaration is not in the text (`declarations_not_recovered`). -/
namespace Gateware

/-! ## Shapes of the source -/

namespace Scope

/-- The text of an expression under the names in reach. -/
def spell (scope : Scope) (e : Expr) : String :=
  match e.lower scope with
  | .ok v => v.text
  | .error _ => ""

/-- The emitted name of what an identifier stands for. -/
def emitted (scope : Scope) (id : Ident) : String := ((scope.lookup id.name).map (·.emitted)).getD ""

def bind (scope : Scope) (signal : Signal) (name : String) : Scope :=
  { scope with innermost := ⟨signal, name⟩ :: scope.innermost }

/-- The scope after a statement, which may be the declaration with the given number. -/
def after (scope : Scope) (names : List String) (number : Nat) : Stmt → Scope
  | .decl (.signal signal) _ => scope.bind signal (names.getD number "")
  | _ => scope

end Scope

namespace Stmt

mutual

/-- What stands inside the body that a statement is: the statements of a block, or the one
statement. Declarations stand elsewhere. `number` counts the declarations before the
statement. -/
def inner (names : List String) (scope : Scope) (number : Nat) : Stmt → List Shape
  | .assign kind lhs rhs _ => [.assign kind (scope.emitted lhs) (scope.spell rhs)]
  | .conditional cond body alternative _ =>
    [.conditional (scope.spell cond) (body.inner names scope.enter number)
      (alternativeShape names scope (number + body.declarations.length) alternative)]
  | .block ⟨stmts, _, _⟩ => allInner names scope number stmts
  | _ => []

/-- The shapes of statements in a row inside a procedure. -/
def allInner (names : List String) (scope : Scope) (number : Nat) : List Stmt → List Shape
  | [] => []
  | x :: xs =>
    (if x.isBlock then [.block (x.inner names scope.enter number)] else x.inner names scope number) ++
      allInner names (scope.after names number x) (number + x.declarations.length) xs

/-- The shape of the alternative of a condition: a condition again, or else a block. -/
def alternativeShape (names : List String) (scope : Scope) (number : Nat) : Option Stmt → Option Shape
  | none => none
  | some (.conditional cond body alternative _) =>
    some (.conditional (scope.spell cond) (body.inner names scope.enter number)
      (alternativeShape names scope (number + body.declarations.length) alternative))
  | some x => some (.block (x.inner names scope.enter number))

end

mutual

/-- The shapes of a statement at the level of a module, where blocks are spliced in. -/
def outer (names : List String) (scope : Scope) (number : Nat) : Stmt → List Shape
  | .decl (.signal signal) _ =>
    [.declaration signal.isRegister (Verilog.topBit signal.width) (names.getD number "")]
  | .assign kind lhs rhs _ => [.assign kind (scope.emitted lhs) (scope.spell rhs)]
  | .sequence clock body _ =>
    [.sequence ⟨if clock.negated then .falling else .rising, scope.emitted clock.name⟩
      (body.inner names scope.enter number)]
  | .conditional cond body alternative pos => (Stmt.conditional cond body alternative pos).inner names scope number
  | .block ⟨stmts, _, _⟩ => allOuter names scope.enter number stmts
  | _ => []

/-- The shapes of statements in a row at the level of a module. -/
def allOuter (names : List String) (scope : Scope) (number : Nat) : List Stmt → List Shape
  | [] => []
  | x :: xs => x.outer names scope number ++
      allOuter names (scope.after names number x) (number + x.declarations.length) xs

end

end Stmt

/-- The shapes of the body of a module. The ports keep their names and have a frame of their
own; `names` are those of the declarations in the body. -/
def ModuleOf.shapes (m : Module) (names : List String) : List Shape :=
  let ports := m.ports.foldl (fun scope p => scope.bind p.signal p.signal.name.name) Scope.root.enter
  Stmt.allOuter (m.ports.map (·.signal.name.name) ++ names) ports.enter m.ports.length m.body.stmts

/-! ## Runs and shapes -/

namespace Lowering

theorem spell_of_lower {scope : Scope} {e : Expr} {v : Verilog.Expr} (h : e.lower scope = .ok v) :
    scope.spell e = v.text := by
  rw [Scope.spell, h]

theorem emitted_of_lookup {scope : Scope} {id : Ident} {b : Binding} (h : scope.lookup id.name = some b) :
    scope.emitted id = b.emitted := by
  rw [Scope.emitted, h]
  rfl

section
variable {names : List String} {s s₁ s' : State}

/-- The names of a state are the first of all names. -/
def State.Names (names : List String) (s : State) : Prop := s.used.reverse <+: names

theorem State.Grows.names_before {n : Nat} (h : s.Grows n s') (hnames : s'.Names names) : s.Names names := by
  obtain ⟨new, -, hused⟩ := h.used
  refine List.IsPrefix.trans ?_ hnames
  rw [hused, List.reverse_append]
  exact List.prefix_append _ _

theorem State.Grows.length_used {n : Nat} (h : s.Grows n s') : s'.used.length = s.used.length + n := by
  obtain ⟨new, hnew, hused⟩ := h.used
  rw [hused, List.length_append, hnew, Nat.add_comm]

/-- The name that is taken next has the number of the names before it. -/
theorem getD_of_names {name : String} {used : List String} (h : (name :: used).reverse <+: names) :
    names.getD used.length "" = name := by
  obtain ⟨rest, rfl⟩ := h
  simp [List.getD_eq_getElem?_getD]

theorem State.Names.declared {signal : Signal} (h : (s.declared signal).Names names) :
    names.getD s.used.length "" = freshName s.used signal.name.name :=
  getD_of_names h

/-- A statement that is no block leaves the scope in which the next one is taken. -/
theorem Contents.scope_after {procedure : Procedure} {x : Stmt} {vs : List Verilog.Stmt}
    (h : Contents procedure x s vs s') (hblock : x.isBlock = false) (hnames : s'.Names names) :
    s'.scope = s.scope.after names s.used.length x := by
  cases h with
  | decl =>
    rw [Scope.after, State.Names.declared hnames]
    rfl
  | assign => rfl
  | conditional _ _ hbranches => exact hbranches.scope_eq
  | block => cases hblock

end

mutual

theorem Contents.shapes_eq {procedure : Procedure} {names : List String} : ∀ {x : Stmt} {s s' : State}
    {vs : List Verilog.Stmt}, Contents procedure x s vs s' → s'.Names names →
    Verilog.Stmt.shapes vs = x.inner names s.scope s.used.length
  | _, _, _, _, .decl, _ => rfl
  | .assign kind .., _, _, _, .assign htarget hvalue _ _, _ => by
    rw [Stmt.inner, emitted_of_lookup htarget, spell_of_lower hvalue]
    cases kind <;> rfl
  | _, _, _, _, .conditional hcond hbody hbranches, hnames => by
    have hvs := hbody.shapes_eq (hbranches.grows.names_before hnames)
    have hothers := hbranches.shapes_eq hnames
    rw [hbody.grows.leave.length_used] at hothers
    rw [Stmt.inner, Verilog.Stmt.shapes, Verilog.Stmt.shape, hvs, hothers, spell_of_lower hcond]
    rfl
  | _, _, _, _, .block h, hnames => by
    rw [Stmt.inner]
    exact h.shapes_eq hnames

theorem AllContents.shapes_eq {procedure : Procedure} {names : List String} : ∀ {xs : List Stmt} {s s' : State}
    {vs : List Verilog.Stmt}, AllContents procedure xs s vs s' → s'.Names names →
    Verilog.Stmt.shapes vs = Stmt.allInner names s.scope s.used.length xs
  | _, _, _, _, .nil, _ => rfl
  | _, _, _, _, .block h hrest, hnames => by
    have hvs := h.shapes_eq (hrest.grows.names_before hnames)
    have hws := hrest.shapes_eq hnames
    rw [h.grows.leave.length_used] at hws
    rw [Verilog.Stmt.shapes, Verilog.Stmt.shape, hvs, hws, Stmt.allInner]
    rfl
  | _, _, _, _, .cons hblock h hrest, hnames => by
    have hnames₁ := hrest.grows.names_before hnames
    have hvs := h.shapes_eq hnames₁
    have hws := hrest.shapes_eq hnames
    rw [h.scope_after hblock hnames₁, h.grows.length_used] at hws
    rw [Verilog.Stmt.shapes_append, hvs, hws, Stmt.allInner, if_neg (by simp [hblock])]

theorem Alternative.shapes_eq {procedure : Procedure} {names : List String} : ∀ {x : Option Stmt} {s s' : State}
    {b : Branches}, Alternative procedure x s b s' → s'.Names names →
    Verilog.Stmt.othersShape (Verilog.Stmt.otherwiseShape b.2) b.1 = Stmt.alternativeShape names s.scope s.used.length x
  | _, _, _, _, .none, _ => rfl
  | _, _, _, _, .conditional hcond hbody hbranches, hnames => by
    have hvs := hbody.shapes_eq (hbranches.grows.names_before hnames)
    have hothers := hbranches.shapes_eq hnames
    rw [hbody.grows.leave.length_used] at hothers
    rw [Stmt.alternativeShape, Verilog.Stmt.othersShape, hvs, hothers, spell_of_lower hcond]
    rfl
  | some x, _, _, _, .other hx h, hnames => by
    have hvs := h.shapes_eq hnames
    rw [Verilog.Stmt.othersShape, Verilog.Stmt.otherwiseShape, hvs]
    cases x with
    | conditional => cases hx
    | _ => rfl

end

open Verilog (Reads Reading)

/-- A procedure with a body between `begin` and `end`. -/
theorem reads_always {sensitivity : Verilog.Sensitivity} {vs : List Verilog.Stmt} {shape : Shape}
    (h : Reading.closed (.procedure sensitivity) (Verilog.Stmt.shapes vs) = some shape) (shapes : List Shape) :
    Reads (.top shapes) (Verilog.Item.always sensitivity vs).forms (.top (shapes ++ [shape])) := by
  have hbody := Verilog.Stmt.reads_allForms vs (o := .procedure sensitivity) (.top shapes) [] (by simp)
  refine .cons rfl (hbody.append (Verilog.reads_singleton ?_))
  rw [Reading.step_inside (by simp), Reading.stepInside, List.nil_append, h]
  rfl

theorem Items.scope_after {names : List String} {x : Stmt} {s s' : State} {is : List Verilog.Item}
    (h : Items x s is s') (hnames : s'.Names names) : s'.scope = s.scope.after names s.used.length x := by
  cases h with
  | decl =>
    rw [Scope.after, hnames.declared]
    rfl
  | conditional h => exact h.scope_after rfl hnames
  | _ => rfl

mutual

theorem Items.reads {names : List String} : ∀ {x : Stmt} {s s' : State} {is : List Verilog.Item},
    Items x s is s' → s'.Names names → ∀ shapes : List Shape,
    Reads (.top shapes) (is.flatMap Verilog.Item.forms) (.top (shapes ++ x.outer names s.scope s.used.length))
  | _, _, _, _, .decl, hnames, shapes => by
    rw [Stmt.outer, hnames.declared]
    exact Verilog.reads_singleton rfl
  | _, _, _, _, .plain htarget hvalue _, _, shapes => by
    rw [Stmt.outer, emitted_of_lookup htarget, spell_of_lower hvalue]
    exact Verilog.reads_singleton rfl
  | _, _, _, _, .registered htarget hvalue _ _ _, _, shapes => by
    rw [Stmt.outer, emitted_of_lookup htarget, spell_of_lower hvalue]
    exact .cons rfl (Verilog.reads_singleton rfl)
  | _, _, _, _, .sequence hb h, hnames, shapes => by
    rw [Stmt.outer, emitted_of_lookup hb, List.flatMap_singleton]
    apply reads_always
    rw [h.shapes_eq hnames]
    rfl
  | _, _, _, _, .conditional h, hnames, shapes => by
    rw [Stmt.outer, ← h.shapes_eq hnames, List.flatMap_singleton]
    cases h with
    | conditional => exact reads_always rfl shapes
  | _, _, _, _, .block h, hnames, shapes => by
    rw [Stmt.outer]
    exact h.reads hnames shapes

theorem AllItems.reads {names : List String} : ∀ {xs : List Stmt} {s s' : State} {is : List Verilog.Item},
    AllItems xs s is s' → s'.Names names → ∀ shapes : List Shape,
    Reads (.top shapes) (is.flatMap Verilog.Item.forms) (.top (shapes ++ Stmt.allOuter names s.scope s.used.length xs))
  | _, _, _, _, .nil, _, shapes => by
    rw [Stmt.allOuter, List.append_nil]
    exact Verilog.reads_nil
  | x :: xs, s, _, _, .cons h hrest, hnames, shapes => by
    have hnames₁ := hrest.grows.names_before hnames
    have hothers := hrest.reads hnames (shapes ++ x.outer names s.scope s.used.length)
    rw [h.scope_after hnames₁, h.grows.length_used, List.append_assoc] at hothers
    rw [List.flatMap_append, Stmt.allOuter]
    exact (h.reads hnames₁ shapes).append hothers

end

/-! ## Modules -/

/-- Ports that keep their names. -/
theorem ports_kept {ps : List Port} {vs : List Verilog.Port} {s s' : State} (h : Yields (ports ps) s vs s')
    (hnames : vs.map (·.declaration.name) = ps.map (·.signal.name.name)) :
    vs = ps.map (fun p => ⟨p.direction, declarationOf p.signal p.signal.name.name⟩) ∧
      s'.scope = ps.foldl (fun scope p => scope.bind p.signal p.signal.name.name) s.scope ∧
      s'.used.length = s.used.length + ps.length := by
  induction ps generalizing s vs with
  | nil =>
    obtain ⟨rfl, rfl⟩ := yields_pure.mp h
    exact ⟨rfl, rfl, rfl⟩
  | cons p ps ih =>
    simp only [ports, yields_bind, yields_port, yields_pure] at h
    obtain ⟨_, _, ⟨-, rfl, rfl⟩, vs, s₁, hothers, rfl, rfl⟩ := h
    obtain ⟨hname, hrest⟩ : freshName s.used p.signal.name.name = p.signal.name.name ∧ _ := List.cons.inj hnames
    obtain ⟨hvs, hscope, hlength⟩ := ih hothers hrest
    refine ⟨?_, ?_, ?_⟩
    · rw [List.map_cons, ← hvs, hname]
    · rw [hscope, List.foldl_cons, State.declared, hname]
      rfl
    · rw [hlength, State.declared, List.length_cons, List.length_cons, Nat.add_right_comm, Nat.add_assoc]

end Lowering

namespace Verilog

/-- The statements of some lines, if they can all be read. -/
def readBody (ls : List Line) : Option (List Shape) := (ls.mapM Line.form?).bind readShapes

theorem readShapes_of_reads {fs : List Form} {shapes : List Shape} (h : Reads (.top []) fs (.top shapes)) :
    readShapes fs = some shapes := by
  rw [readShapes, h]

end Verilog

/-- The line of a port: its direction, its storage, its range if it has more than one bit,
and its name. All but the last one end with a comma. -/
def portLine (p : Port) (more : Bool) : Verilog.Line :=
  let storage := if p.signal.isRegister then " reg" else ""
  let range := if p.signal.width > 1 then s!" [{p.signal.width - 1}:0]" else ""
  let comma := if more then "," else ""
  ⟨1, Verilog.directionWord p.direction ++ storage ++ range ++ " " ++ p.signal.name.name ++ comma⟩

/-- The lines of the declarations inside procedures. -/
def ModuleOf.hoistedLines (m : Module) (names : List String) : List Verilog.Line :=
  let lines := List.zipWith Lowering.declarationOf (Stmt.allDeclarations m.body.stmts) names
  (Naming.select true lines (Stmt.allInProcedure m.body.stmts)).map fun d => ⟨1, d.text⟩

/-- Lines are laid out as a module is: its ports, the declarations inside its procedures, and
then its body, from which the statements of the source are read back. -/
structure LaidOut (m : Module) (names : List String) (ls body : List Verilog.Line) : Prop where
  length_eq : names.length = (Stmt.allDeclarations m.body.stmts).length
  nodup : (m.ports.map (·.signal.name.name) ++ names).Nodup
  lines_eq : ls = ⟨0, s!"module {m.name.name} ("⟩ ::
    (m.ports.mapIdx (fun i p => portLine p (i + 1 < m.ports.length)) ++ ⟨0, ");"⟩ ::
      (m.hoistedLines names ++ (body ++ [⟨0, "endmodule"⟩])))
  body_eq : Verilog.readBody body = some (m.shapes names)

theorem portLine_eq (p : Port) (more : Bool) : portLine p more =
    ⟨1, Verilog.Port.text ⟨p.direction, Lowering.declarationOf p.signal p.signal.name.name⟩ ++
      (if more then "," else "")⟩ :=
  rfl

theorem lines_ports (ps : List Port) :
    Verilog.Port.lines (ps.map fun p => ⟨p.direction, Lowering.declarationOf p.signal p.signal.name.name⟩) =
      ps.mapIdx fun i p => portLine p (i + 1 < ps.length) := by
  induction ps with
  | nil => rfl
  | cons p ps ih =>
    cases ps with
    | nil => simp [Verilog.Port.lines, portLine_eq]
    | cons q ps =>
      rw [List.mapIdx_cons, List.map_cons]
      refine congrArg₂ List.cons ?_ (ih.trans ?_)
      · simp [portLine_eq]
      · simp

/-- The lines of declarations are determined by what is declared and by the names. -/
theorem zipWith_declarationOf {signals : List Signal} {lines : List Verilog.Declaration}
    (h : List.Forall₂ Naming.Declares signals lines) :
    List.zipWith Lowering.declarationOf signals (lines.map (·.name)) = lines := by
  induction h with
  | nil => rfl
  | cons hline _ ih =>
    obtain ⟨hregister, hwidth⟩ := hline
    rw [List.map_cons, List.zipWith_cons_cons, ih, Lowering.declarationOf, ← hregister, ← hwidth]

open Lowering in
theorem laidOut_of_yields {m : Module} {v : Verilog.Module} {s' : State} (hworded : v.Worded)
    (h : Yields (Lowering.module m) State.initial v s') : ∃ names body, LaidOut m names v.lines body := by
  obtain ⟨lines, hbound, hused⟩ := Naming.bound_and_used_of_yields h
  obtain ⟨-, hkept⟩ := Naming.ordered_of_yields h
  obtain ⟨ps, s₁, is, s₂, hports, hitems, rfl, rfl⟩ := yields_module.mp h
  obtain ⟨hps, hscope, hlength⟩ := ports_kept hports hkept
  let names := (lines.drop m.ports.length).map (·.name)
  have hnames : lines.map (·.name) = m.ports.map (·.signal.name.name) ++ names := by
    rw [← hkept]
    nth_rewrite 1 [← List.take_append_drop m.ports.length lines]
    rw [List.map_append, ← hbound.ports_eq, List.map_map]
    rfl
  have hdeclares : List.Forall₂ Naming.Declares (Stmt.allDeclarations m.body.stmts) (lines.drop m.ports.length) := by
    have hdrop := List.forall₂_drop m.ports.length hbound.declares
    rw [ModuleOf.declarations, List.drop_left' (List.length_map _)] at hdrop
    exact hdrop
  refine ⟨names, is.flatMap (Verilog.Item.lines 1), ?_, ?_, ?_, ?_⟩
  · rw [List.length_map, hdeclares.length_eq]
  · rw [← hnames]
    exact hbound.nodup
  · rw [ModuleOf.hoistedLines, zipWith_declarationOf hdeclares, ← hbound.hoisted_eq, ← lines_ports, ← hps]
    simp [Verilog.Module.lines]
  · have hall : s₂.Names (m.ports.map (·.signal.name.name) ++ names) := by
      refine ⟨[], ?_⟩
      rw [List.append_nil, show s₂.used = _ from hused, List.reverse_reverse, hnames]
    have hreads := (allItems_of_yields m.body.stmts hitems).reads hall []
    rw [Verilog.readBody, Verilog.mapM_form?_of_has (Verilog.has_items hworded.items 1), Option.bind_some,
      Verilog.readShapes_of_reads hreads, hscope, hlength]
    simp [ModuleOf.shapes, State.initial]

/-- The text of modules that are read and can be emitted has the lines of each of them, with an
empty line between two modules and nothing else; these are the header with the ports, one
line for each declaration inside a procedure, and a body from which the statements of the
source are read back. -/
theorem emit_lays_out {source text : String} {ms ms' : List Module} (hparse : parse source = .ok ms)
    (hms' : ms' ⊆ ms) (hemit : (emit ms').result = .ok text) :
    text = String.intercalate "\n" ((Verilog.readModules text).map Verilog.linesText) ∧
      List.Forall₂ (fun m ls => ∃ names body, LaidOut m names ls body) ms' (Verilog.readModules text) := by
  obtain ⟨vs, hvs, hread, htext⟩ := exists_lines_of_emit (fun m hm => legible_of_parse hparse m (hms' hm)) hemit
  refine ⟨htext, ?_⟩
  rw [hread, List.forall₂_map_right_iff]
  refine hvs.imp ?_
  rintro m v ⟨hworded, s', hyields⟩
  exact laidOut_of_yields hworded hyields

/-- A text with a condition without alternative inside of one with an alternative, bodies that
are no blocks, blocks inside of procedures and outside of them, and a chain of conditions
in which a register has the name of a word that closes a block. -/
def nested : String :=
  "m(in c, in[4] d, out reg q @c) " ++ braced (
    "@!c if d " ++ braced (braced "reg q; q = d;" ++ "if q q = c;") ++ "else " ++ braced "q <- d;" ++
    braced "wire[2] q; q = d;" ++
    "if q " ++ braced "reg end; if end end = d;" ++ "else if d q = c; else " ++ braced (braced "q = d;") ++
    "q <- d;")

def nestedVerilog : String :=
  "module m (\n\tinput c,\n\tinput [3:0] d,\n\toutput reg q\n);\n\treg q_1;\n\treg end;\n" ++
  "\talways @(negedge c) begin\n\t\tif (d) begin\n\t\t\tbegin\n\t\t\t\tq_1 = d;\n\t\t\tend\n" ++
  "\t\t\tif (q) begin\n\t\t\t\tq = c;\n\t\t\tend\n\t\tend else begin\n\t\t\tq <= d;\n\t\tend\n\tend\n" ++
  "\twire [1:0] q_2;\n\tassign q_2 = d;\n\talways @(*) begin\n\t\tif (q) begin\n\t\t\tif (end) begin\n" ++
  "\t\t\t\tend = d;\n\t\t\tend\n\t\tend else if (d) begin\n\t\t\tq = c;\n\t\tend else begin\n" ++
  "\t\t\tbegin\n\t\t\t\tq = d;\n\t\t\tend\n\t\tend\n\tend\n" ++
  "\talways @(posedge c)\n\t\tq <= d;\nendmodule\n"

theorem emit_nested : ∃ ms, parse nested = .ok ms ∧ (emit ms).result = .ok nestedVerilog ∧
    nestedVerilog = String.intercalate "\n" ((Verilog.readModules nestedVerilog).map Verilog.linesText) ∧
      List.Forall₂ (fun m ls => ∃ names body, LaidOut m names ls body) ms (Verilog.readModules nestedVerilog) := by
  have hcompile : compile nested = .ok nestedVerilog := by decide +kernel
  obtain ⟨ms, hparse, hemit⟩ := compile_eq_ok_iff.mp hcompile
  exact ⟨ms, hparse, hemit, emit_lays_out hparse (List.Subset.refl ms) hemit⟩

/-- Modules that declare a register of one bit in different ways. -/
def oneRegister : List String :=
  ["reg q;", "reg[0] q;", "reg q @c;", "reg q @!c;", "wire q @c;", "wire[0] q @!c;"].map fun body =>
    "m(in c) " ++ braced body

/-- Whether a register is declared with `reg` or by its clock, which clock that is, and whether
its width is zero or one, is not in the text: the declarations all differ, wherever they
stand, and the text is the same. -/
theorem declarations_not_recovered :
    (oneRegister.map fun source => (parse source).toOption.map fun ms =>
      ms.map fun m => m.declarations.map (Signal.relocate fun _ => .start)).Nodup ∧
    ∀ source ∈ oneRegister, compile source = .ok "module m (\n\tinput c\n);\n\treg q;\nendmodule\n" :=
  ⟨by decide +kernel, by decide +kernel⟩

end Gateware

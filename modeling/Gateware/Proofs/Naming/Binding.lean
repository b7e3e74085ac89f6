import Gateware.Proofs.Lowering.Modules
import Gateware.Proofs.Naming.Procedure
import Gateware.Proofs.Printing.Lines

/- Emission preserves binding. Each declaration of a module gets one line, on which it
   has a name of its own; each place where a name is used gets the name on the line of
   the declaration that the source denotes there. This file

   1. follows lowering through the statements at the level of a module and places the line
      of each declaration: in the header, in place, or before the items if it is inside of
      a procedure (`Placed`, `items_aligned`);
   2. puts the parts of a module together (`Bound`, `bound_of_yields`), so that two uses
      have the same Verilog name exactly if they denote the same declaration (`NamesApart`);
   3. says the same of the text: what its lines declare, and the names that they use, are
      read back from the text alone (`BoundIn`, `ReadsAlike`);
   4. concludes for everything that is emitted (`emit_preserves_binding`).

   Reading the text back needs declared names and numbers to be words and expressions to be
   made of names, numbers and operators (`Legible`), which holds of every module that was
   read. The trees are compared for all modules, whatever their names. -/
namespace Gateware.Naming
open Lowering
open Verilog (Declaration Form Item Line)

/-- The lines of the declarations that are inside a procedure, or of those that are
not. -/
def select (inside : Bool) (lines : List Declaration) (places : List Bool) : List Declaration :=
  ((lines.zip places).filter (·.2 == inside)).map (·.1)

/-- A step at the level of a module adds the lines `new`, those inside of procedures to
the hoisted ones and the others to its items, and writes names that stand for the
occurrences. -/
structure Placed (lines new : List Declaration) (s s' : State) (places : List Bool)
    (occurrences : List Occurrence) (items : List Item) : Prop extends Traversed lines new s s' where
  length_eq : new.length = places.length
  hoisted_eq : s'.hoisted = s.hoisted ++ select true new places
  inPlace_eq : items.flatMap Item.declared = select false new places
  rendered : List.Forall₂ (Renders (lines ++ new)) occurrences (items.flatMap Item.names)

variable {lines new new' : List Declaration} {env : Env} {s s₁ s' : State}

theorem select_append {inside : Bool} {places places' : List Bool} (h : new.length = places.length) :
    select inside (new ++ new') (places ++ places') = select inside new places ++ select inside new' places' := by
  rw [select, List.zip_append h, List.filter_append, List.map_append]
  rfl

theorem select_true_replicate (new : List Declaration) :
    select true new (List.replicate new.length true) = new := by
  induction new with
  | nil => rfl
  | cons line new ih =>
    rw [List.length_cons, List.replicate_succ, select, List.zip_cons_cons, List.filter_cons_of_pos rfl,
      List.map_cons]
    exact congrArg (line :: ·) ih

theorem select_false_replicate (new : List Declaration) :
    select false new (List.replicate new.length true) = [] := by
  induction new with
  | nil => rfl
  | cons line new ih =>
    rw [List.length_cons, List.replicate_succ, select, List.zip_cons_cons, List.filter_cons_of_neg (by simp)]
    exact ih

/-! ## Items -/

theorem Placed.append {places places' : List Bool} {os os' : List Occurrence} {is is' : List Item}
    (h : Placed lines new s s₁ places os is) (h' : Placed (lines ++ new) new' s₁ s' places' os' is') :
    Placed lines (new ++ new') s s' (places ++ places') (os ++ os') (is ++ is') := by
  refine ⟨h.toTraversed.trans h'.toTraversed, ?_, ?_, ?_, ?_⟩
  · rw [List.length_append, List.length_append, h.length_eq, h'.length_eq]
  · rw [h'.hoisted_eq, h.hoisted_eq, select_append h.length_eq, List.append_assoc]
  · rw [List.flatMap_append, h.inPlace_eq, h'.inPlace_eq, select_append h.length_eq]
  · rw [List.flatMap_append]
    exact rendered_append h.rendered h'.rendered

/-- A step that declares nothing. -/
theorem Aligned.placed {os : List Occurrence} {is : List Item} (h : Aligned lines env s)
    (hdeclared : is.flatMap Item.declared = [])
    (hrendered : List.Forall₂ (Renders lines) os (is.flatMap Item.names)) :
    Placed lines [] s s [] os is := by
  refine ⟨h.refl, rfl, (List.append_nil _).symm, hdeclared, ?_⟩
  rw [List.append_nil]
  exact hrendered

/-- A procedure hoists all its lines. -/
theorem Lowered.placed {signals : List Signal} {os : List Occurrence} {names : List String}
    {sensitivity : Verilog.Sensitivity} {body : List Verilog.Stmt} (hdeclares : List.Forall₂ Declares signals new)
    (h : Lowered lines new s s' os names) (hnames : names = sensitivity.names ++ Verilog.Stmt.allNames body) :
    Placed lines new s s' (signals.map fun _ => true) os [.always sensitivity body] := by
  have hplaces : (signals.map fun _ => true) = List.replicate new.length true := by
    rw [List.map_const', hdeclares.length_eq]
  rw [hplaces]
  refine ⟨h.toTraversed, (List.length_replicate).symm, ?_, ?_, ?_⟩
  · rw [select_true_replicate]; exact h.hoisted_eq
  · rw [select_false_replicate]; rfl
  · rw [List.flatMap_singleton, Item.names, ← hnames]; exact h.rendered

/-- What lowering a statement at the level of a module does to the names. -/
def ItemsAligned (x : Stmt) : Prop :=
  ∀ ⦃lines : List Declaration⦄ ⦃env : Env⦄ ⦃s s' : State⦄ ⦃is : List Item⦄,
    Aligned lines env s → Yields (items x) s is s' →
    ∃ new, List.Forall₂ Declares x.declarations new ∧
      Placed lines new s s' x.inProcedure (x.occurrences env lines.length) is ∧
      Aligned (lines ++ new) (env.after lines.length x) s'

def AllItemsAligned (xs : List Stmt) : Prop :=
  ∀ ⦃lines : List Declaration⦄ ⦃env : Env⦄ ⦃s s' : State⦄ ⦃is : List Item⦄,
    Aligned lines env s → Yields (allItems xs) s is s' →
    ∃ new, List.Forall₂ Declares (Stmt.allDeclarations xs) new ∧
      Placed lines new s s' (Stmt.allInProcedure xs) (Stmt.allOccurrences env lines.length xs) is

theorem placed_assign {kind : AssignKind} {lhs : Ident} {rhs : Expr} {item : Item} (h : Aligned lines env s)
    (hv : Yields (continuous kind lhs rhs) s item s') :
    Placed lines [] s s' [] (env.occurrence lhs :: rhs.operands.map env.occurrence) [item] ∧ s' = s := by
  obtain ⟨target, value, htarget, hvalue, rfl, hkind⟩ := yields_continuous.mp hv
  have hrendered := List.Forall₂.cons (h.agrees.renders htarget) (h.agrees.renders_lower rhs hvalue)
  rw [← List.append_nil (target.emitted :: value.names)] at hrendered
  refine ⟨?_, rfl⟩
  cases kind with
  | plain =>
    obtain ⟨-, rfl⟩ := hkind
    exact h.placed rfl hrendered
  | registered =>
    -- the clock comes from the declaration of the target and is no occurrence
    obtain ⟨-, clock, trigger, -, -, rfl⟩ := hkind
    exact h.placed rfl hrendered

mutual

theorem items_aligned : ∀ x : Stmt, ItemsAligned x
  | .decl d pos, lines, env, s, s', is, h, hv => by
    simp only [items, yields_bind, yields_pure] at hv
    obtain ⟨line, s₁, hline, rfl, rfl⟩ := hv
    obtain ⟨signal, rfl, -⟩ := yields_declare.mp hline
    obtain ⟨hdeclares, haligned, henclosing, hhoisted⟩ := lowered_decl h hline
    refine ⟨[line], hdeclares, ⟨haligned.traversed henclosing, rfl, ?_, rfl, .nil⟩, haligned⟩
    rw [hhoisted]
    exact (List.append_nil _).symm
  | .assign kind lhs rhs pos, lines, env, s, s', is, h, hv => by
    simp only [items, yields_bind, yields_pure] at hv
    obtain ⟨item, s₁, hitem, rfl, rfl⟩ := hv
    obtain ⟨hplaced, rfl⟩ := placed_assign h hitem
    refine ⟨[], .nil, hplaced, ?_⟩
    rw [List.append_nil]
    exact h
  | .sequence clock inner pos, lines, env, s, s', is, h, hv => by
    simp only [items, yields_bind, yields_trigger, yields_pure] at hv
    obtain ⟨t, _, ⟨b, hb, rfl, rfl⟩, body, s₁, hbody, rfl, rfl⟩ := hv
    obtain ⟨new, hdeclares, hlowered, haligned⟩ := (contents_aligned .clocked inner).inFrame h hbody
    have hclock := h.lowered (.cons (h.agrees.renders hb) .nil)
    rw [← List.append_nil lines] at hlowered
    have hboth := hclock.append hlowered
    rw [List.nil_append, List.append_nil] at hboth
    exact ⟨new, hdeclares, hboth.placed hdeclares rfl, haligned⟩
  | .conditional cond body alternative pos, lines, env, s, s', is, h, hv => by
    rw [items] at hv
    obtain ⟨vs, s₁, hvs, hpure⟩ := yields_bind.mp hv
    obtain ⟨rfl, rfl⟩ := yields_pure.mp hpure
    obtain ⟨new, hdeclares, hlowered, haligned⟩ :=
      contents_aligned .combinational (.conditional cond body alternative pos) h hvs
    exact ⟨new, hdeclares, hlowered.placed hdeclares rfl, haligned rfl⟩
  | .block ⟨stmts, start, stop⟩, lines, env, s, s', is, h, hv => by
    rw [items] at hv
    obtain ⟨s₁, hs₁, rfl⟩ := yields_inFrame.mp hv
    obtain ⟨new, hdeclares, hplaced⟩ := allItems_aligned stmts h.enter hs₁
    obtain ⟨haligned, hscope⟩ := h.leave hplaced.toTraversed
    have htraversed := haligned.traversed (s := s) (congrArg Scope.enclosing hscope)
    exact ⟨new, hdeclares,
      ⟨htraversed, hplaced.length_eq, hplaced.hoisted_eq, hplaced.inPlace_eq, hplaced.rendered⟩, haligned⟩
  | .malformed pos, _, _, _, _, _, _, hv => by rw [items] at hv; exact absurd hv not_yields_fail
  | .expr e pos, _, _, _, _, _, _, hv => by rw [items] at hv; exact absurd hv not_yields_fail
  | .result value pos, _, _, _, _, _, _, hv => by rw [items] at hv; exact absurd hv not_yields_fail
  | .loop cond body pos, _, _, _, _, _, _, hv => by rw [items] at hv; exact absurd hv not_yields_fail

theorem allItems_aligned : ∀ xs : List Stmt, AllItemsAligned xs
  | [], lines, env, s, s', is, h, hv => by
    rw [allItems] at hv
    obtain ⟨rfl, rfl⟩ := yields_pure.mp hv
    exact ⟨[], .nil, h.placed rfl .nil⟩
  | x :: xs, lines, env, s, s', is, h, hv => by
    simp only [allItems, yields_bind, yields_pure] at hv
    obtain ⟨is₁, s₁, hfirst, is₂, s₂, hothers, rfl, rfl⟩ := hv
    obtain ⟨new, hdeclares, hplaced, haligned⟩ := items_aligned x h hfirst
    obtain ⟨new', hdeclares', hplaced'⟩ := allItems_aligned xs haligned hothers
    rw [List.length_append, ← hdeclares.length_eq] at hplaced'
    exact ⟨new ++ new', List.rel_append hdeclares hdeclares', hplaced.append hplaced'⟩

end

/-! ## Modules -/

theorem ports_aligned {ps : List Port} {vs : List Verilog.Port} (h : Aligned lines env s)
    (hv : Yields (ports ps) s vs s') :
    List.Forall₂ Declares (ps.map (·.signal)) (vs.map (·.declaration)) ∧
      s'.scope.enclosing = s.scope.enclosing ∧ s'.hoisted = s.hoisted ∧
      Aligned (lines ++ vs.map (·.declaration)) (env.afterPorts lines.length ps) s' := by
  induction ps generalizing lines env s vs with
  | nil =>
    obtain ⟨rfl, rfl⟩ := yields_pure.mp hv
    refine ⟨.nil, rfl, rfl, ?_⟩
    rw [List.map_nil, List.append_nil]
    exact h
  | cons p ps ih =>
    simp only [ports, yields_bind, yields_port, yields_pure] at hv
    obtain ⟨_, _, ⟨-, rfl, rfl⟩, vs, s₁, hothers, rfl, rfl⟩ := hv
    obtain ⟨hdeclares, henclosing, hhoisted, haligned⟩ := ih (h.declared p.signal) hothers
    refine ⟨.cons ⟨rfl, rfl⟩ hdeclares, henclosing, hhoisted, ?_⟩
    rw [List.length_append, List.length_singleton, List.append_assoc] at haligned
    exact haligned

/-- `lines` are the lines of the declarations of a module in its Verilog form, one for
each: those of the ports, those in place and the hoisted ones. Their names are all different, and each
name that is used stands for the declaration that its occurrence denotes. -/
structure Bound (m : Module) (v : Verilog.Module) (lines : List Declaration) : Prop where
  declares : List.Forall₂ Declares m.declarations lines
  ports_eq : v.ports.map (·.declaration) = lines.take m.ports.length
  inPlace_eq : v.items.flatMap Item.declared =
    select false (lines.drop m.ports.length) (Stmt.allInProcedure m.body.stmts)
  hoisted_eq : v.hoisted = select true (lines.drop m.ports.length) (Stmt.allInProcedure m.body.stmts)
  nodup : (lines.map (·.name)).Nodup
  rendered : List.Forall₂ (Renders lines) m.occurrences v.names

theorem initial_aligned : Aligned [] [[]] { State.initial with scope := State.initial.scope.enter } := by
  refine ⟨rfl, List.Pairwise.nil, ?_⟩
  intro name
  exact .none

/-- The names that a module takes are those on the lines of its declarations. -/
theorem bound_and_used_of_yields {m : Module} {v : Verilog.Module}
    (h : Yields (Lowering.module m) State.initial v s') :
    ∃ lines, Bound m v lines ∧ s'.used = (lines.map (·.name)).reverse := by
  obtain ⟨ps, s₁, is, s₂, hports, hitems, rfl, rfl⟩ := yields_module.mp h
  -- the ports fill the outer frame, and the body has a frame of its own
  obtain ⟨hdeclares, -, hhoisted, hports⟩ := ports_aligned initial_aligned hports
  obtain ⟨new, hdeclares', hplaced⟩ := allItems_aligned m.body.stmts hports.enter hitems
  have htake : m.ports.length = (ps.map (·.declaration)).length := by
    rw [← hdeclares.length_eq, List.length_map]
  rw [List.nil_append, ← htake] at hplaced
  refine ⟨ps.map (·.declaration) ++ new, ⟨List.rel_append hdeclares hdeclares', ?_, ?_, ?_, hplaced.nodup,
    hplaced.rendered⟩, hplaced.used_eq⟩
  · rw [htake, List.take_left']
    rfl
  · rw [htake, List.drop_left']
    · exact hplaced.inPlace_eq
    · rfl
  · rw [htake, List.drop_left']
    · have hhoisted' := hplaced.hoisted_eq
      rw [show ({ s₁ with scope := s₁.scope.enter } : State).hoisted = [] from hhoisted] at hhoisted'
      exact hhoisted'
    · rfl

theorem bound_of_yields {m : Module} {v : Verilog.Module}
    (h : Yields (Lowering.module m) State.initial v s') : ∃ lines, Bound m v lines := by
  obtain ⟨lines, hbound, -⟩ := bound_and_used_of_yields h
  exact ⟨lines, hbound⟩

/-- The lines of declarations in the order of a text: those of the ports, those inside of
procedures, and those in place. -/
def inTextOrder (m : Module) (lines : List Declaration) : List Declaration :=
  let places := Stmt.allInProcedure m.body.stmts
  let others := lines.drop m.ports.length
  lines.take m.ports.length ++ (select true others places ++ select false others places)

theorem Bound.declared_eq {m : Module} {v : Verilog.Module} (h : Bound m v lines) :
    v.declared = inTextOrder m lines := by
  rw [Verilog.Module.declared, h.ports_eq, h.hoisted_eq, h.inPlace_eq]
  rfl

/-- `lines` are the lines of the declarations of a module, one for each, and the lines of a
text declare these and nothing else. Their names are all different, and each name that is
used in the text stands for the declaration that its occurrence denotes. -/
structure BoundIn (m : Module) (fs : List Form) (lines : List Declaration) : Prop where
  declares : List.Forall₂ Declares m.declarations lines
  nets_eq : fs.filterMap Form.net? = (inTextOrder m lines).map Declaration.net
  nodup : (lines.map (·.name)).Nodup
  rendered : List.Forall₂ (Renders lines) m.occurrences (fs.flatMap Form.names)

theorem Bound.boundIn {m : Module} {v : Verilog.Module} (h : Bound m v lines) (hworded : v.Worded) :
    BoundIn m v.forms lines := by
  refine ⟨h.declares, ?_, h.nodup, ?_⟩
  · rw [v.nets_forms, h.declared_eq]
  · rw [Verilog.Module.names_forms hworded]
    exact h.rendered

end Gateware.Naming

namespace Gateware
open Naming
open Verilog (Form Line linesText readModules)

end Gateware

import Gateware.Proofs.Printing.Text

/- What the lines of a Verilog text declare, and which names they use. Both are read off the
   form of a line alone (`Form.net?`, `Form.names`, `Form.used`): ports and declarations
   declare a net or a register; assignments, conditions and the first lines of procedures
   use names, those of an expression being the identifiers among its words. For a module
   whose names and numbers are words this file proves that

   1. its lines declare its ports, its hoisted declarations and the declarations among its
      items, in this order and nothing else (`Module.nets_forms`);
   2. the names on its lines are the names of its items, in order (`Module.names_forms`);
   3. the lines of an item use the names of the item, and those of a procedure made for a
      single assignment its clock besides (`Item.used_forms`).

   Nothing is assumed of the names but that they are words: a name may be one that Verilog
   gives a meaning to. -/
namespace Gateware

def namesAmong (ws : List String) : List String := ws.filter fun w => Token.Kind.ofText w == .identifier

theorem namesAmong_append (ws ws' : List String) : namesAmong (ws ++ ws') = namesAmong ws ++ namesAmong ws' :=
  List.filter_append ..

theorem namesAmong_cons_of_ne {w : String} (h : Token.Kind.ofText w ≠ .identifier) (ws : List String) :
    namesAmong (w :: ws) = namesAmong ws :=
  List.filter_cons_of_neg (by simpa using h)

theorem namesAmong_cons_of_eq {w : String} (h : Token.Kind.ofText w = .identifier) (ws : List String) :
    namesAmong (w :: ws) = w :: namesAmong ws :=
  List.filter_cons_of_pos (by simpa using h)

namespace Verilog

/-! ## Reading a line -/

/-- A net or a register, as a line declares it. -/
structure Net where
  isRegister : Bool
  top : Option Nat
  name : String
  deriving DecidableEq, Repr

namespace Form

/-- What a line declares, if it is a port or a declaration. -/
def net? : Form → Option Net
  | .port _ isRegister top name _ | .declaration isRegister top name => some ⟨isRegister, top, name⟩
  | _ => none

def portName? : Form → Option String
  | .port _ _ _ name _ => some name
  | _ => none

/-- The names that a line uses: in an assignment, in a condition, or as the clock of a
procedure with a body. The clock of a procedure that has a single assignment is written
for that assignment and stands at no place of its own. -/
def names : Form → List String
  | .assign target value | .blocking target value | .nonblocking target value => target :: namesAmong (words value)
  | .condition cond | .otherCondition cond => namesAmong (words cond)
  | .always (.trigger t) true => [t.clock]
  | _ => []

/-- All names that a line uses. -/
def used : Form → List String
  | .always (.trigger t) false => [t.clock]
  | f => f.names

/-- A line that may stand inside a procedure. -/
def isProcedural : Form → Bool
  | .blocking .. | .nonblocking .. | .beginBlock | .condition _ | .otherCondition _ | .otherwise | .endBlock => true
  | _ => false

theorem portName?_of_isProcedural {f : Form} (h : f.isProcedural = true) : f.portName? = none := by
  cases f with
  | port => cases h
  | _ => rfl

theorem net?_of_isProcedural {f : Form} (h : f.isProcedural = true) : f.net? = none := by
  cases f with
  | port | declaration => cases h
  | _ => rfl

theorem used_of_isProcedural {f : Form} (h : f.isProcedural = true) : f.used = f.names := by
  cases f with
  | always => cases h
  | _ => rfl

end Form

/-! ## Statements -/

/-- The words of an expression have the names of the expression among them. -/
theorem namesAmong_text {e : Expr} {u : List String} (h : e.Spelled u) : namesAmong (words e.text) = e.names := by
  have hparens (parens : Bool) (ws : List String) : namesAmong (Expr.parenthesized parens ws) = namesAmong ws := by
    cases parens with
    | false => rfl
    | true =>
      change namesAmong ("(" :: (ws ++ [")"])) = namesAmong ws
      rw [namesAmong_cons_of_ne (by decide), namesAmong_append]
      exact List.append_nil _
  rw [h.words_text]
  induction h with
  | name h => exact namesAmong_cons_of_eq h.2 []
  | literal h => exact namesAmong_cons_of_ne (by rw [h.2]; decide) []
  | binary op _ _ ihl ihr =>
    have hop : Token.Kind.ofText op.symbol ≠ .identifier := by cases op <;> decide
    rw [namesAmong_append, namesAmong_cons_of_ne hop, hparens, hparens, ihl, ihr, Expr.names]

mutual

theorem Stmt.isProcedural_forms : ∀ x : Stmt, ∀ f ∈ x.forms, f.isProcedural = true
  | .blocking .. => List.forall_mem_singleton.mpr rfl
  | .nonblocking .. => List.forall_mem_singleton.mpr rfl
  | .block body => by
    rw [Stmt.forms]
    exact List.forall_mem_cons.mpr
      ⟨rfl, List.forall_mem_append.mpr ⟨Stmt.isProcedural_allForms body, List.forall_mem_singleton.mpr rfl⟩⟩
  | .conditional cond body others otherwise => by
    rw [Stmt.forms]
    simp only [List.forall_mem_cons, List.forall_mem_append]
    exact ⟨rfl, ⟨⟨Stmt.isProcedural_allForms body, Stmt.isProcedural_othersForms others⟩,
      Stmt.isProcedural_otherwiseForms otherwise⟩, rfl, fun _ hf => absurd hf List.not_mem_nil⟩

theorem Stmt.isProcedural_allForms : ∀ xs : List Stmt, ∀ f ∈ Stmt.allForms xs, f.isProcedural = true
  | [] => fun _ hf => absurd hf List.not_mem_nil
  | x :: xs => by
    rw [Stmt.allForms]
    exact List.forall_mem_append.mpr ⟨x.isProcedural_forms, Stmt.isProcedural_allForms xs⟩

theorem Stmt.isProcedural_othersForms : ∀ others : List (Expr × List Stmt),
    ∀ f ∈ Stmt.othersForms others, f.isProcedural = true
  | [] => fun _ hf => absurd hf List.not_mem_nil
  | (cond, body) :: others => by
    rw [Stmt.othersForms]
    exact List.forall_mem_cons.mpr
      ⟨rfl, List.forall_mem_append.mpr ⟨Stmt.isProcedural_allForms body, Stmt.isProcedural_othersForms others⟩⟩

theorem Stmt.isProcedural_otherwiseForms : ∀ otherwise : Option (List Stmt),
    ∀ f ∈ Stmt.otherwiseForms otherwise, f.isProcedural = true
  | none => fun _ hf => absurd hf List.not_mem_nil
  | some body => by
    rw [Stmt.otherwiseForms]
    exact List.forall_mem_cons.mpr ⟨rfl, Stmt.isProcedural_allForms body⟩

end

mutual

theorem Stmt.names_forms : ∀ x : Stmt, x.Worded → x.forms.flatMap Form.names = x.names
  | .blocking target value, h => by
    obtain ⟨-, u, hvalue⟩ := h
    rw [Stmt.forms, List.flatMap_singleton, Form.names, namesAmong_text hvalue, Stmt.names]
  | .nonblocking target value, h => by
    obtain ⟨-, u, hvalue⟩ := h
    rw [Stmt.forms, List.flatMap_singleton, Form.names, namesAmong_text hvalue, Stmt.names]
  | .block body, h => by
    rw [Stmt.forms, List.flatMap_cons, List.flatMap_append, Stmt.names_allForms body h, Stmt.names]
    exact List.append_nil _
  | .conditional cond body others otherwise, h => by
    obtain ⟨⟨u, hcond⟩, hbody, hothers, hotherwise⟩ := h
    rw [Stmt.forms, List.flatMap_cons, Form.names, namesAmong_text hcond]
    simp only [List.flatMap_append, Stmt.names_allForms body hbody, Stmt.names_othersForms others hothers,
      Stmt.names_otherwiseForms otherwise hotherwise, List.flatMap_singleton, Form.names, List.append_nil,
      Stmt.names, List.append_assoc]

theorem Stmt.names_allForms : ∀ xs : List Stmt, Stmt.allWorded xs →
    (Stmt.allForms xs).flatMap Form.names = Stmt.allNames xs
  | [], _ => rfl
  | x :: xs, h => by
    rw [Stmt.allForms, List.flatMap_append, x.names_forms h.1, Stmt.names_allForms xs h.2, Stmt.allNames]

theorem Stmt.names_othersForms : ∀ others : List (Expr × List Stmt), Stmt.othersWorded others →
    (Stmt.othersForms others).flatMap Form.names = Stmt.othersNames others
  | [], _ => rfl
  | (cond, body) :: others, h => by
    obtain ⟨⟨u, hcond⟩, hbody, hothers⟩ := h
    rw [Stmt.othersForms, List.flatMap_cons, List.flatMap_append, Form.names, namesAmong_text hcond,
      Stmt.names_allForms body hbody, Stmt.names_othersForms others hothers, Stmt.othersNames, List.append_assoc]

theorem Stmt.names_otherwiseForms : ∀ otherwise : Option (List Stmt), Stmt.otherwiseWorded otherwise →
    (Stmt.otherwiseForms otherwise).flatMap Form.names = Stmt.otherwiseNames otherwise
  | none, _ => rfl
  | some body, h => by
    rw [Stmt.otherwiseForms, List.flatMap_cons, Stmt.names_allForms body h, Stmt.otherwiseNames]
    rfl

end

/-! ## Items -/

/-- The names that an item uses, the clock of a single assignment included. -/
def Item.mentions : Item → List String
  | .register trigger target value => trigger.clock :: target :: value.names
  | item => item.names

theorem Item.names_forms {item : Item} (h : item.Worded) : item.forms.flatMap Form.names = item.names := by
  cases item with
  | declaration d => rfl
  | assign target value =>
    obtain ⟨-, u, hvalue⟩ := h
    rw [Item.forms, List.flatMap_singleton, Form.names, namesAmong_text hvalue, Item.names]
  | register trigger target value =>
    obtain ⟨-, -, u, hvalue⟩ := h
    simp only [Item.forms, List.flatMap_cons, List.flatMap_nil, Form.names, namesAmong_text hvalue, Item.names,
      List.nil_append, List.append_nil]
  | always sensitivity body =>
    have hfirst : (Form.always sensitivity true).names = sensitivity.names := by cases sensitivity <;> rfl
    rw [Item.forms, List.flatMap_cons, List.flatMap_append, hfirst, Stmt.names_allForms body h.2, Item.names]
    exact congrArg _ (List.append_nil _)

theorem Item.used_forms {item : Item} (h : item.Worded) : item.forms.flatMap Form.used = item.mentions := by
  have hnames := Item.names_forms h
  cases item with
  | declaration d => rfl
  | assign target value => exact hnames
  | register trigger target value => exact congrArg (trigger.clock :: ·) hnames
  | always sensitivity body =>
    rw [Item.mentions, ← hnames]
    · apply List.flatMap_congr
      intro f hf
      rw [Item.forms, List.mem_cons, List.mem_append, List.mem_singleton] at hf
      rcases hf with rfl | hf | rfl
      · cases sensitivity <;> rfl
      · exact Form.used_of_isProcedural (Stmt.isProcedural_allForms body f hf)
      · rfl
    · intro trigger target value heq
      cases heq

theorem Item.portName?_of_mem_forms (item : Item) {f : Form} (h : f ∈ item.forms) : f.portName? = none := by
  cases item with
  | always sensitivity body =>
    rw [Item.forms, List.mem_cons, List.mem_append, List.mem_singleton] at h
    rcases h with rfl | h | rfl
    · rfl
    · exact Form.portName?_of_isProcedural (Stmt.isProcedural_allForms body f h)
    · rfl
  | register trigger target value =>
    rw [Item.forms, List.mem_cons, List.mem_singleton] at h
    rcases h with rfl | rfl <;> rfl
  | _ =>
    rw [List.mem_singleton.mp h]
    rfl

/-! ## Declarations of a module -/

def Declaration.net (d : Declaration) : Net := ⟨d.isRegister, topBit d.width, d.name⟩

/-- The declarations of a module, in the order of its text. -/
def Module.declared (v : Module) : List Declaration :=
  v.ports.map (·.declaration) ++ (v.hoisted ++ v.items.flatMap Item.declared)

theorem Port.nets_forms (ps : List Port) :
    (Port.forms ps).filterMap Form.net? = (ps.map (·.declaration)).map Declaration.net := by
  induction ps with
  | nil => rfl
  | cons p ps ih =>
    cases ps with
    | nil => rfl
    | cons q ps => exact congrArg (p.declaration.net :: ·) ih

theorem Item.nets_forms (item : Item) : item.forms.filterMap Form.net? = item.declared.map Declaration.net := by
  cases item with
  | always sensitivity body =>
    have hbody : (Stmt.allForms body).filterMap Form.net? = [] :=
      List.filterMap_eq_nil_iff.mpr fun f hf => Form.net?_of_isProcedural (Stmt.isProcedural_allForms body f hf)
    rw [Item.forms, List.filterMap_cons_none rfl, List.filterMap_append, hbody]
    rfl
  | _ => rfl

theorem Port.exists_of_mem_forms {ps : List Port} {f : Form} (h : f ∈ Port.forms ps) :
    ∃ p ∈ ps, ∃ more, f = p.form more := by
  induction ps with
  | nil => exact absurd h List.not_mem_nil
  | cons p ps ih =>
    cases ps with
    | nil => exact ⟨p, List.mem_cons_self, false, List.mem_singleton.mp h⟩
    | cons q ps =>
      rcases List.mem_cons.mp h with rfl | h
      · exact ⟨p, List.mem_cons_self, true, rfl⟩
      · obtain ⟨r, hr, more, rfl⟩ := ih h
        exact ⟨r, List.mem_cons_of_mem _ hr, more, rfl⟩

/-- The lines of a module before its items. -/
def Module.headForms (v : Module) : List Form :=
  .header v.name :: (Port.forms v.ports ++ .endPorts :: v.hoisted.map Declaration.form)

theorem Module.forms_eq (v : Module) : v.forms = v.headForms ++ (v.items.flatMap Item.forms ++ [.endModule]) := by
  simp [Module.forms, Module.headForms]

theorem Module.nets_headForms (v : Module) :
    v.headForms.filterMap Form.net? = (v.ports.map (·.declaration) ++ v.hoisted).map Declaration.net := by
  have hhoisted : (v.hoisted.map Declaration.form).filterMap Form.net? = v.hoisted.map Declaration.net := by
    rw [List.filterMap_map]
    exact congrFun List.filterMap_eq_map' v.hoisted
  rw [Module.headForms, List.filterMap_cons_none rfl, List.filterMap_append, Port.nets_forms,
    List.filterMap_cons_none rfl, hhoisted, List.map_append]

/-- The lines of a module declare what the module declares. -/
theorem Module.nets_forms (v : Module) : v.forms.filterMap Form.net? = v.declared.map Declaration.net := by
  have hitems : (v.items.flatMap Item.forms).filterMap Form.net? =
      (v.items.flatMap Item.declared).map Declaration.net := by
    rw [List.filterMap_flatMap, List.map_flatMap]
    exact List.flatMap_congr fun item _ => item.nets_forms
  rw [v.forms_eq, List.filterMap_append, v.nets_headForms, List.filterMap_append, hitems, Module.declared]
  simp [Form.net?]

/-- Only the items of a module use names. -/
theorem Module.used_headForms (v : Module) : ∀ f ∈ v.headForms, f.used = [] ∧ f.names = [] := by
  intro f hf
  simp only [Module.headForms, List.mem_cons, List.mem_append, List.mem_map] at hf
  rcases hf with rfl | hf | rfl | ⟨d, -, rfl⟩
  · exact ⟨rfl, rfl⟩
  · obtain ⟨p, -, more, rfl⟩ := Port.exists_of_mem_forms hf
    exact ⟨rfl, rfl⟩
  · exact ⟨rfl, rfl⟩
  · exact ⟨rfl, rfl⟩

/-- The ports of a module are those of its header. -/
theorem Module.portNames_forms (v : Module) :
    v.forms.filterMap Form.portName? = v.ports.map (·.declaration.name) := by
  have hports : (Port.forms v.ports).filterMap Form.portName? = v.ports.map (·.declaration.name) := by
    generalize v.ports = ps
    induction ps with
    | nil => rfl
    | cons p ps ih =>
      cases ps with
      | nil => rfl
      | cons q ps => exact congrArg (p.declaration.name :: ·) ih
  have hhoisted : (v.hoisted.map Declaration.form).filterMap Form.portName? = [] := by
    rw [List.filterMap_map]
    exact List.filterMap_eq_nil_iff.mpr fun _ _ => rfl
  have hitems : (v.items.flatMap Item.forms).filterMap Form.portName? = [] := by
    refine List.filterMap_eq_nil_iff.mpr fun f hf => ?_
    obtain ⟨item, -, hf⟩ := List.mem_flatMap.mp hf
    exact item.portName?_of_mem_forms hf
  rw [Module.forms, List.filterMap_cons_none rfl, List.filterMap_append, hports, List.filterMap_cons_none rfl,
    List.filterMap_append, hhoisted, List.filterMap_append, hitems]
  exact List.append_nil _

theorem Module.names_forms {v : Module} (h : v.Worded) : v.forms.flatMap Form.names = v.names := by
  have hhead : v.headForms.flatMap Form.names = [] :=
    List.flatMap_eq_nil_iff.mpr fun f hf => (v.used_headForms f hf).2
  have hitems : (v.items.flatMap Item.forms).flatMap Form.names = v.names := by
    rw [List.flatMap_assoc]
    exact List.flatMap_congr fun item hitem => Item.names_forms (h.items item hitem)
  rw [v.forms_eq, List.flatMap_append, hhead, List.flatMap_append, hitems]
  exact List.append_nil _

end Verilog

end Gateware

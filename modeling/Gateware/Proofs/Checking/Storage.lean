import Mathlib.Data.List.Nodup
import Gateware.Proofs.Lowering.Runs
import Gateware.Proofs.Naming.Namespace

/- What drives a name is legal for the storage it is declared with.

   The rules are stated on the lines of a Verilog text. This file

   1. says where a line stands (`placed`): a place is told by the procedure that has been opened and
      by how many of its `begin`s have no `end` yet;
   2. says what storage a name is declared with (`DeclaredAs`) and what a line may drive at its place
      (`LegalIn`, `DrivenLegally`);
   3. proves that statements inside a procedure open as much as they close, so that all their lines
      are in that procedure (`Inside`, `Stmt.inside_forms`), and puts the lines at the level of a
      module together (`Outside`);
   4. follows the storage of a name from its declaration to its uses by the signals in reach
      (`State.Backed`), by induction on runs of lowering (`Contents.driven`, `Items.driven`);
   5. concludes for every module of a Verilog text (`compile_drives_legally`). -/
namespace Gateware

namespace Verilog

/-! ## Places -/

def Form.begins : Form → Nat
  | .always _ true | .beginBlock | .condition _ | .otherCondition _ | .otherwise => 1
  | _ => 0

def Form.ends : Form → Nat
  | .otherCondition _ | .otherwise | .endBlock => 1
  | _ => 0

/-- The procedure that a line is in, if it is in one, with its open `begin`s. -/
abbrev Place := Option (Sensitivity × Nat)

/-- The place after a line. A procedure without a `begin` has a single statement. -/
def Place.after : Place → Form → Place
  | none, .always sensitivity opens => some (sensitivity, if opens then 1 else 0)
  | none, _ => none
  | some (sensitivity, depth), f =>
    if depth - f.ends + f.begins = 0 then none else some (sensitivity, depth - f.ends + f.begins)

/-- Each line with what the procedure that it is in waits for. -/
def placed (place : Place) : List Form → List (Form × Option Sensitivity)
  | [] => []
  | f :: fs => (f, place.map (·.1)) :: placed (place.after f) fs

/-! ## Storage -/

/-- The name that a line declares, and whether it is a register. -/
def Form.storage : Form → List (String × Bool)
  | .port _ isRegister _ name _ | .declaration isRegister _ name => [(name, isRegister)]
  | _ => []

/-- A name is declared, and with this storage only. -/
def DeclaredAs (declared : List (String × Bool)) (name : String) (isRegister : Bool) : Prop :=
  ∀ storage, (name, storage) ∈ declared ↔ storage = isRegister

/-- What a line drives is declared with the storage that it needs there. -/
def LegalIn (declared : List (String × Bool)) : Form → Option Sensitivity → Prop
  | .assign target _, place => place = none ∧ DeclaredAs declared target false
  | .always .., place => place = none
  | .blocking target _, place => place ≠ none ∧ DeclaredAs declared target true
  | .nonblocking target _, place => (∃ t, place = some (.trigger t)) ∧ DeclaredAs declared target true
  | _, _ => True

/-- The lines of a module can all be read, and what they drive is legal. -/
def DrivenLegally (ls : List Line) : Prop :=
  ∃ fs, ls.mapM Line.form? = some fs ∧
    ∀ p ∈ placed none fs, LegalIn (fs.flatMap Form.storage) p.1 p.2

/-! ## Lines inside a procedure -/

theorem placed_append (place : Place) (fs gs : List Form) :
    placed place (fs ++ gs) = placed place fs ++ placed (fs.foldl Place.after place) gs := by
  induction fs generalizing place with
  | nil => rfl
  | cons f fs ih =>
    simp only [List.cons_append, placed, List.foldl_cons, ih]

/-- Lines that stay inside the procedure that they begin in. -/
structure Inside (fs : List Form) : Prop where
  after_eq : ∀ sensitivity depth,
    fs.foldl Place.after (some (sensitivity, depth + 1)) = some (sensitivity, depth + 1)
  placed_eq : ∀ sensitivity depth,
    placed (some (sensitivity, depth + 1)) fs = fs.map (·, some sensitivity)

theorem inside_nil : Inside [] := ⟨fun _ _ => rfl, fun _ _ => rfl⟩

theorem inside_singleton (f : Form) (h : f.begins = f.ends) (hle : f.ends ≤ 1) : Inside [f] := by
  refine ⟨?_, fun _ _ => rfl⟩
  intro sensitivity depth
  have hdepth : depth + 1 - f.ends + f.begins = depth + 1 := by omega
  simp [Place.after, hdepth]

theorem Inside.append {fs gs : List Form} (h : Inside fs) (h' : Inside gs) : Inside (fs ++ gs) := by
  refine ⟨?_, ?_⟩
  · intro sensitivity depth
    rw [List.foldl_append, h.after_eq, h'.after_eq]
  · intro sensitivity depth
    rw [placed_append, h.after_eq, h.placed_eq, h'.placed_eq, List.map_append]

/-- Lines between a `begin` and its `end`. -/
theorem Inside.enclose {f : Form} {fs : List Form} (h : Inside fs) (hbegins : f.begins = 1) (hends : f.ends = 0) :
    Inside (f :: (fs ++ [.endBlock])) := by
  have hopen (sensitivity : Sensitivity) (depth : Nat) :
      Place.after (some (sensitivity, depth + 1)) f = some (sensitivity, depth + 1 + 1) := by
    simp [Place.after, hbegins, hends]
  refine ⟨?_, ?_⟩
  · intro sensitivity depth
    rw [List.foldl_cons, hopen, List.foldl_append, h.after_eq]
    simp [Place.after, Form.begins, Form.ends]
  · intro sensitivity depth
    rw [placed, hopen, placed_append, h.placed_eq, h.after_eq]
    simp [placed]

mutual

theorem Stmt.inside_forms : ∀ x : Stmt, Inside x.forms
  | .blocking .. => inside_singleton _ rfl (Nat.zero_le 1)
  | .nonblocking .. => inside_singleton _ rfl (Nat.zero_le 1)
  | .block body => by
    rw [Stmt.forms]
    exact (Stmt.inside_allForms body).enclose rfl rfl
  | .conditional cond body others otherwise => by
    rw [Stmt.forms]
    exact (((Stmt.inside_allForms body).append (Stmt.inside_othersForms others)).append
      (Stmt.inside_otherwiseForms otherwise)).enclose rfl rfl

theorem Stmt.inside_allForms : ∀ xs : List Stmt, Inside (Stmt.allForms xs)
  | [] => inside_nil
  | x :: xs => by
    rw [Stmt.allForms]
    exact x.inside_forms.append (Stmt.inside_allForms xs)

theorem Stmt.inside_othersForms : ∀ others : List (Expr × List Stmt), Inside (Stmt.othersForms others)
  | [] => inside_nil
  | (cond, body) :: others => by
    rw [Stmt.othersForms]
    exact (inside_singleton (.otherCondition cond.text) rfl (Nat.le_refl 1)).append
      ((Stmt.inside_allForms body).append (Stmt.inside_othersForms others))

theorem Stmt.inside_otherwiseForms : ∀ otherwise : Option (List Stmt), Inside (Stmt.otherwiseForms otherwise)
  | none => inside_nil
  | some body => by
    rw [Stmt.otherwiseForms]
    exact (inside_singleton .otherwise rfl (Nat.le_refl 1)).append (Stmt.inside_allForms body)

end

/-! ## Lines at the level of a module -/

/-- Lines at the level of a module that open no procedure without closing it, and are
legal. -/
structure Outside (declared : List (String × Bool)) (fs : List Form) : Prop where
  after_eq : fs.foldl Place.after none = none
  legal : ∀ p ∈ placed none fs, LegalIn declared p.1 p.2

section
variable {declared : List (String × Bool)}

theorem outside_nil : Outside declared [] := ⟨rfl, fun _ hp => absurd hp List.not_mem_nil⟩

theorem Outside.append {fs gs : List Form} (h : Outside declared fs) (h' : Outside declared gs) :
    Outside declared (fs ++ gs) := by
  refine ⟨?_, ?_⟩
  · rw [List.foldl_append, h.after_eq, h'.after_eq]
  · rw [placed_append, h.after_eq]
    exact List.forall_mem_append.mpr ⟨h.legal, h'.legal⟩

theorem outside_singleton {f : Form} (hafter : Place.after none f = none) (hlegal : LegalIn declared f none) :
    Outside declared [f] :=
  ⟨hafter, List.forall_mem_singleton.mpr hlegal⟩

/-- A procedure is at the level of the module, and its statements are in it. -/
theorem outside_always {sensitivity : Sensitivity} {vs : List Stmt}
    (h : ∀ f ∈ Stmt.allForms vs, LegalIn declared f (some sensitivity)) :
    Outside declared (Item.always sensitivity vs).forms := by
  have hinside := Stmt.inside_allForms vs
  have hopen : Place.after none (.always sensitivity true) = some (sensitivity, 0 + 1) := rfl
  rw [Item.forms]
  refine ⟨?_, ?_⟩
  · rw [List.foldl_cons, hopen, List.foldl_append, hinside.after_eq]
    rfl
  · rw [placed, hopen, placed_append, hinside.placed_eq, hinside.after_eq]
    refine List.forall_mem_cons.mpr ⟨rfl, List.forall_mem_append.mpr ⟨?_, List.forall_mem_singleton.mpr trivial⟩⟩
    intro p hp
    obtain ⟨f, hf, rfl⟩ := List.mem_map.mp hp
    exact h f hf

/-- A procedure of a single assignment is over after it. -/
theorem outside_register {t : Trigger} {target : String} (value : Expr) (h : DeclaredAs declared target true) :
    Outside declared (Item.register t target value).forms :=
  ⟨rfl, List.forall_mem_cons.mpr ⟨rfl, List.forall_mem_singleton.mpr ⟨⟨t, rfl⟩, h⟩⟩⟩

theorem outside_ports (ps : List Port) : Outside declared (Port.forms ps) := by
  induction ps with
  | nil => exact outside_nil
  | cons p ps ih =>
    cases ps with
    | nil => exact outside_singleton rfl trivial
    | cons q ps => exact (outside_singleton (f := p.form true) rfl trivial).append ih

theorem outside_hoisted (ds : List Declaration) : Outside declared (ds.map Declaration.form) := by
  induction ds with
  | nil => exact outside_nil
  | cons d ds ih => exact (outside_singleton (f := d.form) rfl trivial).append ih

end

/-! ## Declarations of a module -/

def Declaration.storage (d : Declaration) : String × Bool := (d.name, d.isRegister)

theorem storage_eq_nets (fs : List Form) :
    fs.flatMap Form.storage = (fs.filterMap Form.net?).map fun net => (net.name, net.isRegister) := by
  induction fs with
  | nil => rfl
  | cons f fs ih =>
    rw [List.flatMap_cons, ih]
    cases f <;> rfl

theorem Module.storage_forms (v : Module) : v.forms.flatMap Form.storage = v.declared.map Declaration.storage := by
  rw [storage_eq_nets, v.nets_forms, List.map_map]
  rfl

/-- If no name is declared twice, every declaration gives its name the one storage that it
has. -/
theorem declaredAs_of_nodup {ds : List Declaration} (h : (ds.map (·.name)).Nodup) {d : Declaration} (hd : d ∈ ds) :
    DeclaredAs (ds.map Declaration.storage) d.name d.isRegister := by
  intro storage
  constructor
  · intro hmem
    obtain ⟨d', hd', heq⟩ := List.mem_map.mp hmem
    obtain ⟨hname, rfl⟩ := Prod.mk.inj heq
    rw [List.inj_on_of_nodup_map h hd' hd hname]
  · rintro rfl
    exact List.mem_map.mpr ⟨d, hd, rfl⟩

end Verilog

/-! ## Storage of what is assigned -/

namespace Lowering
open Verilog (DeclaredAs LegalIn Sensitivity)

/-- Every signal in reach is declared under its name, with its own storage. -/
def State.Backed (declared : List (String × Bool)) : State → Prop :=
  State.InReach fun b => DeclaredAs declared b.emitted b.signal.isRegister

/-- Declarations are among those that are declared. -/
def Stored (declared : List (String × Bool)) (ds : List Verilog.Declaration) : Prop :=
  ∀ d ∈ ds, DeclaredAs declared d.name d.isRegister

section
variable {declared : List (String × Bool)} {procedure : Procedure} {sensitivity : Sensitivity} {s s' : State}

/-- A target in reach that is a register may be assigned inside a procedure of its kind. -/
theorem State.Backed.legal_assignment (h : s.Backed declared) {name : String} {b : Binding}
    (hb : s.scope.lookup name = some b) (hregister : b.signal.isRegister = true) {kind : AssignKind}
    (hkind : kind = .registered → ∃ t, sensitivity = .trigger t) (value : Verilog.Expr) :
    ∀ f ∈ (assignmentOf kind b.emitted value).forms, LegalIn declared f (some sensitivity) := by
  have hdeclared : DeclaredAs declared b.emitted true := by
    rw [← hregister]
    exact h.lookup hb
  cases kind with
  | plain => exact List.forall_mem_singleton.mpr ⟨Option.some_ne_none _, hdeclared⟩
  | registered =>
    obtain ⟨t, rfl⟩ := hkind rfl
    exact List.forall_mem_singleton.mpr ⟨⟨t, rfl⟩, hdeclared⟩

end

mutual

theorem Contents.driven {declared : List (String × Bool)} {procedure : Procedure} {sensitivity : Sensitivity}
    (hclocked : procedure = .clocked → ∃ t, sensitivity = .trigger t) :
    ∀ {x : Stmt} {s s' : State} {vs : List Verilog.Stmt}, Contents procedure x s vs s' → s.Backed declared →
      Stored declared s'.hoisted →
      s'.Backed declared ∧ ∀ f ∈ Verilog.Stmt.allForms vs, LegalIn declared f (some sensitivity)
  | _, _, _, _, .decl, hs, hhoisted => by
    refine ⟨hs.declared (hhoisted _ (List.mem_append_right _ List.mem_cons_self)), ?_⟩
    exact fun _ hf => absurd hf List.not_mem_nil
  | _, _, _, _, .assign htarget _ hregister hkind, hs, _ => by
    refine ⟨hs, ?_⟩
    rw [Verilog.Stmt.allForms, Verilog.Stmt.allForms, List.append_nil]
    exact hs.legal_assignment htarget hregister (fun hk => hclocked (hkind hk)) _
  | _, _, _, _, .conditional _ hbody hbranches, hs, hhoisted => by
    have hhoisted₁ := fun d hd => hhoisted d (hbranches.grows.hoisted.subset hd)
    obtain ⟨-, hvs⟩ := hbody.driven hclocked hs.enter hhoisted₁
    obtain ⟨hs', hothers, hotherwise⟩ := hbranches.driven hclocked hs hhoisted
    refine ⟨hs', ?_⟩
    simp only [Verilog.Stmt.allForms, Verilog.Stmt.forms, List.append_nil, List.forall_mem_cons, List.forall_mem_append]
    exact ⟨trivial, ⟨⟨hvs, hothers⟩, hotherwise⟩, trivial, fun _ hf => absurd hf List.not_mem_nil⟩
  | _, _, _, _, .block h, hs, hhoisted => h.driven hclocked hs hhoisted

theorem AllContents.driven {declared : List (String × Bool)} {procedure : Procedure} {sensitivity : Sensitivity}
    (hclocked : procedure = .clocked → ∃ t, sensitivity = .trigger t) :
    ∀ {xs : List Stmt} {s s' : State} {vs : List Verilog.Stmt}, AllContents procedure xs s vs s' →
      s.Backed declared → Stored declared s'.hoisted →
      s'.Backed declared ∧ ∀ f ∈ Verilog.Stmt.allForms vs, LegalIn declared f (some sensitivity)
  | _, _, _, _, .nil, hs, _ => ⟨hs, fun _ hf => absurd hf List.not_mem_nil⟩
  | _, _, _, _, .block h hrest, hs, hhoisted => by
    have hhoisted₁ := fun d hd => hhoisted d (hrest.grows.hoisted.subset hd)
    obtain ⟨-, hvs⟩ := h.driven hclocked hs.enter hhoisted₁
    obtain ⟨hs', hws⟩ := hrest.driven hclocked hs hhoisted
    refine ⟨hs', ?_⟩
    simp only [Verilog.Stmt.allForms, Verilog.Stmt.forms, List.forall_mem_cons, List.forall_mem_append]
    exact ⟨⟨trivial, hvs, trivial, fun _ hf => absurd hf List.not_mem_nil⟩, hws⟩
  | _, _, _, _, .cons _ h hrest, hs, hhoisted => by
    have hhoisted₁ := fun d hd => hhoisted d (hrest.grows.hoisted.subset hd)
    obtain ⟨hs₁, hvs⟩ := h.driven hclocked hs hhoisted₁
    obtain ⟨hs', hws⟩ := hrest.driven hclocked hs₁ hhoisted
    refine ⟨hs', ?_⟩
    rw [Verilog.Stmt.allForms_append]
    exact List.forall_mem_append.mpr ⟨hvs, hws⟩

theorem Alternative.driven {declared : List (String × Bool)} {procedure : Procedure} {sensitivity : Sensitivity}
    (hclocked : procedure = .clocked → ∃ t, sensitivity = .trigger t) :
    ∀ {x : Option Stmt} {s s' : State} {b : Branches}, Alternative procedure x s b s' → s.Backed declared →
      Stored declared s'.hoisted →
      s'.Backed declared ∧ (∀ f ∈ Verilog.Stmt.othersForms b.1, LegalIn declared f (some sensitivity)) ∧
        ∀ f ∈ Verilog.Stmt.otherwiseForms b.2, LegalIn declared f (some sensitivity)
  | _, _, _, _, .none, hs, _ =>
    ⟨hs, fun _ hf => absurd hf List.not_mem_nil, fun _ hf => absurd hf List.not_mem_nil⟩
  | _, _, _, _, .conditional _ hbody hbranches, hs, hhoisted => by
    have hhoisted₁ := fun d hd => hhoisted d (hbranches.grows.hoisted.subset hd)
    obtain ⟨-, hvs⟩ := hbody.driven hclocked hs.enter hhoisted₁
    obtain ⟨hs', hothers, hotherwise⟩ := hbranches.driven hclocked hs hhoisted
    refine ⟨hs', ?_, hotherwise⟩
    simp only [Verilog.Stmt.othersForms, List.forall_mem_cons, List.forall_mem_append]
    exact ⟨trivial, hvs, hothers⟩
  | _, _, _, _, .other _ h, hs, hhoisted => by
    obtain ⟨-, hvs⟩ := h.driven hclocked hs.enter hhoisted
    refine ⟨hs, fun _ hf => absurd hf List.not_mem_nil, ?_⟩
    rw [Verilog.Stmt.otherwiseForms]
    exact List.forall_mem_cons.mpr ⟨trivial, hvs⟩

end

mutual

theorem Items.driven {declared : List (String × Bool)} : ∀ {x : Stmt} {s s' : State} {is : List Verilog.Item},
    Items x s is s' → s.Backed declared → Stored declared s'.hoisted →
    Stored declared (is.flatMap Verilog.Item.declared) →
    s'.Backed declared ∧ Verilog.Outside declared (is.flatMap Verilog.Item.forms)
  | _, _, _, _, .decl, hs, _, hinPlace =>
    ⟨hs.declared (hinPlace _ List.mem_cons_self), Verilog.outside_singleton rfl trivial⟩
  | _, _, _, _, .plain htarget _ hregister, hs, _, _ => by
    have htarget := hs.lookup htarget
    rw [hregister] at htarget
    exact ⟨hs, Verilog.outside_singleton rfl ⟨rfl, htarget⟩⟩
  | _, _, _, _, .registered htarget _ hregister _ _, hs, _, _ => by
    have htarget := hs.lookup htarget
    rw [hregister] at htarget
    exact ⟨hs, Verilog.outside_register _ htarget⟩
  | _, _, _, _, .sequence _ h, hs, hhoisted, _ => by
    obtain ⟨-, hvs⟩ := h.driven (fun _ => ⟨_, rfl⟩) hs.enter hhoisted
    rw [List.flatMap_singleton]
    exact ⟨hs, Verilog.outside_always hvs⟩
  | _, _, _, _, .conditional h, hs, hhoisted, _ => by
    have hclocked : Procedure.combinational = .clocked → ∃ t, Sensitivity.inputs = .trigger t := by
      intro hcombinational
      cases hcombinational
    obtain ⟨hs', hvs⟩ := h.driven hclocked hs hhoisted
    rw [List.flatMap_singleton]
    exact ⟨hs', Verilog.outside_always hvs⟩
  | _, _, _, _, .block h, hs, hhoisted, hinPlace => by
    obtain ⟨-, his⟩ := h.driven hs.enter hhoisted hinPlace
    exact ⟨hs, his⟩

theorem AllItems.driven {declared : List (String × Bool)} : ∀ {xs : List Stmt} {s s' : State}
    {is : List Verilog.Item}, AllItems xs s is s' → s.Backed declared → Stored declared s'.hoisted →
    Stored declared (is.flatMap Verilog.Item.declared) →
    s'.Backed declared ∧ Verilog.Outside declared (is.flatMap Verilog.Item.forms)
  | _, _, _, _, .nil, hs, _, _ => ⟨hs, Verilog.outside_nil⟩
  | _, _, _, _, .cons h hrest, hs, hhoisted, hinPlace => by
    rw [List.flatMap_append] at hinPlace ⊢
    obtain ⟨hfirst, hothers⟩ := List.forall_mem_append.mp hinPlace
    obtain ⟨hs₁, his⟩ := h.driven hs (fun d hd => hhoisted d (hrest.grows.hoisted.subset hd)) hfirst
    obtain ⟨hs', hjs⟩ := hrest.driven hs₁ hhoisted hothers
    exact ⟨hs', his.append hjs⟩

end

theorem ports_backed {declared : List (String × Bool)} {ps : List Port} {vs : List Verilog.Port} {s s' : State}
    (hv : Yields (ports ps) s vs s') (hs : s.Backed declared) (hvs : Stored declared (vs.map (·.declaration))) :
    s'.Backed declared := by
  induction ps generalizing s vs with
  | nil =>
    obtain ⟨-, rfl⟩ := yields_pure.mp hv
    exact hs
  | cons p ps ih =>
    simp only [ports, yields_bind, yields_port, yields_pure] at hv
    obtain ⟨_, _, ⟨-, rfl, rfl⟩, vs, s₁, hothers, rfl, rfl⟩ := hv
    obtain ⟨hfirst, hrest⟩ := List.forall_mem_cons.mp hvs
    exact ih hothers (hs.declared hfirst) hrest

/-- The lines of a module that is lowered are legal. -/
theorem outside_of_yields {m : Module} {v : Verilog.Module} {s' : State}
    (h : Yields (Lowering.module m) State.initial v s') :
    Verilog.Outside (v.forms.flatMap Verilog.Form.storage) v.forms := by
  rw [Verilog.Module.storage_forms]
  obtain ⟨lines, hbound⟩ := Naming.bound_of_yields h
  have hnodup : (v.declared.map (·.name)).Nodup := by
    rw [hbound.declared_eq, ((Naming.inTextOrder_perm hbound.declares).map _).nodup_iff]
    exact hbound.nodup
  have hstored : Stored (v.declared.map Verilog.Declaration.storage) v.declared :=
    fun d hd => Verilog.declaredAs_of_nodup hnodup hd
  obtain ⟨hports, hbody⟩ := List.forall_mem_append.mp hstored
  obtain ⟨hhoisted, hinPlace⟩ := List.forall_mem_append.mp hbody
  obtain ⟨ps, s₁, is, s₂, hps, his, rfl, rfl⟩ := yields_module.mp h
  have hs₁ := ports_backed hps (initial_inReach _).enter hports
  obtain ⟨-, hitems⟩ := (allItems_of_yields m.body.stmts his).driven hs₁.enter hhoisted hinPlace
  rw [Verilog.Module.forms]
  exact (Verilog.outside_singleton (f := .header m.name.name) rfl trivial).append
    ((Verilog.outside_ports ps).append ((Verilog.outside_singleton (f := .endPorts) rfl trivial).append
      ((Verilog.outside_hoisted s₂.hoisted).append (hitems.append (Verilog.outside_singleton rfl trivial)))))

end Lowering

open Verilog

/-- What a Verilog text drives is legal, in every module of it: what `assign` drives is no
register; what a procedure assigns is one; assignments that take effect at the end of
the step are in procedures on the edge of a clock; and no procedure has a procedure or
an `assign` in it. -/
theorem compile_drives_legally {source text : String} (h : compile source = .ok text) :
    ∃ ms, parse source = .ok ms ∧ text = String.intercalate "\n" ((readModules text).map linesText) ∧
      List.Forall₂ (fun m ls => ls.head? = some ⟨0, s!"module {m.name.name} ("⟩ ∧ DrivenLegally ls)
        ms (readModules text) := by
  obtain ⟨ms, hparse, hemit⟩ := compile_eq_ok_iff.mp h
  obtain ⟨vs, hvs, hread, htext⟩ := exists_lines_of_emit (legible_of_parse hparse) hemit
  refine ⟨ms, hparse, htext, ?_⟩
  rw [hread, List.forall₂_map_right_iff]
  refine hvs.imp ?_
  rintro m v ⟨hworded, s', hyields⟩
  refine ⟨?_, v.forms, mapM_form?_of_has hworded.has_forms, (Lowering.outside_of_yields hyields).legal⟩
  obtain ⟨ps, s₁, is, s₂, -, -, rfl, -⟩ := Lowering.yields_module.mp hyields
  rfl

/-- A text in which names of different storage hide each other, inside of procedures and
outside of them, and a register has the name of a word that opens a block. -/
def mixed : String :=
  "m(in c, in a, out reg q @c) " ++ braced (
    "@c " ++ braced ("reg a; a = q; if a q <- a; else " ++ braced "reg begin; begin = c;") ++
    braced "wire q; q = a; reg c @a; c <- q;" ++ "if q " ++ braced "reg q; q = a;")

def mixedVerilog : String :=
  "module m (\n\tinput c,\n\tinput a,\n\toutput reg q\n);\n\treg a_1;\n\treg begin;\n\treg q_2;\n" ++
  "\talways @(posedge c) begin\n\t\ta_1 = q;\n\t\tif (a_1) begin\n\t\t\tq <= a_1;\n\t\tend else begin\n" ++
  "\t\t\tbegin = c;\n\t\tend\n\tend\n\twire q_1;\n\tassign q_1 = a;\n\treg c_1;\n" ++
  "\talways @(posedge a)\n\t\tc_1 <= q_1;\n\talways @(*) begin\n\t\tif (q) begin\n\t\t\tq_2 = a;\n" ++
  "\t\tend\n\tend\nendmodule\n"

theorem compile_mixed : compile mixed = .ok mixedVerilog ∧
    ∃ ms, parse mixed = .ok ms ∧ mixedVerilog = String.intercalate "\n" ((readModules mixedVerilog).map linesText) ∧
      List.Forall₂ (fun m ls => ls.head? = some ⟨0, s!"module {m.name.name} ("⟩ ∧ DrivenLegally ls)
        ms (readModules mixedVerilog) := by
  have hcompile : compile mixed = .ok mixedVerilog := by decide +kernel
  exact ⟨hcompile, compile_drives_legally hcompile⟩

end Gateware

import Gateware.Proofs.Naming.Binding

/- The namespace of a Verilog module, read off the lines of the text. For every source that
   compiles and every module of the text it is proved that

   1. no name is declared twice, and the declarations of the source have one line each
      (`LegalNamespace.distinct`, `LegalNamespace.one_each`);
   2. ports are declared under their own names (`LegalNamespace.ports_kept`);
   3. every name that a line uses is declared on an earlier line of the same module
      (`LegalNamespace.declared_before`).

   The first two are read off the lines of declarations that binding gives. For the order it
   is enough to follow the items: names taken so far are those of the ports, of the hoisted
   lines, which come first in the text, and of the items before (`items_ordered`); the
   lines of an item use what the item uses (`ordered_forms`). Nothing is assumed but that
   the source compiles (`compile_legal_namespace`). -/
namespace Gateware

namespace Naming
open Lowering
open Verilog (Declaration Form Item Line)

/-! ## Order -/

section
variable {α : Type} {declared used : α → List String}

/-- Each of some things in a row uses only names that are known or that an earlier one
declares. -/
def Ordered (declared used : α → List String) (known : List String) : List α → Prop
  | [] => True
  | a :: as => used a ⊆ known ∧ Ordered declared used (known ++ declared a) as

theorem ordered_append {known : List String} {as bs : List α} : Ordered declared used known (as ++ bs) ↔
    Ordered declared used known as ∧ Ordered declared used (known ++ as.flatMap declared) bs := by
  induction as generalizing known with
  | nil => simp [Ordered]
  | cons a as ih => simp only [List.cons_append, Ordered, ih, List.flatMap_cons, List.append_assoc, and_assoc]

theorem ordered_of_used_eq_nil {known : List String} {as : List α} (h : ∀ a ∈ as, used a = []) :
    Ordered declared used known as := by
  induction as generalizing known with
  | nil => trivial
  | cons a as ih =>
    refine ⟨?_, ih fun b hb => h b (List.mem_cons_of_mem _ hb)⟩
    rw [h a List.mem_cons_self]
    exact List.nil_subset _

theorem ordered_of_declared_eq_nil {known : List String} {as : List α}
    (h : ∀ a ∈ as, declared a = [] ∧ used a ⊆ known) : Ordered declared used known as := by
  induction as with
  | nil => trivial
  | cons a as ih =>
    obtain ⟨hdeclared, hused⟩ := h a List.mem_cons_self
    refine ⟨hused, ?_⟩
    rw [hdeclared, List.append_nil]
    exact ih fun b hb => h b (List.mem_cons_of_mem _ hb)

end

/-! ## Items in order -/

variable {lines new : List Declaration} {env : Env} {s s' : State} {known : List String}

/-- The name that an item declares, if it is a declaration. -/
def itemNames (item : Item) : List String := item.declared.map (·.name)

theorem Aligned.mem_used (h : Aligned lines env s) {id : Ident} {b : Binding} (hb : s.scope.lookup id.name = some b) :
    b.emitted ∈ s.used := by
  obtain ⟨d, -, hname⟩ := h.agrees.renders hb
  obtain ⟨line, hline, hemitted⟩ := Option.map_eq_some_iff.mp hname
  rw [h.used_eq, List.mem_reverse]
  exact List.mem_map.mpr ⟨line, List.mem_of_getElem? hline, hemitted⟩

/-- Each declaration of a step is hoisted or stands in place. -/
theorem select_perm {places : List Bool} (h : new.length = places.length) :
    (select true new places ++ select false new places).Perm new := by
  have hsplit := List.filter_append_perm (fun p : Declaration × Bool => p.2) (new.zip places)
  have hmap := hsplit.map Prod.fst
  rw [List.map_append, List.map_fst_zip (Nat.le_of_eq h)] at hmap
  simpa [select] using hmap

section
variable {places : List Bool} {os : List Occurrence} {is : List Item}

/-- The names taken after a step are known, or the items of the step declare them. -/
theorem Placed.used_subset (h : Placed lines new s s' places os is) (haligned : Aligned lines env s)
    (hused : s.used ⊆ known) (hhoisted : s'.hoisted.map (·.name) ⊆ known) :
    s'.used ⊆ known ++ is.flatMap itemNames := by
  intro name hname
  rw [h.used_eq, List.mem_reverse, List.map_append, List.mem_append] at hname
  rcases hname with hname | hname
  · apply List.mem_append_left
    apply hused
    rw [haligned.used_eq, List.mem_reverse]
    exact hname
  · obtain ⟨d, hd, rfl⟩ := List.mem_map.mp hname
    rcases List.mem_append.mp ((select_perm h.length_eq).mem_iff.mpr hd) with hd | hd
    · apply List.mem_append_left
      apply hhoisted
      rw [h.hoisted_eq]
      exact List.mem_map.mpr ⟨d, List.mem_append_right _ hd, rfl⟩
    · apply List.mem_append_right
      rw [← h.inPlace_eq] at hd
      obtain ⟨item, hitem, hd⟩ := List.mem_flatMap.mp hd
      exact List.mem_flatMap.mpr ⟨item, hitem, List.mem_map.mpr ⟨d, hd, rfl⟩⟩

theorem Placed.names_subset (h : Placed lines new s s' places os is) : is.flatMap Item.names ⊆ s'.used := by
  intro name hname
  obtain ⟨i, hi, rfl⟩ := List.getElem_of_mem hname
  have hlt : i < os.length := by rw [h.rendered.length_eq]; exact hi
  obtain ⟨d, -, hat⟩ := h.rendered.get hlt hi
  obtain ⟨line, hline, heq⟩ := Option.map_eq_some_iff.mp hat
  rw [h.used_eq, List.mem_reverse]
  exact List.mem_map.mpr ⟨line, List.mem_of_getElem? hline, heq⟩

/-- A step with a single item. -/
theorem Placed.ordered {item : Item} (h : Placed lines new s s' places os [item]) (haligned : Aligned lines env s)
    (hclock : item.mentions ⊆ item.names ++ s.used) (hused : s.used ⊆ known)
    (hhoisted : s'.hoisted.map (·.name) ⊆ known) : Ordered itemNames Item.mentions known [item] := by
  refine ⟨?_, trivial⟩
  intro name hname
  rcases List.mem_append.mp (hclock hname) with hname | hname
  · cases item with
    | declaration d => exact absurd hname List.not_mem_nil
    | assign | register | always =>
      have hmem := h.used_subset haligned hused hhoisted (h.names_subset (List.mem_flatMap.mpr ⟨_, by simp, hname⟩))
      rw [List.flatMap_singleton] at hmem
      simpa [itemNames, Item.declared] using hmem
  · exact hused hname

end

/-- The items of a statement are in order, if the names taken before it are known and those
of all hoisted lines. -/
def ItemsOrdered (x : Stmt) : Prop :=
  ∀ ⦃lines : List Declaration⦄ ⦃env : Env⦄ ⦃s s' : State⦄ ⦃is : List Item⦄ ⦃known : List String⦄,
    Aligned lines env s → Yields (items x) s is s' → s.used ⊆ known → s'.hoisted.map (·.name) ⊆ known →
    Ordered itemNames Item.mentions known is

def AllItemsOrdered (xs : List Stmt) : Prop :=
  ∀ ⦃lines : List Declaration⦄ ⦃env : Env⦄ ⦃s s' : State⦄ ⦃is : List Item⦄ ⦃known : List String⦄,
    Aligned lines env s → Yields (allItems xs) s is s' → s.used ⊆ known → s'.hoisted.map (·.name) ⊆ known →
    Ordered itemNames Item.mentions known is

mutual

theorem items_ordered : ∀ x : Stmt, ItemsOrdered x
  | .block ⟨stmts, start, stop⟩, lines, env, s, s', is, known, h, hv, hused, hhoisted => by
    rw [items] at hv
    obtain ⟨s₁, hs₁, rfl⟩ := yields_inFrame.mp hv
    exact allItems_ordered stmts h.enter hs₁ hused hhoisted
  | .decl d pos, lines, env, s, s', is, known, h, hv, hused, hhoisted => by
    obtain ⟨new, -, hplaced, -⟩ := items_aligned _ h hv
    simp only [items, yields_bind, yields_pure] at hv
    obtain ⟨line, s₁, -, rfl, rfl⟩ := hv
    exact hplaced.ordered h (List.nil_subset _) hused hhoisted
  | .assign kind lhs rhs pos, lines, env, s, s', is, known, h, hv, hused, hhoisted => by
    obtain ⟨new, -, hplaced, -⟩ := items_aligned _ h hv
    simp only [items, yields_bind, yields_pure] at hv
    obtain ⟨item, s₁, hitem, rfl, rfl⟩ := hv
    refine hplaced.ordered h ?_ hused hhoisted
    obtain ⟨target, value, -, -, rfl, hkind⟩ := yields_continuous.mp hitem
    cases kind with
    | plain =>
      obtain ⟨-, rfl⟩ := hkind
      exact List.subset_append_left _ _
    | registered =>
      -- the clock is looked up where the assignment stands
      obtain ⟨-, clock, t, -, ht, rfl⟩ := hkind
      obtain ⟨b, hb, rfl, -⟩ := yields_trigger.mp ht
      exact List.cons_subset.mpr ⟨List.mem_append_right _ (h.mem_used hb), List.subset_append_left _ _⟩
  | .sequence clock inner pos, lines, env, s, s', is, known, h, hv, hused, hhoisted => by
    obtain ⟨new, -, hplaced, -⟩ := items_aligned _ h hv
    simp only [items, yields_bind, yields_pure] at hv
    obtain ⟨t, s₁, -, body, s₂, -, rfl, rfl⟩ := hv
    exact hplaced.ordered h (List.subset_append_left _ _) hused hhoisted
  | .conditional cond body alternative pos, lines, env, s, s', is, known, h, hv, hused, hhoisted => by
    obtain ⟨new, -, hplaced, -⟩ := items_aligned _ h hv
    rw [items] at hv
    obtain ⟨vs, s₁, -, hpure⟩ := yields_bind.mp hv
    obtain ⟨rfl, rfl⟩ := yields_pure.mp hpure
    exact hplaced.ordered h (List.subset_append_left _ _) hused hhoisted
  | .malformed pos, _, _, _, _, _, _, _, hv, _, _ => by rw [items] at hv; exact absurd hv not_yields_fail
  | .expr e pos, _, _, _, _, _, _, _, hv, _, _ => by rw [items] at hv; exact absurd hv not_yields_fail
  | .result value pos, _, _, _, _, _, _, _, hv, _, _ => by rw [items] at hv; exact absurd hv not_yields_fail
  | .loop cond body pos, _, _, _, _, _, _, _, hv, _, _ => by rw [items] at hv; exact absurd hv not_yields_fail

theorem allItems_ordered : ∀ xs : List Stmt, AllItemsOrdered xs
  | [], lines, env, s, s', is, known, h, hv, hused, hhoisted => by
    rw [allItems] at hv
    obtain ⟨rfl, rfl⟩ := yields_pure.mp hv
    trivial
  | x :: xs, lines, env, s, s', is, known, h, hv, hused, hhoisted => by
    simp only [allItems, yields_bind, yields_pure] at hv
    obtain ⟨is₁, s₁, hfirst, is₂, s₂, hothers, rfl, rfl⟩ := hv
    obtain ⟨new, -, hplaced, haligned⟩ := items_aligned x h hfirst
    obtain ⟨new', -, hplaced'⟩ := allItems_aligned xs haligned hothers
    have hhoisted₁ : s₁.hoisted.map (·.name) ⊆ known := by
      rw [hplaced'.hoisted_eq, List.map_append] at hhoisted
      exact List.Subset.trans (List.subset_append_left _ _) hhoisted
    have hused₁ := hplaced.used_subset h hused hhoisted₁
    refine ordered_append.mpr ⟨items_ordered x h hfirst hused hhoisted₁, ?_⟩
    exact allItems_ordered xs haligned hothers hused₁ (List.Subset.trans hhoisted (List.subset_append_left _ _))

end

/-! ## Ports -/

/-- Ports keep their names: none of them is taken, as long as the taken names are those of
the innermost frame. -/
theorem ports_named {ps : List Port} {vs : List Verilog.Port}
    (h : ∀ name ∈ s.used, ∃ b ∈ s.scope.innermost, b.signal.name.name = name) (hv : Yields (ports ps) s vs s') :
    vs.map (·.declaration.name) = ps.map (·.signal.name.name) := by
  induction ps generalizing s vs with
  | nil =>
    obtain ⟨rfl, -⟩ := yields_pure.mp hv
    rfl
  | cons p ps ih =>
    simp only [ports, yields_bind, yields_port, yields_pure] at hv
    obtain ⟨_, _, ⟨hfree, rfl, rfl⟩, vs, s₁, hothers, rfl, rfl⟩ := hv
    have hfresh : freshName s.used p.signal.name.name = p.signal.name.name := by
      refine if_neg ?_
      intro hused
      obtain ⟨b, hb, hname⟩ := h _ hused
      exact absurd hname (by simpa using List.find?_eq_none.mp hfree b hb)
    have hnext : ∀ name ∈ (s.declared p.signal).used,
        ∃ b ∈ (s.declared p.signal).scope.innermost, b.signal.name.name = name := by
      intro name hname
      rcases List.mem_cons.mp hname with rfl | hname
      · exact ⟨_, List.mem_cons_self, hfresh.symm⟩
      · obtain ⟨b, hb, rfl⟩ := h name hname
        exact ⟨b, List.mem_cons_of_mem _ hb, rfl⟩
    rw [List.map_cons, List.map_cons, ih hnext hothers]
    exact congrArg (· :: _) hfresh

/-! ## Lines in order -/

/-- The name that a line declares, if it declares one. -/
def declaredName (f : Form) : List String := (f.net?.map (·.name)).toList

theorem flatMap_declaredName (fs : List Form) :
    fs.flatMap declaredName = (fs.filterMap Form.net?).map (·.name) := by
  induction fs with
  | nil => rfl
  | cons f fs ih =>
    rw [List.flatMap_cons, ih, declaredName]
    cases hnet : f.net? with
    | none => rw [List.filterMap_cons_none hnet]; rfl
    | some net => rw [List.filterMap_cons_some hnet]; rfl

theorem flatMap_declaredName_item (item : Item) : item.forms.flatMap declaredName = itemNames item := by
  rw [flatMap_declaredName, item.nets_forms, List.map_map]
  rfl

/-- The lines of an item are in order if all that it uses is known. -/
theorem ordered_item {item : Item} (hworded : item.Worded) (h : item.mentions ⊆ known) :
    Ordered declaredName Form.used known item.forms := by
  cases item with
  | declaration d => exact ordered_of_used_eq_nil (List.forall_mem_singleton.mpr rfl)
  | assign | register | always =>
    refine ordered_of_declared_eq_nil fun f hf => ⟨?_, ?_⟩
    · rw [declaredName, List.filterMap_eq_nil_iff.mp (Item.nets_forms _) f hf]
      rfl
    · intro name hname
      apply h
      rw [← Item.used_forms hworded]
      exact List.mem_flatMap.mpr ⟨f, hf, hname⟩

theorem ordered_items {is : List Item} (hworded : ∀ item ∈ is, item.Worded)
    (h : Ordered itemNames Item.mentions known is) :
    Ordered declaredName Form.used known (is.flatMap Item.forms) := by
  induction is generalizing known with
  | nil => trivial
  | cons item is ih =>
    obtain ⟨hmentions, hothers⟩ := h
    rw [List.flatMap_cons, ordered_append, flatMap_declaredName_item]
    exact ⟨ordered_item (hworded item List.mem_cons_self) hmentions,
      ih (fun i hi => hworded i (List.mem_cons_of_mem _ hi)) hothers⟩

/-- The lines of a module are in order if its items are, after the ports and the hoisted
declarations. -/
theorem ordered_forms {v : Verilog.Module} (hworded : v.Worded)
    (h : Ordered itemNames Item.mentions (v.ports.map (·.declaration.name) ++ v.hoisted.map (·.name)) v.items) :
    Ordered declaredName Form.used [] v.forms := by
  have hhead : v.headForms.flatMap declaredName =
      v.ports.map (·.declaration.name) ++ v.hoisted.map (·.name) := by
    rw [flatMap_declaredName, v.nets_headForms, List.map_map, List.map_append, List.map_map]
    rfl
  rw [v.forms_eq, ordered_append, ordered_append, hhead]
  exact ⟨ordered_of_used_eq_nil fun f hf => (v.used_headForms f hf).1, ordered_items hworded.items h,
    ordered_of_used_eq_nil (List.forall_mem_singleton.mpr rfl)⟩

/-! ## Modules -/

mutual

theorem length_inProcedure : ∀ x : Stmt, x.inProcedure.length = x.declarations.length
  | .decl (.signal _) _ => rfl
  | .block ⟨stmts, _, _⟩ => length_allInProcedure stmts
  | .sequence .. | .conditional .. => List.length_map _
  | .decl (.value _) _ | .decl (.port _) _ | .decl (.submodule _) _ | .assign .. | .malformed _ | .expr ..
  | .result .. | .loop .. => rfl

theorem length_allInProcedure : ∀ xs : List Stmt,
    (Stmt.allInProcedure xs).length = (Stmt.allDeclarations xs).length
  | [] => rfl
  | x :: xs => by
    rw [Stmt.allInProcedure, Stmt.allDeclarations, List.length_append, List.length_append, length_inProcedure x,
      length_allInProcedure xs]

end

/-- Every declaration has its place in the text. -/
theorem inTextOrder_perm {m : Module} (h : List.Forall₂ Declares m.declarations lines) :
    (inTextOrder m lines).Perm lines := by
  have hlength : (lines.drop m.ports.length).length = (Stmt.allInProcedure m.body.stmts).length := by
    rw [List.length_drop, ← h.length_eq, ModuleOf.declarations, List.length_append, List.length_map,
      length_allInProcedure, Nat.add_sub_cancel_left]
  have hperm := (select_perm hlength).append_left (lines.take m.ports.length)
  rw [List.take_append_drop] at hperm
  exact hperm

/-- The namespace of a Verilog module is legal, by what its lines declare and use: no name is
declared twice; the declarations of the source have one line each; ports are declared
under their own names; and a name is declared on a line before those that use it. -/
structure LegalNamespace (m : Module) (fs : List Form) : Prop where
  distinct : ((fs.filterMap Form.net?).map (·.name)).Nodup
  one_each : ∃ lines, BoundIn m fs lines ∧ (fs.filterMap Form.net?).Perm (lines.map Declaration.net)
  ports_kept : fs.filterMap Form.portName? = m.ports.map (·.signal.name.name)
  declared_before : ∀ {before after : List Form} {f : Form}, fs = before ++ f :: after →
    f.used ⊆ (before.filterMap Form.net?).map (·.name)

/-- The items of a module are in order, after its ports and its hoisted lines. -/
theorem ordered_of_yields {m : Module} {v : Verilog.Module} (h : Yields (Lowering.module m) State.initial v s') :
    Ordered itemNames Item.mentions (v.ports.map (·.declaration.name) ++ v.hoisted.map (·.name)) v.items ∧
      v.ports.map (·.declaration.name) = m.ports.map (·.signal.name.name) := by
  obtain ⟨ps, s₁, is, s₂, hports, hitems, rfl, rfl⟩ := yields_module.mp h
  refine ⟨?_, ports_named (fun _ hname => absurd hname List.not_mem_nil) hports⟩
  obtain ⟨-, -, -, haligned⟩ := ports_aligned initial_aligned hports
  refine allItems_ordered m.body.stmts haligned.enter hitems ?_ (List.subset_append_right _ _)
  -- only the names of the ports are taken before the body
  intro name hname
  apply List.mem_append_left
  change name ∈ s₁.used at hname
  rw [haligned.used_eq, List.mem_reverse] at hname
  simpa using hname

theorem legalNamespace_of_yields {m : Module} {v : Verilog.Module} (hworded : v.Worded)
    (h : Yields (Lowering.module m) State.initial v s') : LegalNamespace m v.forms := by
  obtain ⟨lines, hbound⟩ := bound_of_yields h
  obtain ⟨hitems, hports⟩ := ordered_of_yields h
  have hboundIn := hbound.boundIn hworded
  have hperm : (v.forms.filterMap Form.net?).Perm (lines.map Declaration.net) := by
    rw [hboundIn.nets_eq]
    exact (inTextOrder_perm hbound.declares).map _
  refine ⟨?_, ⟨lines, hboundIn, hperm⟩, ?_, ?_⟩
  · rw [(hperm.map (·.name)).nodup_iff, List.map_map]
    exact hbound.nodup
  · rw [v.portNames_forms, hports]
  · intro before after f hsplit
    have hordered := ordered_forms hworded hitems
    rw [hsplit, ordered_append, flatMap_declaredName] at hordered
    exact hordered.2.1

end Naming

open Naming
open Verilog (Line linesText readModules)

/-- Every module in the text for a source has a legal namespace, by the lines of the text. -/
theorem compile_legal_namespace {source text : String} (h : compile source = .ok text) :
    ∃ ms, parse source = .ok ms ∧ text = String.intercalate "\n" ((readModules text).map linesText) ∧
      List.Forall₂ (fun m ls => ∃ fs, ls.mapM Line.form? = some fs ∧ LegalNamespace m fs) ms (readModules text) := by
  obtain ⟨ms, hparse, hemit⟩ := compile_eq_ok_iff.mp h
  obtain ⟨vs, hvs, hread, htext⟩ := exists_lines_of_emit (legible_of_parse hparse) hemit
  refine ⟨ms, hparse, htext, ?_⟩
  rw [hread, List.forall₂_map_right_iff]
  refine hvs.imp ?_
  intro m v hv
  obtain ⟨hworded, s', hyields⟩ := hv
  exact ⟨v.forms, Verilog.mapM_form?_of_has hworded.has_forms, legalNamespace_of_yields hworded hyields⟩

/-- A text in which a procedure declares a name that a port has, and the first numbered form of
it is taken too. -/
def crowded : String :=
  "m(in a, in c, out reg b @c) " ++ braced ("reg a_1 @c; if a " ++ braced "reg a; a = b; b = a;" ++ "a_1 <- a;")

def crowdedVerilog : String :=
  "module m (\n\tinput a,\n\tinput c,\n\toutput reg b\n);\n\treg a_2;\n\treg a_1;\n" ++
  "\talways @(*) begin\n\t\tif (a) begin\n\t\t\ta_2 = b;\n\t\t\tb = a_2;\n\t\tend\n\tend\n" ++
  "\talways @(posedge c)\n\t\ta_1 <= a;\nendmodule\n"

theorem compile_crowded : compile crowded = .ok crowdedVerilog ∧
    ∃ ms, parse crowded = .ok ms ∧ crowdedVerilog = String.intercalate "\n" ((readModules crowdedVerilog).map linesText) ∧
      List.Forall₂ (fun m ls => ∃ fs, ls.mapM Line.form? = some fs ∧ LegalNamespace m fs) ms
        (readModules crowdedVerilog) := by
  have hcompile : compile crowded = .ok crowdedVerilog := by decide +kernel
  exact ⟨hcompile, compile_legal_namespace hcompile⟩

end Gateware

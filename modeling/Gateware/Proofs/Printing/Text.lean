import Gateware.Compile
import Gateware.Proofs.Lowering.Modules
import Gateware.Proofs.Naming.Vocabulary
import Gateware.Proofs.Printing.Forms

/- Reading a Verilog text.

   This file

   1. gives the forms of the lines of a module, which follow its statements (`Module.forms`);
   2. proves that the lines which are printed have these forms (`Module.Worded.has_forms`), by
      recursion on the statements (`Stmt.has_forms`);
   3. defines how a text is cut into lines, and these into modules at the empty lines
      (`readModules`), and proves that a printed text is cut into the lines it was put together from
      (`readModules_text`);
   4. concludes for the text of modules that were read: the lines of each module are found in the
      text, and the text has nothing else (`exists_lines_of_emit`).

   Assumed is that all names are words, which holds of every module of a source text
   (`legible_of_parse`). -/
namespace Gateware.Verilog

/-! ## Forms of a module -/

def Declaration.form (d : Declaration) : Form := .declaration d.isRegister (topBit d.width) d.name

def Port.form (p : Port) (more : Bool) : Form :=
  .port p.direction p.declaration.isRegister (topBit p.declaration.width) p.declaration.name more

/-- The forms of ports; all but the last one end with a comma. -/
def Port.forms : List Port → List Form
  | [] => []
  | [p] => [p.form false]
  | p :: ps => p.form true :: Port.forms ps

mutual

def Stmt.forms : Stmt → List Form
  | .blocking target value => [.blocking target value.text]
  | .nonblocking target value => [.nonblocking target value.text]
  | .block body => .beginBlock :: (Stmt.allForms body ++ [.endBlock])
  | .conditional cond body others otherwise =>
    .condition cond.text ::
      (Stmt.allForms body ++ Stmt.othersForms others ++ Stmt.otherwiseForms otherwise ++ [.endBlock])

def Stmt.allForms : List Stmt → List Form
  | [] => []
  | s :: ss => s.forms ++ Stmt.allForms ss

def Stmt.othersForms : List (Expr × List Stmt) → List Form
  | [] => []
  | (cond, body) :: others => .otherCondition cond.text :: (Stmt.allForms body ++ Stmt.othersForms others)

def Stmt.otherwiseForms : Option (List Stmt) → List Form
  | none => []
  | some body => .otherwise :: Stmt.allForms body

end

def Item.forms : Item → List Form
  | .declaration d => [d.form]
  | .assign target value => [.assign target value.text]
  | .register trigger target value => [.always (.trigger trigger) false, .nonblocking target value.text]
  | .always sensitivity body => .always sensitivity true :: (Stmt.allForms body ++ [.endBlock])

def Module.forms (m : Module) : List Form :=
  .header m.name :: (Port.forms m.ports ++ .endPorts :: (m.hoisted.map Declaration.form ++
    (m.items.flatMap Item.forms ++ [.endModule])))

theorem Stmt.allForms_append (vs ws : List Stmt) :
    Stmt.allForms (vs ++ ws) = Stmt.allForms vs ++ Stmt.allForms ws := by
  induction vs with
  | nil => rfl
  | cons v vs ih => simp only [List.cons_append, Stmt.allForms, ih, List.append_assoc]

/-! ## Flat texts -/

namespace Form

theorem isFlat_append {s t : String} : IsFlat (s ++ t) ↔ IsFlat s ∧ IsFlat t := by
  simp only [IsFlat, String.toList_append]
  exact List.forall_mem_append

theorem isFlat_of_isWord {text : String} (h : IsWord text) : IsFlat text := by
  intro c hc
  have hword := h.2 c hc
  constructor
  all_goals
    rintro rfl
    cases hword

theorem isFlat_rangeText (top : Option Nat) : IsFlat (rangeText top) := by
  cases top with
  | none => exact fun _ hc => absurd hc (by simp [rangeText])
  | some top =>
    simp only [rangeText, isFlat_append]
    exact ⟨⟨by decide, isFlat_of_isWord (isWord_toString top)⟩, by decide⟩

theorem Legible.isFlat {f : Form} (h : f.Legible) : IsFlat f.text := by
  cases f with
  | header name =>
    have hname := isFlat_of_isWord h
    simp only [text, isFlat_append]
    exact ⟨⟨by decide, hname⟩, by decide⟩
  | port direction isRegister top name more =>
    simp only [text, isFlat_append]
    refine ⟨⟨⟨⟨⟨?_, ?_⟩, isFlat_rangeText top⟩, by decide⟩, isFlat_of_isWord h⟩, ?_⟩
    · cases direction <;> decide
    · split <;> decide
    · split <;> decide
  | declaration isRegister top name =>
    simp only [text, isFlat_append]
    refine ⟨⟨⟨⟨?_, isFlat_rangeText top⟩, by decide⟩, isFlat_of_isWord h⟩, by decide⟩
    split <;> decide
  | assign target value =>
    simp only [text, isFlat_append]
    exact ⟨⟨⟨⟨by decide, isFlat_of_isWord h.1⟩, by decide⟩, h.2⟩, by decide⟩
  | always sensitivity opens =>
    simp only [text, isFlat_append]
    refine ⟨⟨by decide, ?_⟩, ?_⟩
    · cases sensitivity with
      | inputs => decide
      | trigger t =>
        unfold Sensitivity.text Trigger.text
        simp only [isFlat_append, toString]
        refine ⟨⟨?_, by decide⟩, isFlat_of_isWord h⟩
        split <;> decide
    · split <;> decide
  | blocking target value | nonblocking target value =>
    simp only [text, isFlat_append]
    exact ⟨⟨⟨isFlat_of_isWord h.1, by decide⟩, h.2⟩, by decide⟩
  | condition cond | otherCondition cond =>
    simp only [text, isFlat_append]
    exact ⟨⟨by decide, h⟩, by decide⟩
  | endPorts | beginBlock | otherwise | endBlock | endModule => decide

/-- An empty line has no form. -/
theorem Legible.text_ne_empty {f : Form} (h : f.Legible) : f.text ≠ "" := by
  intro hempty
  have hread := read_text h
  have hnone : read "" = none := by decide
  rw [hempty, hnone] at hread
  cases hread

theorem isFlat_of_spelled {e : Expr} {u : List String} (h : e.Spelled u) : IsFlat e.text := by
  have henclose {t : String} (parens : Bool) (ht : IsFlat t) : IsFlat (Expr.enclose parens t) := by
    cases parens with
    | false => exact ht
    | true =>
      simp only [Expr.enclose, if_true, isFlat_append]
      exact ⟨⟨by decide, ht⟩, by decide⟩
  induction h with
  | name h => exact isFlat_of_isWord h.1
  | literal h => exact isFlat_of_isWord h.1
  | binary op hl hr ihl ihr =>
    simp only [Expr.text, isFlat_append]
    refine ⟨⟨⟨⟨henclose _ ihl, by decide⟩, ?_⟩, by decide⟩, henclose _ ihr⟩
    cases op <;> decide

end Form

/-! ## Lines of a module -/

/-- A line has a form, which can be read from it. -/
def Line.Has (l : Line) (f : Form) : Prop := l.text = f.text ∧ f.Legible

def Line.form? (l : Line) : Option Form := Form.read l.text

theorem mapM_form?_of_has {ls : List Line} {fs : List Form} (h : List.Forall₂ Line.Has ls fs) :
    ls.mapM Line.form? = some fs := by
  induction h with
  | nil => rfl
  | cons hline _ ih =>
    obtain ⟨htext, hlegible⟩ := hline
    rw [List.mapM_cons, Line.form?, htext, Form.read_text hlegible, ih]
    rfl

theorem flat_of_has {ls : List Line} {fs : List Form} (h : List.Forall₂ Line.Has ls fs) :
    ∀ l ∈ ls, Form.IsFlat l.text ∧ l.text ≠ "" := by
  induction h with
  | nil => exact fun _ hl => absurd hl List.not_mem_nil
  | cons hline _ ih =>
    obtain ⟨htext, hlegible⟩ := hline
    refine List.forall_mem_cons.mpr ⟨?_, ih⟩
    rw [htext]
    exact ⟨hlegible.isFlat, hlegible.text_ne_empty⟩

theorem range_eq (width : Nat) : range width = rangeText (topBit width) := by
  unfold range topBit
  split <;> rfl

theorem Declaration.has_form {d : Declaration} (hname : IsWord d.name) (indent : Nat) :
    (Line.mk indent d.text).Has d.form := by
  refine ⟨?_, hname⟩
  simp only [Declaration.text, Declaration.form, Form.text, range_eq, toString]

theorem Port.text_form (p : Port) (more : Bool) : (p.form more).text = p.text ++ (if more then "," else "") := by
  simp only [Port.text, Port.form, Form.text, range_eq, toString]

theorem Port.has_forms {ps : List Port} (h : ∀ p ∈ ps, IsWord p.declaration.name) :
    List.Forall₂ Line.Has (Port.lines ps) (Port.forms ps) := by
  induction ps with
  | nil => exact .nil
  | cons p ps ih =>
    have hname := h p List.mem_cons_self
    cases ps with
    | nil => exact .cons ⟨by simp [Port.text_form], hname⟩ .nil
    | cons q ps =>
      exact .cons ⟨by simp [Port.text_form], hname⟩ (ih fun r hr => h r (List.mem_cons_of_mem _ hr))

theorem has_endBlock (indent : Nat) : List.Forall₂ Line.Has [⟨indent, "end"⟩] [Form.endBlock] :=
  .cons ⟨rfl, trivial⟩ .nil

mutual

theorem Stmt.has_forms : ∀ (x : Stmt) (indent : Nat), x.Worded → List.Forall₂ Line.Has (x.lines indent) x.forms
  | .blocking target value, indent, h => by
    obtain ⟨htarget, u, hvalue⟩ := h
    exact .cons ⟨rfl, htarget.1, Form.isFlat_of_spelled hvalue⟩ .nil
  | .nonblocking target value, indent, h => by
    obtain ⟨htarget, u, hvalue⟩ := h
    exact .cons ⟨rfl, htarget.1, Form.isFlat_of_spelled hvalue⟩ .nil
  | .block body, indent, h => by
    rw [Stmt.lines, Stmt.forms]
    exact .cons ⟨rfl, trivial⟩ (List.rel_append (Stmt.has_allForms body (indent + 1) h) (has_endBlock indent))
  | .conditional cond body others otherwise, indent, h => by
    obtain ⟨⟨u, hcond⟩, hbody, hothers, hotherwise⟩ := h
    rw [Stmt.lines, Stmt.forms]
    have hbranches := List.rel_append (List.rel_append (Stmt.has_allForms body (indent + 1) hbody)
      (Stmt.has_othersForms others indent hothers)) (Stmt.has_otherwiseForms otherwise indent hotherwise)
    exact .cons ⟨rfl, Form.isFlat_of_spelled hcond⟩ (List.rel_append hbranches (has_endBlock indent))

theorem Stmt.has_allForms : ∀ (xs : List Stmt) (indent : Nat), Stmt.allWorded xs →
    List.Forall₂ Line.Has (Stmt.bodyLines indent xs) (Stmt.allForms xs)
  | [], _, _ => .nil
  | x :: xs, indent, h => by
    rw [Stmt.bodyLines, Stmt.allForms]
    exact List.rel_append (x.has_forms indent h.1) (Stmt.has_allForms xs indent h.2)

theorem Stmt.has_othersForms : ∀ (others : List (Expr × List Stmt)) (indent : Nat), Stmt.othersWorded others →
    List.Forall₂ Line.Has (Stmt.othersLines indent others) (Stmt.othersForms others)
  | [], _, _ => .nil
  | (cond, body) :: others, indent, h => by
    obtain ⟨⟨u, hcond⟩, hbody, hothers⟩ := h
    rw [Stmt.othersLines, Stmt.othersForms]
    exact .cons ⟨rfl, Form.isFlat_of_spelled hcond⟩
      (List.rel_append (Stmt.has_allForms body (indent + 1) hbody) (Stmt.has_othersForms others indent hothers))

theorem Stmt.has_otherwiseForms : ∀ (otherwise : Option (List Stmt)) (indent : Nat),
    Stmt.otherwiseWorded otherwise →
    List.Forall₂ Line.Has (Stmt.otherwiseLines indent otherwise) (Stmt.otherwiseForms otherwise)
  | none, _, _ => .nil
  | some body, indent, h => .cons ⟨rfl, trivial⟩ (Stmt.has_allForms body (indent + 1) h)

end

theorem Item.has_forms {item : Item} (h : item.Worded) (indent : Nat) :
    List.Forall₂ Line.Has (item.lines indent) item.forms := by
  cases item with
  | declaration d => exact .cons (Declaration.has_form h.1 indent) .nil
  | assign target value =>
    obtain ⟨htarget, u, hvalue⟩ := h
    exact .cons ⟨rfl, htarget.1, Form.isFlat_of_spelled hvalue⟩ .nil
  | register trigger target value =>
    obtain ⟨hclock, htarget, u, hvalue⟩ := h
    exact .cons ⟨rfl, hclock.1⟩ (.cons ⟨rfl, htarget.1, Form.isFlat_of_spelled hvalue⟩ .nil)
  | always sensitivity body =>
    obtain ⟨hsensitivity, hbody⟩ := h
    refine .cons ⟨rfl, ?_⟩ (List.rel_append (Stmt.has_allForms body (indent + 1) hbody) (has_endBlock indent))
    cases sensitivity with
    | inputs => trivial
    | trigger t => exact (hsensitivity t.clock (by simp [Sensitivity.names])).1

theorem has_items {is : List Item} (h : ∀ item ∈ is, item.Worded) (indent : Nat) :
    List.Forall₂ Line.Has (is.flatMap (Item.lines indent)) (is.flatMap Item.forms) := by
  induction is with
  | nil => exact .nil
  | cons item is ih =>
    exact List.rel_append (Item.has_forms (h item List.mem_cons_self) indent)
      (ih fun i hi => h i (List.mem_cons_of_mem _ hi))

theorem has_hoisted {ds : List Declaration} (h : ∀ d ∈ ds, IsWordOf .identifier d.name) (indent : Nat) :
    List.Forall₂ Line.Has (ds.map fun d => ⟨indent, d.text⟩) (ds.map Declaration.form) := by
  induction ds with
  | nil => exact .nil
  | cons d ds ih =>
    exact .cons (Declaration.has_form (h d List.mem_cons_self).1 indent)
      (ih fun d' hd' => h d' (List.mem_cons_of_mem _ hd'))

/-- The lines of a module have its forms. -/
theorem Module.Worded.has_forms {m : Module} (h : m.Worded) : List.Forall₂ Line.Has m.lines m.forms := by
  have hend : List.Forall₂ Line.Has [⟨0, "endmodule"⟩] [Form.endModule] := .cons ⟨rfl, trivial⟩ .nil
  have hports := Port.has_forms fun p hp => (h.ports p hp).1
  have hitems := List.rel_append (has_items h.items 1) hend
  have hbody := List.Forall₂.cons (R := Line.Has) (a := ⟨0, ");"⟩) (b := .endPorts) ⟨rfl, trivial⟩
    (List.rel_append (has_hoisted h.hoisted 1) hitems)
  have hall := List.Forall₂.cons (R := Line.Has) (a := ⟨0, s!"module {m.name} ("⟩) (b := .header m.name)
    ⟨rfl, h.name.1⟩ (List.rel_append hports hbody)
  simpa [Module.lines, Module.forms] using hall

/-! ## Cutting a text -/

/-- The line with the given characters. -/
def readLine (cs : List Char) : Line :=
  ⟨(cs.takeWhile (· == '\t')).length, String.ofList (cs.dropWhile (· == '\t'))⟩

/-- The lines of a text, each of which ends with a line break. -/
def readLines (text : String) : List Line := (text.toList.splitOn '\n').dropLast.map readLine

/-- The lines of each module of a text; there is an empty line between two modules. -/
def readModules (text : String) : List (List Line) := ((readLines text).splitOn ⟨0, ""⟩).filter (· ≠ [])

/-- The text of some lines. -/
def linesText (ls : List Line) : String := ls.foldl (fun out line => out ++ line.render) ""

/-- The characters of a line, without the line break. -/
def Line.chars (l : Line) : List Char := List.replicate l.indent '\t' ++ l.text.toList

theorem readLine_chars {l : Line} (h : Form.IsFlat l.text) : readLine l.chars = l := by
  have htabs : ∀ c ∈ List.replicate l.indent '\t', (c == '\t') = true := by
    intro c hc
    rw [List.eq_of_mem_replicate hc]
    rfl
  have htext : ∀ c, l.text.toList.head? = some c → (c == '\t') = false := by
    intro c hc
    simpa using (h c (List.mem_of_head? hc)).2
  obtain ⟨htake, hdrop⟩ := Form.span_append htabs htext
  rw [readLine, Line.chars, htake, hdrop, List.length_replicate, String.ofList_toList]

theorem splitOn_render {ls : List Line} (h : ∀ l ∈ ls, Form.IsFlat l.text) :
    (ls.flatMap fun l => l.chars ++ ['\n']).splitOn '\n' = ls.map Line.chars ++ [[]] := by
  induction ls with
  | nil => rfl
  | cons l ls ih =>
    have hflat := h l List.mem_cons_self
    have hnot : '\n' ∉ l.chars := by
      intro hmem
      rcases List.mem_append.mp hmem with hmem | hmem
      · exact absurd (List.eq_of_mem_replicate hmem) (by decide)
      · exact (hflat _ hmem).1 rfl
    rw [List.flatMap_cons, List.append_assoc, List.singleton_append, List.splitOn_append_cons_self_of_not_mem hnot,
      ih fun l' hl' => h l' (List.mem_cons_of_mem _ hl')]
    rfl

theorem Line.toList_render (l : Line) : l.render.toList = l.chars ++ ['\n'] := by
  simp [Line.render, Line.chars]

theorem toList_linesText (ls : List Line) : (linesText ls).toList = ls.flatMap fun l => l.chars ++ ['\n'] := by
  have hfold (out : String) : (ls.foldl (fun out line => out ++ line.render) out).toList =
      out.toList ++ ls.flatMap fun l => l.chars ++ ['\n'] := by
    induction ls generalizing out with
    | nil => simp
    | cons l ls ih => simp [ih, Line.toList_render]
  rw [linesText, hfold, String.toList_empty, List.nil_append]

/-- Modules are printed one by one, and an empty line between two of them. -/
theorem toList_text (vs : List Module) :
    (text vs).toList = ([⟨0, ""⟩].intercalate (vs.map Module.lines)).flatMap fun l => l.chars ++ ['\n'] := by
  rw [text, String.toList_intercalate]
  induction vs with
  | nil => rfl
  | cons v vs ih =>
    cases vs with
    | nil =>
      simp only [List.map_cons, List.map_nil, List.intercalate_singleton]
      exact toList_linesText v.lines
    | cons w vs =>
      simp only [List.map_cons, List.intercalate_cons_cons, List.flatMap_append] at ih ⊢
      rw [ih]
      refine congrArg₂ (· ++ ·) (congrArg₂ (· ++ ·) (toList_linesText v.lines) ?_) rfl
      decide

theorem mem_of_mem_intercalate {α : Type} {a sep : α} {xs : List (List α)} (h : a ∈ [sep].intercalate xs) :
    a = sep ∨ ∃ x ∈ xs, a ∈ x := by
  induction xs with
  | nil => exact absurd h List.not_mem_nil
  | cons x xs ih =>
    cases xs with
    | nil =>
      rw [List.intercalate_singleton] at h
      exact .inr ⟨x, List.mem_cons_self, h⟩
    | cons y xs =>
      rw [List.intercalate_cons_cons, List.mem_append, List.mem_append, List.mem_singleton] at h
      rcases h with (hx | hsep) | hxs
      · exact .inr ⟨x, List.mem_cons_self, hx⟩
      · exact .inl hsep
      · exact (ih hxs).imp id fun ⟨z, hz, ha⟩ => ⟨z, List.mem_cons_of_mem _ hz, ha⟩

theorem readLines_text {vs : List Module} (h : ∀ v ∈ vs, v.Worded) :
    readLines (text vs) = [⟨0, ""⟩].intercalate (vs.map Module.lines) := by
  have hflat : ∀ l ∈ [⟨0, ""⟩].intercalate (vs.map Module.lines), Form.IsFlat l.text := by
    intro l hl
    rcases mem_of_mem_intercalate hl with rfl | ⟨ls, hls, hl⟩
    · decide
    · obtain ⟨v, hv, rfl⟩ := List.mem_map.mp hls
      exact (flat_of_has (h v hv).has_forms l hl).1
  rw [readLines, toList_text, splitOn_render hflat, List.dropLast_concat, List.map_map]
  exact (List.map_congr_left fun l hl => readLine_chars (hflat l hl)).trans (List.map_id _)

/-- The modules of a text are recovered from it. -/
theorem readModules_text {vs : List Module} (h : ∀ v ∈ vs, v.Worded) :
    readModules (text vs) = vs.map Module.lines := by
  rw [readModules, readLines_text h]
  by_cases hvs : vs = []
  · rw [hvs]
    rfl
  have hblank : ∀ ls ∈ vs.map Module.lines, (⟨0, ""⟩ : Line) ∉ ls := by
    intro ls hls hl
    obtain ⟨v, hv, rfl⟩ := List.mem_map.mp hls
    exact (flat_of_has (h v hv).has_forms _ hl).2 rfl
  rw [List.splitOn_intercalate _ hblank (by simpa using hvs), List.filter_eq_self]
  intro ls hls
  obtain ⟨v, -, rfl⟩ := List.mem_map.mp hls
  exact decide_eq_true (List.cons_ne_nil _ _)

end Gateware.Verilog

/-! ## Texts of modules that were read -/

namespace Gateware
open Verilog

/-- The lines of each module are found in the text, and the text has nothing else. -/
theorem exists_lines_of_emit {ms : List Module} {text : String} (hlegible : ∀ m ∈ ms, m.Legible)
    (hemit : (emit ms).result = .ok text) :
    ∃ vs : List Verilog.Module,
      List.Forall₂ (fun m v => v.Worded ∧ ∃ s', (Lowering.module m).Yields .initial v s') ms vs ∧
      readModules text = vs.map Module.lines ∧
      text = String.intercalate "\n" ((readModules text).map linesText) := by
  obtain ⟨vs, hvs, rfl⟩ := Lowering.emit_eq_ok_iff.mp hemit
  have hlowered : List.Forall₂ (fun m v => v.Worded ∧ ∃ s', (Lowering.module m).Yields .initial v s') ms vs := by
    clear hemit
    induction hvs with
    | nil => exact .nil
    | cons hv _ ih =>
      obtain ⟨s', hyields⟩ := Lowering.lower_eq_ok_iff.mp hv
      exact .cons ⟨(hlegible _ List.mem_cons_self).worded hyields, s', hyields⟩
        (ih fun m hm => hlegible m (List.mem_cons_of_mem _ hm))
  have hread := readModules_text ((List.forall₂_and_left _ _).mp hlowered.flip).1
  refine ⟨vs, hlowered, hread, ?_⟩
  rw [hread, List.map_map]
  rfl

theorem compile_eq_ok_iff {source text : String} :
    compile source = .ok text ↔ ∃ ms, parse source = .ok ms ∧ (emit ms).result = .ok text := by
  unfold compile
  cases parse source with
  | error e => simp
  | ok ms =>
    simp only [Except.ok.injEq, exists_eq_left']
    cases (emit ms).result <;> simp [Except.mapError]

end Gateware

import Mathlib.Data.List.Nodup
import Gateware.Proofs.Lowering.Runs
import Gateware.Proofs.Naming.Binding
import Gateware.Proofs.Printing.Text

/- What lowering adds to a state, and what is printed of it.

   This file

   1. says of lines that they are whole, and that none is to the left of an indentation
      (`Verilog.IsLine`, `Verilog.Indented`);
   2. says what a run takes (`State.Takes`): one new name for each declaration, and a hoisted line
      for each of those that are inside a procedure; what it found before stays as it was;
   3. proves by induction on runs that every run takes just this (`Contents.takes` to
      `AllItems.takes`), since runs one after another take what both take (`State.Takes.trans`) and
      a frame has no part in it (`State.Takes.leave`);
   4. proves by induction on runs that the lines made of the result are whole lines that are
      indented as asked for (`Contents.indented` to `AllItems.indented`).

   Assumed in the last part is that the emitted names in reach have no line breaks
   (`State.Unbroken`), which is kept by declarations of names that have none. -/
namespace Gateware

/-! ## Indented lines -/

namespace Verilog

/-- A text without line breaks. -/
def IsLine (text : String) : Prop := '\n' ∉ text.toList

instance (text : String) : Decidable (IsLine text) := inferInstanceAs (Decidable ('\n' ∉ text.toList))

theorem isLine_append {s t : String} : IsLine (s ++ t) ↔ IsLine s ∧ IsLine t := by
  simp only [IsLine, String.toList_append, List.mem_append, not_or]

theorem isLine_of_isFlat {text : String} (h : Form.IsFlat text) : IsLine text := fun hmem => (h _ hmem).1 rfl

theorem isLine_of_isWordOf {kind : Token.Kind} {text : String} (h : IsWordOf kind text) : IsLine text :=
  isLine_of_isFlat (Form.isFlat_of_isWord h.1)

theorem isLine_enclose {text : String} (parens : Bool) (h : IsLine text) : IsLine (Expr.enclose parens text) := by
  cases parens with
  | false => exact h
  | true =>
    simp only [Expr.enclose, if_true, isLine_append]
    exact ⟨⟨by decide, h⟩, by decide⟩

/-- Whole lines, each with at least as many tabs before it. -/
def Indented (indent : Nat) (ls : List Line) : Prop := ∀ l ∈ ls, indent ≤ l.indent ∧ IsLine l.text

section
variable {indent : Nat} {ls ls' : List Line}

theorem indented_nil (indent : Nat) : Indented indent [] := fun _ hl => absurd hl List.not_mem_nil

theorem Indented.append (h : Indented indent ls) (h' : Indented indent ls') : Indented indent (ls ++ ls') :=
  List.forall_mem_append.mpr ⟨h, h'⟩

theorem Indented.cons (h : Indented indent ls) {text : String} (htext : IsLine text) :
    Indented indent (⟨indent, text⟩ :: ls) :=
  List.forall_mem_cons.mpr ⟨⟨Nat.le_refl indent, htext⟩, h⟩

theorem indented_singleton {text : String} (htext : IsLine text) : Indented indent [⟨indent, text⟩] :=
  (indented_nil indent).cons htext

theorem Indented.left (h : Indented (indent + 1) ls) : Indented indent ls :=
  fun l hl => ⟨Nat.le_of_succ_le (h l hl).1, (h l hl).2⟩

end

theorem Stmt.bodyLines_append (indent : Nat) (vs ws : List Stmt) :
    Stmt.bodyLines indent (vs ++ ws) = Stmt.bodyLines indent vs ++ Stmt.bodyLines indent ws := by
  induction vs with
  | nil => rfl
  | cons v vs ih => simp only [List.cons_append, Stmt.bodyLines, ih, List.append_assoc]

end Verilog

/-! ## What a run takes -/

namespace Lowering
open Verilog

/-- A run takes the names `names`, which are new, one for each of the signals. It hoists
their lines, in order, as far as `hoists` says so. -/
structure State.Takes (signals : List Signal) (hoists : List Bool) (s s' : State) (names : List String) : Prop where
  signals_length : signals.length = names.length
  hoists_length : hoists.length = names.length
  nodup : names.Nodup
  notMem : ∀ name ∈ names, name ∉ s.used
  used_eq : s'.used = names.reverse ++ s.used
  hoisted_eq : s'.hoisted = s.hoisted ++ Naming.select true (List.zipWith declarationOf signals names) hoists

section
variable {signals signals' : List Signal} {hoists hoists' : List Bool} {s s₁ s' : State} {names names' : List String}

theorem State.Takes.refl (s : State) : s.Takes [] [] s [] :=
  ⟨rfl, rfl, List.nodup_nil, fun _ hname => absurd hname List.not_mem_nil, rfl, (List.append_nil _).symm⟩

theorem State.Takes.trans (h : s.Takes signals hoists s₁ names) (h' : s₁.Takes signals' hoists' s' names') :
    s.Takes (signals ++ signals') (hoists ++ hoists') s' (names ++ names') := by
  have hnew : ∀ name ∈ names', name ∉ names ∧ name ∉ s.used := by
    intro name hname
    have hnot := h'.notMem name hname
    rw [h.used_eq, List.mem_append, List.mem_reverse, not_or] at hnot
    exact hnot
  have hlines : (List.zipWith declarationOf signals names).length = hoists.length := by
    rw [List.length_zipWith, h.signals_length, h.hoists_length, Nat.min_self]
  refine ⟨?_, ?_, ?_, ?_, ?_, ?_⟩
  · rw [List.length_append, List.length_append, h.signals_length, h'.signals_length]
  · rw [List.length_append, List.length_append, h.hoists_length, h'.hoists_length]
  · exact List.nodup_append.mpr ⟨h.nodup, h'.nodup, fun a ha b hb hab => (hnew b hb).1 (hab ▸ ha)⟩
  · exact List.forall_mem_append.mpr ⟨h.notMem, fun name hname => (hnew name hname).2⟩
  · rw [h'.used_eq, h.used_eq, List.reverse_append, List.append_assoc]
  · rw [h'.hoisted_eq, h.hoisted_eq, List.zipWith_append h.signals_length, Naming.select_append hlines,
      List.append_assoc]

/-- A frame has no part in it. -/
theorem State.Takes.leave (h : s.entered.Takes signals hoists s₁ names) : s.Takes signals hoists (s₁.backTo s) names :=
  ⟨h.signals_length, h.hoists_length, h.nodup, h.notMem, h.used_eq, h.hoisted_eq⟩

/-- A declaration takes a fresh name. -/
theorem State.takes_declared (s : State) (signal : Signal) :
    s.Takes [signal] [false] (s.declared signal) [freshName s.used signal.name.name] :=
  ⟨rfl, rfl, List.nodup_singleton _, List.forall_mem_singleton.mpr (freshName_notMem _ _), rfl,
    (List.append_nil _).symm⟩

theorem State.takes_hoisting (s : State) (signal : Signal) :
    s.Takes [signal] [true] (s.hoisting signal) [freshName s.used signal.name.name] :=
  ⟨rfl, rfl, List.nodup_singleton _, List.forall_mem_singleton.mpr (freshName_notMem _ _), rfl, rfl⟩

end

/-- A run takes names for signals that are all declared inside a procedure. -/
def State.TakesInside (signals : List Signal) (s s' : State) : Prop :=
  ∃ names, s.Takes signals (signals.map fun _ => true) s' names

section
variable {signals signals' : List Signal} {s s₁ s' : State}

theorem State.TakesInside.trans (h : s.TakesInside signals s₁) (h' : s₁.TakesInside signals' s') :
    s.TakesInside (signals ++ signals') s' := by
  obtain ⟨names, h⟩ := h
  obtain ⟨names', h'⟩ := h'
  refine ⟨names ++ names', ?_⟩
  rw [List.map_append]
  exact h.trans h'

theorem State.TakesInside.leave (h : s.entered.TakesInside signals s₁) : s.TakesInside signals (s₁.backTo s) :=
  h.imp fun _ h => h.leave

end

mutual

theorem Contents.takes {procedure : Procedure} : ∀ {x : Stmt} {s s' : State} {vs : List Verilog.Stmt},
    Contents procedure x s vs s' → s.TakesInside x.declarations s'
  | _, s, _, _, .decl => ⟨_, s.takes_hoisting _⟩
  | _, s, _, _, .assign .. => ⟨[], .refl s⟩
  | _, _, _, _, .conditional _ hbody hbranches => by
    rw [Stmt.declarations]
    exact hbody.takes.leave.trans hbranches.takes
  | _, _, _, _, .block h => by
    rw [Stmt.declarations]
    exact h.takes

theorem AllContents.takes {procedure : Procedure} : ∀ {xs : List Stmt} {s s' : State} {vs : List Verilog.Stmt},
    AllContents procedure xs s vs s' → s.TakesInside (Stmt.allDeclarations xs) s'
  | _, s, _, _, .nil => ⟨[], .refl s⟩
  | _, _, _, _, .block h hs => by
    rw [Stmt.allDeclarations, Stmt.declarations]
    exact h.takes.leave.trans hs.takes
  | _, _, _, _, .cons _ h hs => by
    rw [Stmt.allDeclarations]
    exact h.takes.trans hs.takes

theorem Alternative.takes {procedure : Procedure} : ∀ {x : Option Stmt} {s s' : State} {b : Branches},
    Alternative procedure x s b s' → s.TakesInside (Stmt.alternativeDeclarations x) s'
  | _, s, _, _, .none => ⟨[], .refl s⟩
  | _, _, _, _, .conditional _ hbody hbranches => by
    rw [Stmt.alternativeDeclarations, Stmt.declarations]
    exact hbody.takes.leave.trans hbranches.takes
  | _, _, _, _, .other _ h => by
    rw [Stmt.alternativeDeclarations]
    exact h.takes.leave

end

mutual

theorem Items.takes : ∀ {x : Stmt} {s s' : State} {is : List Verilog.Item}, Items x s is s' →
    ∃ names, s.Takes x.declarations x.inProcedure s' names
  | _, s, _, _, .decl => ⟨_, s.takes_declared _⟩
  | _, s, _, _, .plain .. => ⟨[], .refl s⟩
  | _, s, _, _, .registered .. => ⟨[], .refl s⟩
  | _, _, _, _, .sequence _ h => by
    rw [Stmt.declarations]
    exact h.takes.leave
  | _, _, _, _, .conditional h => h.takes
  | _, _, _, _, .block h => by
    rw [Stmt.inProcedure, Stmt.declarations]
    obtain ⟨names, hnames⟩ := h.takes
    exact ⟨names, hnames.leave⟩

theorem AllItems.takes : ∀ {xs : List Stmt} {s s' : State} {is : List Verilog.Item}, AllItems xs s is s' →
    ∃ names, s.Takes (Stmt.allDeclarations xs) (Stmt.allInProcedure xs) s' names
  | _, s, _, _, .nil => ⟨[], .refl s⟩
  | _, _, _, _, .cons h hs => by
    rw [Stmt.allDeclarations, Stmt.allInProcedure]
    obtain ⟨names, hnames⟩ := h.takes
    obtain ⟨names', hnames'⟩ := hs.takes
    exact ⟨names ++ names', hnames.trans hnames'⟩

end

/-! ## What is printed of it -/

/-- The emitted names in reach have no line breaks. -/
abbrev State.Unbroken (s : State) : Prop := s.InReach fun b => IsLine b.emitted

section
variable {s s' : State}

theorem State.Unbroken.declared (h : s.Unbroken) {signal : Signal} (hname : IsWordOf .identifier signal.name.name) :
    (s.declared signal).Unbroken :=
  State.InReach.declared h (isLine_of_isWordOf (isWordOf_freshName hname s.used))

theorem State.Unbroken.isLine_text (h : s.Unbroken) : ∀ {e : Expr} {v : Verilog.Expr}, e.Legible →
    e.lower s.scope = .ok v → IsLine v.text
  | .ident id, v, _, hv => by
    obtain ⟨b, hb, rfl⟩ := lower_ident.mp hv
    exact State.InReach.lookup h hb
  | .literal lit, v, he, hv => by
    obtain rfl := lower_literal.mp hv
    exact isLine_of_isWordOf he
  | .binary op lhs rhs pos, v, he, hv => by
    obtain ⟨op', -, l, hl, r, hr, rfl⟩ := lower_binary.mp hv
    have hlhs := isLine_enclose (l.needsParens op' false) (h.isLine_text he.1 hl)
    have hrhs := isLine_enclose (r.needsParens op' true) (h.isLine_text he.2 hr)
    have hsymbol : IsLine op'.symbol := by cases op' <;> decide
    simp only [Verilog.Expr.text, isLine_append]
    exact ⟨⟨⟨⟨hlhs, by decide⟩, hsymbol⟩, by decide⟩, hrhs⟩
  | .malformed pos, _, he, _ => absurd he (by simp [Expr.Legible])
  | .paren inner start stop, _, he, _ => absurd he (by simp [Expr.Legible])
  | .call func args pos, _, he, _ => absurd he (by simp [Expr.Legible])

theorem isLine_declaration {d : Verilog.Declaration} (hname : IsWordOf .identifier d.name) : IsLine d.text := by
  obtain ⟨htext, hlegible⟩ := Declaration.has_form hname.1 0
  have hform := isLine_of_isFlat hlegible.isFlat
  rw [← htext] at hform
  exact hform

/-- A target, a sign and a value on a line. -/
theorem isLine_assignment {target sign value : String} (htarget : IsLine target) (hsign : IsLine sign)
    (hvalue : IsLine value) : IsLine (target ++ sign ++ value ++ ";") := by
  simp only [isLine_append]
  exact ⟨⟨⟨htarget, hsign⟩, hvalue⟩, by decide⟩

/-- A condition or a trigger on a line, between two texts. -/
theorem isLine_between {opening text closing : String} (hopening : IsLine opening) (htext : IsLine text)
    (hclosing : IsLine closing) : IsLine (opening ++ text ++ closing) :=
  isLine_append.mpr ⟨isLine_append.mpr ⟨hopening, htext⟩, hclosing⟩

theorem isLine_trigger {t : Trigger} (h : IsLine t.clock) : IsLine t.text := by
  obtain ⟨edge, clock⟩ := t
  cases edge with
  | rising => exact isLine_between (by decide : IsLine "posedge") (by decide) h
  | falling => exact isLine_between (by decide : IsLine "negedge") (by decide) h

theorem indented_assignmentOf (kind : AssignKind) {target : String} {value : Verilog.Expr} (htarget : IsLine target)
    (hvalue : IsLine value.text) (indent : Nat) : Indented indent ((assignmentOf kind target value).lines indent) := by
  cases kind with
  | plain => exact indented_singleton (isLine_assignment htarget (by decide) hvalue)
  | registered => exact indented_singleton (isLine_assignment htarget (by decide) hvalue)

/-- A procedure with a body. -/
theorem indented_always {sensitivity : Sensitivity} {vs : List Verilog.Stmt} {indent : Nat}
    (hsensitivity : IsLine sensitivity.text) (hvs : Indented (indent + 1) (Verilog.Stmt.bodyLines (indent + 1) vs)) :
    Indented indent ((Item.always sensitivity vs).lines indent) :=
  (hvs.left.append (indented_singleton (by decide))).cons (isLine_between (by decide) hsensitivity (by decide))

end

mutual

theorem Contents.indented {procedure : Procedure} : ∀ {x : Stmt} {s s' : State} {vs : List Verilog.Stmt},
    Contents procedure x s vs s' → x.Legible → s.Unbroken →
    s'.Unbroken ∧ ∀ indent, Indented indent (Verilog.Stmt.bodyLines indent vs)
  | _, _, _, _, .decl, hx, hs => ⟨hs.declared hx, indented_nil⟩
  | .assign kind _ _ _, _, _, _, .assign htarget hvalue _ _, hx, hs => by
    refine ⟨hs, fun indent => ?_⟩
    rw [Verilog.Stmt.bodyLines, Verilog.Stmt.bodyLines, List.append_nil]
    exact indented_assignmentOf kind (State.InReach.lookup hs htarget) (hs.isLine_text hx hvalue) indent
  | _, _, _, _, .conditional hcond hbody hbranches, hx, hs => by
    obtain ⟨-, hvs⟩ := hbody.indented hx.2.1 hs.enter
    obtain ⟨hs', hothers⟩ := hbranches.indented hx.2.2 hs
    refine ⟨hs', fun indent => ?_⟩
    rw [Verilog.Stmt.bodyLines, Verilog.Stmt.bodyLines, List.append_nil, Verilog.Stmt.lines,
      List.append_assoc (Verilog.Stmt.bodyLines _ _)]
    have hbranches := (hvs (indent + 1)).left.append (hothers indent)
    have hend := hbranches.append (indented_singleton (by decide : IsLine "end"))
    exact hend.cons (isLine_between (by decide) (hs.isLine_text hx.1 hcond) (by decide))
  | _, _, _, _, .block h, hx, hs => h.indented hx hs

theorem AllContents.indented {procedure : Procedure} : ∀ {xs : List Stmt} {s s' : State} {vs : List Verilog.Stmt},
    AllContents procedure xs s vs s' → Stmt.allLegible xs → s.Unbroken →
    s'.Unbroken ∧ ∀ indent, Indented indent (Verilog.Stmt.bodyLines indent vs)
  | _, _, _, _, .nil, _, hs => ⟨hs, indented_nil⟩
  | _, _, _, _, .block h hrest, hx, hs => by
    obtain ⟨-, hvs⟩ := h.indented hx.1 hs.enter
    obtain ⟨hs', hws⟩ := hrest.indented hx.2 hs
    refine ⟨hs', fun indent => ?_⟩
    have hend := (hvs (indent + 1)).left.append (indented_singleton (by decide : IsLine "end"))
    exact (hend.cons (by decide)).append (hws indent)
  | _, _, _, _, .cons _ h hrest, hx, hs => by
    obtain ⟨hs₁, hvs⟩ := h.indented hx.1 hs
    obtain ⟨hs', hws⟩ := hrest.indented hx.2 hs₁
    refine ⟨hs', fun indent => ?_⟩
    rw [Stmt.bodyLines_append]
    exact (hvs indent).append (hws indent)

theorem Alternative.indented {procedure : Procedure} : ∀ {x : Option Stmt} {s s' : State} {b : Branches},
    Alternative procedure x s b s' → Stmt.alternativeLegible x → s.Unbroken → s'.Unbroken ∧
    ∀ indent, Indented indent (Verilog.Stmt.othersLines indent b.1 ++ Verilog.Stmt.otherwiseLines indent b.2)
  | _, _, _, _, .none, _, hs => ⟨hs, indented_nil⟩
  | _, _, _, _, .conditional hcond hbody hbranches, hx, hs => by
    obtain ⟨-, hvs⟩ := hbody.indented hx.2.1 hs.enter
    obtain ⟨hs', hothers⟩ := hbranches.indented hx.2.2 hs
    refine ⟨hs', fun indent => ?_⟩
    rw [Verilog.Stmt.othersLines, List.cons_append, List.append_assoc]
    exact ((hvs (indent + 1)).left.append (hothers indent)).cons
      (isLine_between (by decide) (hs.isLine_text hx.1 hcond) (by decide))
  | _, _, _, _, .other _ h, hx, hs => by
    obtain ⟨-, hvs⟩ := h.indented hx hs.enter
    exact ⟨hs, fun indent => (hvs (indent + 1)).left.cons (by decide)⟩

end

mutual

theorem Items.indented : ∀ {x : Stmt} {s s' : State} {is : List Verilog.Item}, Items x s is s' → x.Legible →
    s.Unbroken → s'.Unbroken ∧ ∀ indent, Indented indent (is.flatMap (Item.lines indent))
  | _, s, _, _, .decl, hx, hs =>
    ⟨hs.declared hx, fun _ => indented_singleton (isLine_declaration (isWordOf_freshName hx s.used))⟩
  | _, _, _, _, .plain htarget hvalue _, hx, hs => by
    refine ⟨hs, fun _ => indented_singleton (isLine_assignment ?_ (by decide) (hs.isLine_text hx hvalue))⟩
    exact isLine_append.mpr ⟨by decide, State.InReach.lookup hs htarget⟩
  | .assign _ _ _ _, _, _, _, .registered htarget hvalue _ _ hb, hx, hs => by
    refine ⟨hs, fun indent => ?_⟩
    have hassignment : Indented (indent + 1) _ := indented_singleton
      (isLine_assignment (State.InReach.lookup hs htarget) (by decide : IsLine " <= ") (hs.isLine_text hx hvalue))
    exact hassignment.left.cons
      (isLine_between (by decide) (isLine_trigger (State.InReach.lookup hs hb)) (by decide))
  | _, _, _, _, .sequence hb h, hx, hs => by
    obtain ⟨-, hvs⟩ := h.indented hx hs.enter
    refine ⟨hs, fun indent => ?_⟩
    rw [List.flatMap_singleton]
    exact indented_always (isLine_trigger (State.InReach.lookup hs hb)) (hvs (indent + 1))
  | _, _, _, _, .conditional h, hx, hs => by
    obtain ⟨hs', hvs⟩ := h.indented hx hs
    refine ⟨hs', fun indent => ?_⟩
    rw [List.flatMap_singleton]
    exact indented_always (by decide) (hvs (indent + 1))
  | _, _, _, _, .block h, hx, hs => ⟨hs, (h.indented hx hs.enter).2⟩

theorem AllItems.indented : ∀ {xs : List Stmt} {s s' : State} {is : List Verilog.Item}, AllItems xs s is s' →
    Stmt.allLegible xs → s.Unbroken → s'.Unbroken ∧ ∀ indent, Indented indent (is.flatMap (Item.lines indent))
  | _, _, _, _, .nil, _, hs => ⟨hs, indented_nil⟩
  | _, _, _, _, .cons h hrest, hx, hs => by
    obtain ⟨hs₁, his⟩ := h.indented hx.1 hs
    obtain ⟨hs', hjs⟩ := hrest.indented hx.2 hs₁
    refine ⟨hs', fun indent => ?_⟩
    rw [List.flatMap_append]
    exact (his indent).append (hjs indent)

end

end Lowering

end Gateware

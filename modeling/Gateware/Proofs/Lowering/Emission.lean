import Gateware.Proofs.Checking.Fault
import Gateware.Proofs.Lowering.Additions

/- Emission of statements, one after another.

   An `Emitter` holds a text and the state of lowering; emitting a part of a module lowers it in
   that state and writes its lines after the text. That the text only grows holds by how `write`
   is defined. What has to be proved is which lines are written, and that a module is emitted in
   this way. This file

   1. lists the parts of a module (`parts`, `ModuleOf.HasBlock`) and for each declaration in them
      whether its line is hoisted (`hoists`);
   2. gives the lines of a part in a context, as lowering and printing make them
      (`statementLines`, `rowLines`, `framedLines`), and proves what each of them adds
      (`adds_statementLines` to `adds_framedLines`): whole lines that are indented as asked for,
      one new name for each declaration, one hoisted line for each declaration inside a procedure,
      and frames that are as they were, except that a declaration adds to the innermost one
      (`Adds`);
   3. proves that the parts fit together: statements in a row are emitted one after the other
      (`result_write_rowLines`), a block is its statements in a frame of their own
      (`result_block`), and the text of a module is that of its header and the hoisted
      declarations and then what is emitted of its body (`text_of_module`);
   4. puts these together for every part of a module that was read (`emit_appends_whole_lines`).

   Assumed of the state is that the names in reach have no line breaks, which holds where a module
   begins and after each part of it. -/
namespace Gateware
open Verilog (Indented Item Line linesText)

/-! ## Parts of a module -/

/-- The procedure that a context is inside of. -/
def Context.procedure? : Context → Option Lowering.Procedure
  | .continuous => none
  | .combinational => some .combinational
  | .clocked => some .clocked

namespace Stmt

mutual

/-- A statement and the statements in its bodies and blocks. -/
def parts : Stmt → List Stmt
  | .sequence clock inner pos => .sequence clock inner pos :: inner.parts
  | .conditional cond body alternative pos =>
    .conditional cond body alternative pos :: (body.parts ++ alternativeParts alternative)
  | .block ⟨stmts, start, stop⟩ => .block ⟨stmts, start, stop⟩ :: allParts stmts
  | x => [x]

def allParts : List Stmt → List Stmt
  | [] => []
  | x :: xs => x.parts ++ allParts xs

def alternativeParts : Option Stmt → List Stmt
  | none => []
  | some x => x.parts

end

mutual

theorem Legible.parts : ∀ {x : Stmt}, x.Legible → ∀ y ∈ x.parts, y.Legible
  | .sequence clock inner pos, hx => by
    rw [Stmt.parts, List.forall_mem_cons]
    exact ⟨hx, Legible.parts hx⟩
  | .conditional cond body alternative pos, hx => by
    rw [Stmt.parts, List.forall_mem_cons, List.forall_mem_append]
    exact ⟨hx, Legible.parts hx.2.1, legible_alternativeParts hx.2.2⟩
  | .block ⟨stmts, start, stop⟩, hx => by
    rw [Stmt.parts, List.forall_mem_cons]
    exact ⟨hx, legible_allParts hx⟩
  | .decl d pos, hx => List.forall_mem_singleton.mpr hx
  | .assign kind lhs rhs pos, hx => List.forall_mem_singleton.mpr hx
  | .malformed pos, hx => List.forall_mem_singleton.mpr hx
  | .expr e pos, hx => List.forall_mem_singleton.mpr hx
  | .result value pos, hx => List.forall_mem_singleton.mpr hx
  | .loop cond body pos, hx => List.forall_mem_singleton.mpr hx

theorem legible_allParts : ∀ {xs : List Stmt}, allLegible xs → ∀ y ∈ allParts xs, y.Legible
  | [], _ => fun _ hy => absurd hy List.not_mem_nil
  | _ :: _, hxs => List.forall_mem_append.mpr ⟨Legible.parts hxs.1, legible_allParts hxs.2⟩

theorem legible_alternativeParts : ∀ {x : Option Stmt}, alternativeLegible x → ∀ y ∈ alternativeParts x, y.Legible
  | none, _ => fun _ hy => absurd hy List.not_mem_nil
  | some _, hx => Legible.parts hx

end

/-- For each declaration of a statement in a context, whether its line is hoisted: all of
them inside a procedure, and at the level of a module those in a condition or in a clocked
statement. -/
def hoists (context : Context) (x : Stmt) : List Bool :=
  match context.procedure? with
  | none => x.inProcedure
  | some _ => x.declarations.map fun _ => true

def allHoists (context : Context) (xs : List Stmt) : List Bool :=
  match context.procedure? with
  | none => allInProcedure xs
  | some _ => (allDeclarations xs).map fun _ => true

end Stmt

def ModuleOf.statements (m : Module) : List Stmt := Stmt.allParts m.body.stmts

/-- The body of a module, and the blocks in it. -/
def ModuleOf.HasBlock (m : Module) (b : Block) : Prop := b = m.body ∨ .block b ∈ m.statements

/-! ## Emitters -/

namespace Lowering

def statementLines (context : Context) (indent : Nat) (x : Stmt) : Lowering (List Line) :=
  match context.procedure? with
  | none => return (← items x).flatMap (Item.lines indent)
  | some procedure => return Verilog.Stmt.bodyLines indent (← delimit x (contents procedure x))

def rowLines (context : Context) (indent : Nat) (xs : List Stmt) : Lowering (List Line) :=
  match context.procedure? with
  | none => return (← allItems xs).flatMap (Item.lines indent)
  | some procedure => return Verilog.Stmt.bodyLines indent (← allContents procedure xs)

/-- The items of a statement in a frame of its own; a block brings one. -/
def framedItems (x : Stmt) : Lowering (List Item) :=
  if x.isBlock then items x else inFrame (items x)

/-- The lines of a statement in a frame of its own. -/
def framedLines (context : Context) (indent : Nat) (x : Stmt) : Lowering (List Line) :=
  match context.procedure? with
  | none => return (← framedItems x).flatMap (Item.lines indent)
  | some procedure => return Verilog.Stmt.bodyLines indent (← inFrame (contents procedure x))

/-- A text that grows, and what lowering keeps track of. -/
structure Emitter where
  out : String
  state : State

namespace Emitter

/-- Writes the lines that a step makes. -/
def write (e : Emitter) (step : Lowering (List Line)) : Report LoweringError Emitter := do
  let (ls, s) ← step.run e.state
  return ⟨e.out ++ linesText ls, s⟩

def statement (context : Context) (indent : Nat) (x : Stmt) (e : Emitter) : Report LoweringError Emitter :=
  e.write (statementLines context indent x)

/-- Emits the statements of a block, in a frame of their own. -/
def block (context : Context) (indent : Nat) (b : Block) (e : Emitter) : Report LoweringError Emitter :=
  e.write (inFrame (rowLines context indent b.stmts))

def body (context : Context) (indent : Nat) (x : Stmt) (e : Emitter) : Report LoweringError Emitter :=
  e.write (framedLines context indent x)

/-- Emits a condition and its alternatives, inside a procedure. -/
def conditional (procedure : Procedure) (indent : Nat) (cond : Expr) (body : Stmt) (alternative : Option Stmt)
    (pos : Position) (e : Emitter) : Report LoweringError Emitter :=
  e.write do return Verilog.Stmt.bodyLines indent (← contents procedure (.conditional cond body alternative pos))

/-- What emission adds: whole lines to the text, a new name for each signal, and the lines
of those signals that are to be hoisted. -/
structure Adds (indent : Nat) (signals : List Signal) (hoists : List Bool) (e e' : Emitter) : Prop where
  lines : ∃ ls, Indented indent ls ∧ e'.out = e.out ++ linesText ls
  names : ∃ names, e.state.Takes signals hoists e'.state names

theorem result_write (e : Emitter) (step : Lowering (List Line)) :
    (e.write step).result = (step e.state).result.map fun y => ⟨e.out ++ linesText y.1, y.2⟩ := by
  rw [write, Report.result_bind]
  show (step e.state).result >>= _ = _
  cases (step e.state).result <;> rfl

/-- What a step adds is what is emitted. -/
theorem adds_of_write {indent : Nat} {signals : List Signal} {hoists : List Bool} {scope : Scope} {e e' : Emitter}
    {step : Lowering (List Line)} (h : (e.write step).result = .ok e')
    (hstep : ∀ ls s', Yields step e.state ls s' →
      s'.scope = scope ∧ Indented indent ls ∧ ∃ names, e.state.Takes signals hoists s' names) :
    e'.state.scope = scope ∧ e.Adds indent signals hoists e' := by
  rw [result_write] at h
  cases hresult : (step e.state).result with
  | error error => rw [hresult] at h; cases h
  | ok y =>
    rw [hresult] at h
    cases h
    obtain ⟨hscope, hindented, hnames⟩ := hstep y.1 y.2 hresult
    exact ⟨hscope, ⟨y.1, hindented, rfl⟩, hnames⟩

end Emitter

/-! ## What each part adds -/

theorem yields_return {α β : Type} {x : Lowering α} {f : α → β} {b : β} {s s' : State} :
    Yields (do return f (← x)) s b s' ↔ ∃ a, Yields x s a s' ∧ b = f a := by
  simp only [yields_bind, yields_pure]
  constructor
  · rintro ⟨a, _, hx, rfl, rfl⟩
    exact ⟨a, hx, rfl⟩
  · rintro ⟨a, hx, rfl⟩
    exact ⟨a, s', hx, rfl, rfl⟩

section
variable {procedure : Procedure} {context : Context} {indent : Nat} {x : Stmt} {xs : List Stmt} {s s' : State}
  {vs : List Verilog.Stmt} {ls : List Line}

/-- Outside of a row, a statement is lowered as if it were alone in one. -/
theorem allContents_of_delimit (h : Yields (delimit x (contents procedure x)) s vs s') :
    AllContents procedure [x] s vs s' := by
  apply allContents_of_yields
  simp only [allContents, yields_bind, yields_pure]
  exact ⟨vs, s', h, [], s', ⟨rfl, rfl⟩, (List.append_nil vs).symm, rfl⟩

theorem scopeAfter_of_isBlock (hx : x.isBlock = true) : s.scopeAfter x = s.scope := by
  cases x with
  | block b => rfl
  | _ => cases hx

theorem scope_delimit (h : Yields (delimit x (contents procedure x)) s vs s') : s'.scope = s.scopeAfter x := by
  unfold delimit at h
  split at h
  · next hblock =>
    obtain ⟨us, hus, -⟩ := yields_return.mp h
    rw [scopeAfter_of_isBlock hblock]
    exact scope_inFrame hus fun _ _ ht => (scope_contents procedure x ht).1
  · next hblock => exact (scope_contents procedure x h).2 (by simpa using hblock)

theorem adds_statementLines (hx : x.Legible) (hs : s.Unbroken) (h : Yields (statementLines context indent x) s ls s') :
    s'.scope = s.scopeAfter x ∧ Indented indent ls ∧ ∃ names, s.Takes x.declarations (x.hoists context) s' names := by
  unfold statementLines at h
  unfold Stmt.hoists
  cases hprocedure : context.procedure? with
  | none =>
    rw [hprocedure] at h
    obtain ⟨is, his, rfl⟩ := yields_return.mp h
    have hrun := items_of_yields x his
    exact ⟨scope_items x his, (hrun.indented hx hs).2 indent, hrun.takes⟩
  | some procedure =>
    rw [hprocedure] at h
    obtain ⟨vs, hvs, rfl⟩ := yields_return.mp h
    -- the lines are those of a row of one, with `begin` and `end` around a block
    have hrun := allContents_of_delimit hvs
    refine ⟨scope_delimit hvs, (hrun.indented ⟨hx, trivial⟩ hs).2 indent, ?_⟩
    have htakes := hrun.takes
    rw [Stmt.allDeclarations, Stmt.allDeclarations, List.append_nil] at htakes
    exact htakes

theorem enclosing_rowLines (h : Yields (rowLines context indent xs) s ls s') :
    s'.scope.enclosing = s.scope.enclosing := by
  unfold rowLines at h
  split at h
  · obtain ⟨is, his, -⟩ := yields_return.mp h
    exact enclosing_allItems xs his
  · obtain ⟨vs, hvs, -⟩ := yields_return.mp h
    exact enclosing_allContents _ xs hvs

theorem adds_rowLines (hxs : Stmt.allLegible xs) (hs : s.Unbroken) (h : Yields (rowLines context indent xs) s ls s') :
    Indented indent ls ∧ ∃ names, s.Takes (Stmt.allDeclarations xs) (Stmt.allHoists context xs) s' names := by
  unfold rowLines at h
  unfold Stmt.allHoists
  cases hprocedure : context.procedure? with
  | none =>
    rw [hprocedure] at h
    obtain ⟨is, his, rfl⟩ := yields_return.mp h
    have hrun := allItems_of_yields xs his
    exact ⟨(hrun.indented hxs hs).2 indent, hrun.takes⟩
  | some procedure =>
    rw [hprocedure] at h
    obtain ⟨vs, hvs, rfl⟩ := yields_return.mp h
    have hrun := allContents_of_yields procedure xs hvs
    exact ⟨(hrun.indented hxs hs).2 indent, hrun.takes⟩

theorem adds_blockLines (hxs : Stmt.allLegible xs) (hs : s.Unbroken)
    (h : Yields (inFrame (rowLines context indent xs)) s ls s') : s'.scope = s.scope ∧ Indented indent ls ∧
      ∃ names, s.Takes (Stmt.allDeclarations xs) (Stmt.allHoists context xs) s' names := by
  obtain ⟨s₁, hs₁, rfl⟩ := exists_of_inFrame h fun _ _ ht => enclosing_rowLines ht
  obtain ⟨hindented, names, hnames⟩ := adds_rowLines hxs hs.enter hs₁
  exact ⟨rfl, hindented, names, hnames.leave⟩

theorem adds_framedLines (hx : x.Legible) (hs : s.Unbroken) (h : Yields (framedLines context indent x) s ls s') :
    s'.scope = s.scope ∧ Indented indent ls ∧ ∃ names, s.Takes x.declarations (x.hoists context) s' names := by
  unfold framedLines at h
  unfold Stmt.hoists
  cases hprocedure : context.procedure? with
  | none =>
    rw [hprocedure] at h
    obtain ⟨is, his, rfl⟩ := yields_return.mp h
    unfold framedItems at his
    split at his
    · next hblock =>
      have hrun := items_of_yields x his
      exact ⟨(scope_items x his).trans (scopeAfter_of_isBlock hblock), (hrun.indented hx hs).2 indent, hrun.takes⟩
    · obtain ⟨s₁, hs₁, rfl⟩ := exists_of_inFrame his fun t _ ht =>
        (congrArg Scope.enclosing (scope_items x ht)).trans (enclosing_scopeAfter t x)
      have hrun := items_of_yields x hs₁
      exact ⟨rfl, (hrun.indented hx hs.enter).2 indent, hrun.takes.imp fun _ hnames => hnames.leave⟩
  | some procedure =>
    rw [hprocedure] at h
    obtain ⟨vs, hvs, rfl⟩ := yields_return.mp h
    obtain ⟨s₁, hs₁, rfl⟩ := exists_of_inFrame_contents hvs
    have hrun := contents_of_yields procedure x hs₁
    exact ⟨rfl, (hrun.indented hx hs.enter).2 indent, hrun.takes.leave⟩

end

/-! ## Statement by statement -/

theorem linesText_append (ls ls' : List Line) : linesText (ls ++ ls') = linesText ls ++ linesText ls' := by
  apply String.toList_inj.mp
  simp only [Verilog.toList_linesText, String.toList_append, List.flatMap_append]

theorem result_inFrame {α : Type} (x : Lowering α) (s : State) :
    (inFrame x s).result = (x s.entered).result.map fun y => (y.1, { y.2 with scope := y.2.scope.exit }) := by
  unfold inFrame
  simp only [result_bind_apply]
  show (x s.entered).result >>= _ = _
  cases (x s.entered).result <;> rfl

/-- Two steps whose results are put together are printed one after the other. -/
theorem result_return_append {α : Type} {f : List α → List Line} (hf : ∀ as bs, f (as ++ bs) = f as ++ f bs)
    (x y : Lowering (List α)) (s : State) :
    ((do return f (← (do return (← x) ++ (← y))) : Lowering (List Line)) s).result =
      ((do return f (← x) : Lowering (List Line)) s).result.bind fun u =>
        ((do return f (← y) : Lowering (List Line)) u.2).result.map fun v => (u.1 ++ v.1, v.2) := by
  simp only [result_bind_apply]
  cases (x s).result with
  | error error => rfl
  | ok u =>
    show (y u.2).result >>= _ >>= _ = ((y u.2).result >>= _).map _
    cases (y u.2).result with
    | error error => rfl
    | ok v => exact congrArg (fun ls => Except.ok (ls, v.2)) (hf u.1 v.1)

/-- The lines of a row are those of its first statement and then those of the others. -/
theorem result_rowLines_cons (context : Context) (indent : Nat) (x : Stmt) (xs : List Stmt) (s : State) :
    (rowLines context indent (x :: xs) s).result = (statementLines context indent x s).result.bind fun u =>
      (rowLines context indent xs u.2).result.map fun v => (u.1 ++ v.1, v.2) := by
  unfold rowLines statementLines
  cases context.procedure? with
  | none =>
    simp only [allItems]
    exact result_return_append (fun _ _ => List.flatMap_append) (items x) (allItems xs) s
  | some procedure =>
    simp only [allContents]
    exact result_return_append (Verilog.Stmt.bodyLines_append indent) (delimit x (contents procedure x))
      (allContents procedure xs) s

namespace Emitter

/-- Statements in a row are emitted one after the other. -/
theorem result_write_rowLines (context : Context) (indent : Nat) (xs : List Stmt) (e : Emitter) :
    (e.write (rowLines context indent xs)).result =
      xs.foldlM (fun e x => (statement context indent x e).result) e := by
  induction xs generalizing e with
  | nil =>
    have hnil : (rowLines context indent [] e.state).result = .ok ([], e.state) := by
      unfold rowLines
      cases context.procedure? <;> rfl
    rw [result_write, hnil]
    exact congrArg (fun out => Except.ok (Emitter.mk out e.state)) String.append_empty
  | cons x xs ih =>
    rw [List.foldlM_cons, statement, result_write, result_write, result_rowLines_cons]
    cases (statementLines context indent x e.state).result with
    | error error => rfl
    | ok y =>
      show Except.map _ ((rowLines context indent xs y.2).result.map _) = _
      refine Eq.trans ?_ (ih ⟨e.out ++ linesText y.1, y.2⟩)
      rw [result_write]
      cases (rowLines context indent xs y.2).result with
      | error error => rfl
      | ok z =>
        have hout : e.out ++ linesText (y.1 ++ z.1) = e.out ++ linesText y.1 ++ linesText z.1 := by
          rw [linesText_append, String.append_assoc]
        exact congrArg (fun out => Except.ok (Emitter.mk out z.2)) hout

def entered (e : Emitter) : Emitter := { e with state := e.state.entered }

def exited (e : Emitter) : Emitter := { e with state := { e.state with scope := e.state.scope.exit } }

theorem result_block (context : Context) (indent : Nat) (b : Block) (e : Emitter) :
    (block context indent b e).result =
      (b.stmts.foldlM (fun e x => (statement context indent x e).result) e.entered).map exited := by
  rw [block, ← result_write_rowLines, result_write, result_write, result_inFrame]
  show _ = Except.map exited ((rowLines context indent b.stmts e.state.entered).result.map _)
  cases (rowLines context indent b.stmts e.state.entered).result <;> rfl

end Emitter

/-- The lines of a module before those of its items. -/
def front (v : Verilog.Module) : List Line :=
  ⟨0, s!"module {v.name} ("⟩ ::
    (Verilog.Port.lines v.ports ++ [⟨0, ");"⟩] ++ v.hoisted.map fun d => ⟨1, d.text⟩)

/-- The text of a module is that of its header and the hoisted declarations, and what is
emitted of its body. -/
theorem text_of_module {m : Module} {v : Verilog.Module} {s s' : State} (h : Yields (module m) s v s') :
    ∃ s₁ e, Yields (ports m.ports) s.entered v.ports s₁ ∧
      (Emitter.block .continuous 1 m.body ⟨"", s₁⟩).result = .ok e ∧ v.hoisted = e.state.hoisted ∧
      v.text = linesText (front v) ++ e.out ++ "endmodule\n" := by
  obtain ⟨ps, s₁, is, s₂, hports, hitems, rfl, rfl⟩ := yields_module.mp h
  have hlines : (rowLines .continuous 1 m.body.stmts s₁.entered).result = .ok (is.flatMap (Item.lines 1), s₂) :=
    yields_return.mpr ⟨is, hitems, rfl⟩
  refine ⟨s₁, ⟨"" ++ linesText (is.flatMap (Item.lines 1)), { s₂ with scope := s₂.scope.exit }⟩, hports, ?_, rfl, ?_⟩
  · rw [Emitter.block, Emitter.result_write, result_inFrame, hlines]
    rfl
  · let v : Verilog.Module := ⟨m.name.name, ps, s₂.hoisted, is⟩
    calc v.text = linesText (front v ++ is.flatMap (Item.lines 1) ++ [⟨0, "endmodule"⟩]) := rfl
      _ = linesText (front v) ++ linesText (is.flatMap (Item.lines 1)) ++ "endmodule\n" := by
          rw [linesText_append, linesText_append]; rfl
      _ = linesText (front v) ++ ("" ++ linesText (is.flatMap (Item.lines 1))) ++ "endmodule\n" := by
          rw [String.empty_append]

end Lowering

open Lowering Grammar

/-- Emission only appends, from any state in which the names in reach have no line breaks.
Statements, blocks, bodies and conditions of a module that was read add whole lines, take a
name for each declaration and hoist a line for each one inside a procedure; only a
declaration changes the frames that are open, and that only by its own binding. A block is
emitted statement by statement, and the text of a module is made of what is emitted. -/
theorem emit_appends_whole_lines {source : String} {ms : List Module} (hparse : parse source = .ok ms) {m : Module}
    (hm : m ∈ ms) (indent : Nat) {e : Emitter} (he : e.state.Unbroken) :
    (∀ context, ∀ x ∈ m.statements, ∀ e', (Emitter.statement context indent x e).result = .ok e' →
      e'.state.scope = e.state.scopeAfter x ∧ e.Adds indent x.declarations (x.hoists context) e') ∧
    (∀ context b, m.HasBlock b → ∀ e', (Emitter.block context indent b e).result = .ok e' →
      e'.state.scope = e.state.scope ∧
        e.Adds indent (Stmt.allDeclarations b.stmts) (Stmt.allHoists context b.stmts) e') ∧
    (∀ context, ∀ x ∈ m.statements, ∀ e', (Emitter.body context indent x e).result = .ok e' →
      e'.state.scope = e.state.scope ∧ e.Adds indent x.declarations (x.hoists context) e') ∧
    (∀ procedure cond body alternative pos, .conditional cond body alternative pos ∈ m.statements →
      ∀ e', (Emitter.conditional procedure indent cond body alternative pos e).result = .ok e' →
        e'.state.scope = e.state.scope ∧
          let signals := body.declarations ++ Stmt.alternativeDeclarations alternative
          e.Adds indent signals (signals.map fun _ => true) e') ∧
    (∀ context b, (Emitter.block context indent b e).result =
      (b.stmts.foldlM (fun e x => (Emitter.statement context indent x e).result) e.entered).map Emitter.exited) ∧
    ∀ s v s', Yields (Lowering.module m) s v s' → ∃ s₁ e₁, Yields (ports m.ports) s.entered v.ports s₁ ∧
      (Emitter.block .continuous 1 m.body ⟨"", s₁⟩).result = .ok e₁ ∧ v.hoisted = e₁.state.hoisted ∧
      v.text = linesText (front v) ++ e₁.out ++ "endmodule\n" := by
  have hbody := (legible_of_parse hparse m hm).body
  have hlegible : ∀ x ∈ m.statements, x.Legible := Stmt.legible_allParts hbody
  refine ⟨?_, ?_, ?_, ?_, fun context b => Emitter.result_block context indent b e, fun _ _ _ => text_of_module⟩
  · intro context x hx e' h
    exact Emitter.adds_of_write h fun _ _ hstep => adds_statementLines (hlegible x hx) he hstep
  · intro context b hb e' h
    have hstmts : Stmt.allLegible b.stmts := by
      rcases hb with rfl | hb
      · exact hbody
      · exact hlegible _ hb
    exact Emitter.adds_of_write h fun _ _ hstep => adds_blockLines hstmts he hstep
  · intro context x hx e' h
    exact Emitter.adds_of_write h fun _ _ hstep => adds_framedLines (hlegible x hx) he hstep
  · intro procedure cond body alternative pos hx e' h
    refine Emitter.adds_of_write h fun _ _ hstep => ?_
    obtain ⟨vs, hvs, rfl⟩ := yields_return.mp hstep
    have hrun := contents_of_yields procedure _ hvs
    exact ⟨(scope_contents procedure _ hvs).2 rfl, (hrun.indented (hlegible _ hx) he).2 indent, hrun.takes⟩

/-- A condition with a declaration in it. -/
def guarded : SourceTree where
  modules := [{
    name := ⟨⟨"m", ⟨4, 1⟩⟩, by decide⟩
    ports := ⟨⟨⟨"(", ⟨4, 2⟩⟩, by decide⟩, none, ⟨⟨")", ⟨4, 3⟩⟩, by decide⟩⟩
    opening := ⟨⟨"\x7b", ⟨4, 4⟩⟩, by decide⟩
    stmts := [
      .choice ⟨⟨"if", ⟨4, 5⟩⟩, by decide⟩ (.name ⟨⟨"q", ⟨4, 8⟩⟩, by decide⟩)
        (.assign ⟨⟨"q", ⟨4, 10⟩⟩, by decide⟩ ⟨⟨"=", ⟨4, 11⟩⟩, by decide⟩
          (.number ⟨⟨"1", ⟨4, 12⟩⟩, by decide⟩) ⟨⟨";", ⟨4, 13⟩⟩, by decide⟩)
        ⟨⟨"else", ⟨4, 15⟩⟩, by decide⟩
        (.block ⟨⟨"\x7b", ⟨4, 20⟩⟩, by decide⟩
          [.decl ⟨⟨"reg", ⟨4, 21⟩⟩, by decide⟩ ⟨none, ⟨⟨"t", ⟨4, 25⟩⟩, by decide⟩, none⟩
            ⟨⟨";", ⟨4, 26⟩⟩, by decide⟩,
          .assign ⟨⟨"t", ⟨4, 27⟩⟩, by decide⟩ ⟨⟨"=", ⟨4, 28⟩⟩, by decide⟩
            (.name ⟨⟨"q", ⟨4, 29⟩⟩, by decide⟩) ⟨⟨";", ⟨4, 30⟩⟩, by decide⟩]
          ⟨⟨"\x7d", ⟨4, 31⟩⟩, by decide⟩)]
    closing := ⟨⟨"\x7d", ⟨4, 32⟩⟩, by decide⟩ }]

def guardedText : String := "\n\n\nm()" ++ braced ("if q q=1; else " ++ braced "reg t;t=q;")

theorem parse_guarded : parse guardedText = .ok guarded.value := by
  have hgrouped : ∀ x ∈ guarded.modules, x.Grouped := by
    simp [guarded, ModuleTree.Grouped, StmtTree.Everywhere, StmtTree.EverywhereAll, StmtTree.Grouped,
      StmtTree.Open, StmtTree.FollowsElse, Term.Proper]
  have hf : guarded.IsDerivationOf (Lexer.ofSource guardedText).tokens.1 := ⟨hgrouped, by decide +kernel⟩
  have hbounded : guarded.Bounded := by
    simp [SourceTree.Bounded, guarded, ModuleTree.Bounded, PortsTree.toList, StmtTree.Everywhere,
      StmtTree.EverywhereAll, StmtTree.Bounded, StmtTree.depth, StmtTree.depthAll, TailTree.Within, Term.height]
  exact parse_eq_ok_iff.mpr ⟨_, hf, hbounded, rfl⟩

/-- An emitter that has one signal in reach, and `t` among the names that are taken. -/
def halfway : Emitter := ⟨"\tassign y = q;\n", ⟨⟨[⟨⟨⟨"q", ⟨2, 7⟩⟩, 1, .reg, none⟩, "q"⟩], []⟩, ["t", "y", "q"], []⟩⟩

/-- The declaration is hoisted under a new name, and the frame is as it was. -/
theorem emit_guarded_halfway : ∃ m x e', parse guardedText = .ok [m] ∧
    m.statements.head? = some x ∧ halfway.state.Unbroken ∧
    (Emitter.statement .continuous 1 x halfway).result = .ok e' ∧
    e'.out = "\tassign y = q;\n\talways @(*) begin\n\t\tif (q) begin\n\t\t\tq = 1;\n\t\tend else begin\n" ++
      "\t\t\tt_1 = q;\n\t\tend\n\tend\n" ∧
    e'.state.hoisted = [⟨true, 1, "t_1"⟩] ∧
    e'.state.scope = halfway.state.scope ∧ halfway.Adds 1 x.declarations (x.hoists .continuous) e' := by
  have hunbroken : halfway.state.Unbroken := by
    show ∀ frame ∈ halfway.state.scope.frames, ∀ b ∈ frame, Verilog.IsLine b.emitted
    decide
  have hemit := (emit_appends_whole_lines parse_guarded List.mem_cons_self 1 hunbroken).1 .continuous _
    List.mem_cons_self _ rfl
  exact ⟨_, _, _, parse_guarded, rfl, hunbroken, rfl, by decide, by decide, hemit.1, hemit.2⟩

end Gateware

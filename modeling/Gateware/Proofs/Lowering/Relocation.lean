import Gateware.Compile
import Gateware.Proofs.Lowering.Modules
import Gateware.Proofs.Reading.Relocation

/- Positions play no part in lowering.

   The signals in reach are kept with the places of their declarations, and errors name places;
   nothing else depends on them. This file

   1. moves scopes, states and errors to other places (`Scope.relocate`, `State.relocate`,
      `LoweringError.relocate`);
   2. says of a step of lowering that from a moved state it gives the moved result, whatever events
      it reports (`Moves`), and proves it of all steps, from expressions up to modules
      (`Expr.lower_relocate` to `moves_modules`);
   3. concludes that modules at other places have the same Verilog text, or the error is moved with
      them (`result_emit_relocate`);
   4. puts this together with the same fact about reading: texts with the same words have the same
      Verilog text, or errors that differ in nothing but positions (`compile_ignores_layout`). All
      positions are moved to one place, which leaves only the words. -/
namespace Gateware

/-! ## Scopes and errors at other places -/

section
variable (σ : Position → Position)

def LoweringError.relocate : LoweringError → LoweringError
  | .unsupported node pos => .unsupported node (σ pos)
  | .undeclared id => .undeclared (id.relocate σ)
  | .duplicate id first => .duplicate (id.relocate σ) (σ first)
  | .missingClock id => .missingClock (id.relocate σ)
  | .storageMismatch id needsRegister => .storageMismatch (id.relocate σ) needsRegister
  | .registeredInCombinational id => .registeredInCombinational (id.relocate σ)

def Binding.relocate (b : Binding) : Binding := ⟨b.signal.relocate σ, b.emitted⟩

def Frame.relocate (frame : Frame) : Frame := frame.map (Binding.relocate σ)

def Scope.relocate (s : Scope) : Scope := ⟨s.innermost.relocate σ, s.enclosing.map (Frame.relocate σ)⟩

def Lowering.State.relocate (s : State) : State := { s with scope := s.scope.relocate σ }

end

section
variable {σ : Position → Position}

@[simp] theorem Signal.isRegister_relocate (s : Signal) : (s.relocate σ).isRegister = s.isRegister := by
  simp [isRegister, relocate]

@[simp] theorem Stmt.isBlock_relocate (s : Stmt) : (s.relocate σ).isBlock = s.isBlock := by
  cases s <;> rfl

theorem Frame.find?_relocate (frame : Frame) (name : String) :
    (frame.relocate σ).find? name = (frame.find? name).map (Binding.relocate σ) :=
  List.find?_map

namespace Scope

theorem lookup_relocate (s : Scope) (name : String) :
    (s.relocate σ).lookup name = (s.lookup name).map (Binding.relocate σ) := by
  have hframes : (s.relocate σ).frames = s.frames.map (Frame.relocate σ) := rfl
  rw [lookup, lookup, hframes, List.findSome?_map, List.map_findSome?]
  congr 1
  funext frame
  exact frame.find?_relocate name

theorem require_relocate (s : Scope) (id : Ident) :
    (s.relocate σ).require (id.relocate σ) =
      ((s.require id).mapError (LoweringError.relocate σ)).map (Binding.relocate σ) := by
  have hname : (id.relocate σ).name = id.name := rfl
  rw [require, require, hname, lookup_relocate]
  cases s.lookup id.name <;> rfl

theorem declareAs_relocate (s : Scope) (signal : Signal) (emitted : String) :
    (s.relocate σ).declareAs (signal.relocate σ) emitted =
      ((s.declareAs signal emitted).mapError (LoweringError.relocate σ)).map (Scope.relocate σ) := by
  have hfind : (s.relocate σ).innermost.find? (signal.relocate σ).name.name = _ :=
    s.innermost.find?_relocate signal.name.name
  rw [declareAs, declareAs, hfind]
  cases s.innermost.find? signal.name.name <;> rfl

theorem exit_relocate (s : Scope) : (s.relocate σ).exit = s.exit.relocate σ := by
  obtain ⟨innermost, enclosing⟩ := s
  cases enclosing <;> rfl

end Scope

/-! ## Expressions -/

theorem mapError_bind {ε ε' α β : Type} (g : ε → ε') (x : Except ε α) (f : α → Except ε β) :
    (x >>= f).mapError g = x.mapError g >>= fun a => (f a).mapError g := by
  cases x <;> rfl

mutual

theorem Expr.lower_relocate (scope : Scope) : ∀ e : Expr,
    (e.relocate σ).lower (scope.relocate σ) = (e.lower scope).mapError (LoweringError.relocate σ)
  | .malformed pos => rfl
  | .ident id => by
    rw [Expr.relocate, Expr.lower, Expr.lower, scope.require_relocate]
    cases scope.require id <;> rfl
  | .literal lit => rfl
  | .paren inner start stop => by
    rw [Expr.relocate, Expr.lower, Expr.lower, inner.lower_relocate, mapError_bind]
    rfl
  | .call func args pos => by
    rw [Expr.relocate, Expr.lower, Expr.lower, Expr.lowerAll_relocate, mapError_bind]
    rfl
  | .binary op lhs rhs pos => by
    rw [Expr.relocate, Expr.lower, Expr.lower]
    cases op.toVerilog? with
    | none => rfl
    | some op =>
      simp only [lhs.lower_relocate, rhs.lower_relocate, mapError_bind]
      rfl

theorem Expr.lowerAll_relocate (scope : Scope) : ∀ es : List Expr,
    Expr.lowerAll (scope.relocate σ) (Expr.relocateAll σ es) =
      (Expr.lowerAll scope es).mapError (LoweringError.relocate σ)
  | [] => rfl
  | e :: es => by
    rw [Expr.relocateAll, Expr.lowerAll, Expr.lowerAll]
    simp only [e.lower_relocate, Expr.lowerAll_relocate, mapError_bind]
    rfl

end

end

/-! ## Steps -/

namespace Lowering
variable {α α' β β' : Type} {σ : Position → Position} {m : α → α'} {n : β → β'}

/-- From a moved state the second step gives what the first one gives, moved. -/
def Moves (σ : Position → Position) (m : α → α') (x : Lowering α) (x' : Lowering α') : Prop :=
  ∀ s, (x' (s.relocate σ)).result =
    ((x s).result.mapError (LoweringError.relocate σ)).map (Prod.map m (State.relocate σ))

theorem Moves.bind {x : Lowering α} {x' : Lowering α'} {f : α → Lowering β} {f' : α' → Lowering β'}
    (hx : Moves σ m x x') (hf : ∀ a, Moves σ n (f a) (f' (m a))) : Moves σ n (x >>= f) (x' >>= f') := by
  intro s
  rw [result_bind_apply, result_bind_apply, hx s]
  cases (x s).result with
  | error e => rfl
  | ok y => exact hf y.1 y.2

theorem moves_pure (a : α) : Moves σ m (pure a) (pure (m a)) := fun _ => rfl

theorem moves_fail (e : LoweringError) : Moves σ m (fail e) (fail (e.relocate σ)) := fun _ => rfl

theorem moves_get : Moves σ (State.relocate σ) get get := fun _ => rfl

theorem moves_modify {f f' : State → State} (h : ∀ s, f' (s.relocate σ) = (f s).relocate σ) :
    Moves σ id (modify f) (modify f') := by
  intro s
  show Except.ok (PUnit.unit, f' (s.relocate σ)) = .ok (PUnit.unit, (f s).relocate σ)
  rw [h s]

/-- Events may name places, but no step depends on them. -/
theorem moves_note (event event' : Event) : Moves σ id (note event) (note event') := fun _ => rfl

theorem moves_lift {r : Except LoweringError α} {r' : Except LoweringError α'}
    (h : r' = (r.mapError (LoweringError.relocate σ)).map m) :
    Moves σ m (liftM r : Lowering α) (liftM r' : Lowering α') := by
  subst h
  intro s
  cases r <;> rfl

theorem moves_scope : Moves σ (Scope.relocate σ) scope scope :=
  moves_get.bind fun s => moves_pure s.scope

theorem Moves.inFrame {x : Lowering α} {x' : Lowering α'} (hx : Moves σ m x x') :
    Moves σ m (inFrame x) (inFrame x') := by
  refine Moves.bind (moves_modify fun _ => rfl) fun _ => ?_
  apply moves_scope.bind
  intro _
  refine Moves.bind (moves_note _ _) fun _ => ?_
  apply hx.bind
  intro a
  refine Moves.bind (moves_modify fun s => ?_) fun _ => ?_
  · rw [State.relocate, Scope.exit_relocate]
    rfl
  · apply moves_scope.bind
    intro _
    exact (moves_note _ _).bind fun _ => moves_pure a

/-! ## Declarations -/

theorem moves_claim (name : String) : Moves σ id (claim name) (claim name) := by
  apply moves_get.bind
  intro s
  exact Moves.bind (moves_modify fun _ => rfl) fun _ => moves_pure (freshName s.used name)

theorem moves_introduce (signal : Signal) (emitted : String) :
    Moves σ id (introduce signal emitted) (introduce (signal.relocate σ) emitted) := by
  apply moves_scope.bind
  intro scope
  apply (moves_lift (scope.declareAs_relocate signal emitted)).bind
  intro scope'
  exact Moves.bind (moves_modify fun _ => rfl) fun _ => moves_note _ _

@[simp] theorem declarationOf_relocate (signal : Signal) (emitted : String) :
    declarationOf (signal.relocate σ) emitted = declarationOf signal emitted := by
  rw [declarationOf, declarationOf, Signal.isRegister_relocate]
  rfl

theorem moves_declareSignal (signal : Signal) :
    Moves σ id (declareSignal signal) (declareSignal (signal.relocate σ)) := by
  unfold declareSignal
  simp only [declarationOf_relocate]
  apply (moves_claim signal.name.name).bind
  intro emitted
  have hdeclare : Moves σ id (introduce signal emitted >>= fun _ => pure (declarationOf signal emitted))
      (introduce (signal.relocate σ) emitted >>= fun _ => pure (declarationOf signal emitted)) :=
    (moves_introduce signal emitted).bind fun _ => moves_pure _
  -- the name alone decides whether there is an event, and it is not moved
  show Moves σ id _ (if emitted ≠ signal.name.name then _ else _)
  split
  · exact (moves_note _ _).bind fun _ => hdeclare
  · exact hdeclare

theorem moves_declare (d : Decl) (pos : Position) :
    Moves σ id (declare d pos) (declare (Decl.relocate σ d) (σ pos)) := by
  cases d with
  | signal s => exact moves_declareSignal s
  | value v => exact moves_fail (.unsupported .valueDeclaration pos)
  | port p => exact moves_fail (.unsupported .strayPort pos)
  | submodule m => exact moves_fail (.unsupported .nestedModule pos)

/-! ## Uses -/

theorem moves_expression (e : Expr) : Moves σ id (expression e) (expression (e.relocate σ)) := by
  apply moves_scope.bind
  intro scope
  apply moves_lift
  rw [e.lower_relocate]
  cases e.lower scope <;> rfl

theorem moves_trigger (clock : Clock) : Moves σ id (trigger clock) (trigger (clock.relocate σ)) := by
  apply moves_scope.bind
  intro scope
  apply (moves_lift (scope.require_relocate clock.name)).bind
  intro binding
  exact moves_pure (⟨if clock.negated then .falling else .rising, binding.emitted⟩ : Verilog.Trigger)

theorem moves_sides (lhs : Ident) (rhs : Expr) (needsRegister : Bool) :
    Moves σ (Prod.map (Binding.relocate σ) id) (sides lhs rhs needsRegister)
      (sides (lhs.relocate σ) (rhs.relocate σ) needsRegister) := by
  apply moves_scope.bind
  intro scope
  apply (moves_lift (scope.require_relocate lhs)).bind
  intro target
  apply (moves_expression rhs).bind
  intro value
  have hregister : (target.relocate σ).signal.isRegister = target.signal.isRegister :=
    target.signal.isRegister_relocate
  rw [hregister]
  split
  · exact (moves_fail (m := id) (.storageMismatch lhs needsRegister)).bind fun _ => moves_pure (target, value)
  · exact moves_pure (target, value)

theorem moves_continuous (kind : AssignKind) (lhs : Ident) (rhs : Expr) :
    Moves σ id (continuous kind lhs rhs) (continuous kind (lhs.relocate σ) (rhs.relocate σ)) := by
  cases kind with
  | plain =>
    apply (moves_sides lhs rhs false).bind
    intro (target, value)
    exact moves_pure (Verilog.Item.assign target.emitted value)
  | registered =>
    apply (moves_sides lhs rhs true).bind
    intro (target, value)
    -- the clock is found with the target, so it stands at its moved place
    obtain ⟨⟨name, width, storage, clock⟩, emitted⟩ := target
    cases clock with
    | none => exact moves_fail (.missingClock lhs)
    | some clock => exact (moves_trigger clock).bind fun t => moves_pure (Verilog.Item.register t emitted value)

theorem moves_procedural (procedure : Procedure) (kind : AssignKind) (lhs : Ident) (rhs : Expr) :
    Moves σ id (procedural procedure kind lhs rhs)
      (procedural procedure kind (lhs.relocate σ) (rhs.relocate σ)) := by
  apply (moves_sides lhs rhs true).bind
  intro (target, value)
  cases kind with
  | plain => exact moves_pure (Verilog.Stmt.blocking target.emitted value)
  | registered =>
    cases procedure with
    | combinational => exact moves_fail (.registeredInCombinational lhs)
    | clocked => exact moves_pure (Verilog.Stmt.nonblocking target.emitted value)

/-! ## Statements -/

theorem Moves.delimit {x x' : Lowering (List Verilog.Stmt)} (hx : Moves σ id x x') (s : Stmt) :
    Moves σ id (delimit s x) (delimit (s.relocate σ) x') := by
  unfold Lowering.delimit
  rw [Stmt.isBlock_relocate]
  split
  · exact hx.inFrame.bind fun stmts => moves_pure [Verilog.Stmt.block stmts]
  · exact hx

/-- A condition, its body and its alternative, and what is made of them. -/
theorem moves_conditional {procedure : Procedure} {body : Stmt} {alternative : Option Stmt}
    (hbody : Moves σ id (contents procedure body) (contents procedure (body.relocate σ)))
    (halternative : Moves σ id (branches procedure alternative)
      (branches procedure (Stmt.relocateOption σ alternative)))
    (cond : Expr) (f : Verilog.Expr → List Verilog.Stmt → Branches → α) :
    Moves σ id
      (do
        let cond ← expression cond
        let body ← inFrame (contents procedure body)
        let others ← branches procedure alternative
        return f cond body others)
      (do
        let cond ← expression (cond.relocate σ)
        let body ← inFrame (contents procedure (body.relocate σ))
        let others ← branches procedure (Stmt.relocateOption σ alternative)
        return f cond body others) := by
  apply (moves_expression cond).bind
  intro cond
  apply hbody.inFrame.bind
  intro body
  exact halternative.bind fun others => moves_pure (f cond body others)

mutual

theorem moves_contents (procedure : Procedure) : ∀ s : Stmt,
    Moves σ id (contents procedure s) (contents procedure (s.relocate σ))
  | .decl d pos => by
    rw [Stmt.relocate, contents, contents]
    apply (moves_declare d pos).bind
    intro declaration
    exact Moves.bind (moves_modify fun _ => rfl) fun _ => moves_pure []
  | .assign kind lhs rhs pos => by
    rw [Stmt.relocate, contents, contents]
    exact (moves_procedural procedure kind lhs rhs).bind fun v => moves_pure [v]
  | .sequence clock inner pos => moves_fail (.unsupported .nestedSequence pos)
  | .conditional cond body alternative pos => by
    rw [Stmt.relocate, contents, contents]
    exact moves_conditional (moves_contents procedure body) (moves_branches procedure alternative) cond
      fun cond body others => [Verilog.Stmt.conditional cond body others.1 others.2]
  | .block ⟨stmts, start, stop⟩ => by
    rw [Stmt.relocate, Block.relocate, contents, contents]
    exact moves_allContents procedure stmts
  | .malformed pos => moves_fail (.unsupported .malformedStatement pos)
  | .expr e pos => moves_fail (.unsupported .expressionStatement pos)
  | .result value pos => moves_fail (.unsupported .returnStatement pos)
  | .loop cond body pos => moves_fail (.unsupported .loopStatement pos)

theorem moves_allContents (procedure : Procedure) : ∀ ss : List Stmt,
    Moves σ id (allContents procedure ss) (allContents procedure (Stmt.relocateAll σ ss))
  | [] => moves_pure []
  | s :: ss => by
    rw [Stmt.relocateAll, allContents, allContents]
    apply ((moves_contents procedure s).delimit s).bind
    intro first
    exact (moves_allContents procedure ss).bind fun others => moves_pure (first ++ others)

theorem moves_branches (procedure : Procedure) : ∀ alternative : Option Stmt,
    Moves σ id (branches procedure alternative) (branches procedure (Stmt.relocateOption σ alternative))
  | none => moves_pure ([], none)
  | some s => by
    have hbody : Moves σ id (inFrame (contents procedure s)) (inFrame (contents procedure (s.relocate σ))) :=
      (moves_contents procedure s).inFrame
    cases s with
    | conditional cond body alternative pos =>
      rw [Stmt.relocateOption, Stmt.relocate, branches, branches]
      exact moves_conditional (moves_contents procedure body) (moves_branches procedure alternative) cond
        fun cond body others => ((cond, body) :: others.1, others.2)
    | _ => exact hbody.bind fun stmts => moves_pure ([], some stmts)

end

mutual

theorem moves_items : ∀ s : Stmt, Moves σ id (items s) (items (s.relocate σ))
  | .decl d pos => by
    rw [Stmt.relocate, items, items]
    exact (moves_declare d pos).bind fun declaration => moves_pure [Verilog.Item.declaration declaration]
  | .assign kind lhs rhs pos => by
    rw [Stmt.relocate, items, items]
    exact (moves_continuous kind lhs rhs).bind fun item => moves_pure [item]
  | .sequence clock inner pos => by
    rw [Stmt.relocate, items, items]
    apply (moves_trigger clock).bind
    intro trigger
    exact (moves_contents .clocked inner).inFrame.bind fun stmts =>
      moves_pure [Verilog.Item.always (.trigger trigger) stmts]
  | .conditional cond body alternative pos => by
    rw [Stmt.relocate, items, items]
    exact (moves_contents .combinational (.conditional cond body alternative pos)).bind fun stmts =>
      moves_pure [Verilog.Item.always .inputs stmts]
  | .block ⟨stmts, start, stop⟩ => by
    rw [Stmt.relocate, Block.relocate, items, items]
    exact (moves_allItems stmts).inFrame
  | .malformed pos => moves_fail (.unsupported .malformedStatement pos)
  | .expr e pos => moves_fail (.unsupported .expressionStatement pos)
  | .result value pos => moves_fail (.unsupported .returnStatement pos)
  | .loop cond body pos => moves_fail (.unsupported .loopStatement pos)

theorem moves_allItems : ∀ ss : List Stmt, Moves σ id (allItems ss) (allItems (Stmt.relocateAll σ ss))
  | [] => moves_pure []
  | s :: ss => by
    rw [Stmt.relocateAll, allItems, allItems]
    apply (moves_items s).bind
    intro first
    exact (moves_allItems ss).bind fun others => moves_pure (first ++ others)

end

/-! ## Modules -/

theorem moves_port (p : Port) : Moves σ id (port p) (port (p.relocate σ)) := by
  apply (moves_claim p.signal.name.name).bind
  intro emitted
  apply (moves_introduce p.signal emitted).bind
  intro _
  have hsame : declarationOf (p.relocate σ).signal (id emitted) = declarationOf p.signal emitted :=
    declarationOf_relocate p.signal emitted
  rw [hsame]
  exact moves_pure (⟨p.direction, declarationOf p.signal emitted⟩ : Verilog.Port)

theorem moves_ports (ps : List Port) : Moves σ id (ports ps) (ports (ps.map (Port.relocate σ))) := by
  induction ps with
  | nil => exact moves_pure []
  | cons p ps ih =>
    apply (moves_port p).bind
    intro first
    exact ih.bind fun others => moves_pure (first :: others)

theorem moves_module (m : Module) : Moves σ id (module m) (module (Module.relocate σ m)) := by
  obtain ⟨name, ps, stmts, start, stop⟩ := m
  refine Moves.bind (moves_note _ _) fun _ => ?_
  apply Moves.inFrame
  apply (moves_ports ps).bind
  intro ports
  apply (moves_allItems stmts).inFrame.bind
  intro items
  exact moves_get.bind fun s => moves_pure (⟨name.name, ports, s.hoisted, items⟩ : Verilog.Module)

theorem moves_modules (ms : List Module) : Moves σ id (modules ms) (modules (ms.map (Module.relocate σ))) := by
  induction ms with
  | nil => exact moves_pure []
  | cons m ms ih =>
    refine Moves.bind (moves_modify fun _ => rfl) fun _ => ?_
    apply (moves_module m).bind
    intro first
    exact ih.bind fun others => moves_pure (first :: others)

end Lowering

/-- Modules at other places have the same Verilog text, or the error is moved with them. -/
theorem result_emit_relocate (σ : Position → Position) (ms : List Module) :
    (emit (ms.map (Module.relocate σ))).result = (emit ms).result.mapError (LoweringError.relocate σ) := by
  have hmoved : (Lowering.modules (ms.map (Module.relocate σ)) Lowering.State.initial).result = _ :=
    Lowering.moves_modules ms Lowering.State.initial
  rw [Lowering.result_emit, Lowering.result_emit, Lowering.result_lowerAll, Lowering.result_lowerAll, hmoved]
  cases (Lowering.modules ms Lowering.State.initial).result <;> rfl

/-! ## Source texts -/

/-- The same error of the reader, up to positions. -/
inductive SyntaxError.Alike : SyntaxError → SyntaxError → Prop
  | endOfInput (failure failure' : EndOfInput) : Alike (.endOfInput failure) (.endOfInput failure')
  | unexpected (construct : Construct) {received received' : Token} (expected : List Token.Kind)
      (htext : received.text = received'.text) :
      Alike (.unexpected construct received expected) (.unexpected construct received' expected)
  | malformedWidth {token token' : Token} (htext : token.text = token'.text) :
      Alike (.malformedWidth token) (.malformedWidth token')
  | malformedExpression (pos pos' : Position) : Alike (.malformedExpression pos) (.malformedExpression pos')
  | tooDeep (pos pos' : Position) : Alike (.tooDeep pos) (.tooDeep pos')

/-- The same error of the lowering, up to positions. -/
inductive LoweringError.Alike : LoweringError → LoweringError → Prop
  | unsupported (node : Unsupported) (pos pos' : Position) : Alike (.unsupported node pos) (.unsupported node pos')
  | undeclared {id id' : Ident} (hname : id.name = id'.name) : Alike (.undeclared id) (.undeclared id')
  | duplicate {id id' : Ident} (hname : id.name = id'.name) (first first' : Position) :
      Alike (.duplicate id first) (.duplicate id' first')
  | missingClock {id id' : Ident} (hname : id.name = id'.name) : Alike (.missingClock id) (.missingClock id')
  | storageMismatch {id id' : Ident} (hname : id.name = id'.name) (needsRegister : Bool) :
      Alike (.storageMismatch id needsRegister) (.storageMismatch id' needsRegister)
  | registeredInCombinational {id id' : Ident} (hname : id.name = id'.name) :
      Alike (.registeredInCombinational id) (.registeredInCombinational id')

/-- The same error of compilation, up to positions. -/
inductive CompileError.Alike : CompileError → CompileError → Prop
  | reading {e e' : SyntaxError} (h : e.Alike e') : Alike (.reading e) (.reading e')
  | lowering {e e' : LoweringError} (h : e.Alike e') : Alike (.lowering e) (.lowering e')

section
variable {σ : Position → Position}

theorem Token.text_eq_of_relocate_eq {t t' : Token} (h : t.relocate σ = t'.relocate σ) : t.text = t'.text := by
  rw [← Token.text_relocate σ t, h, Token.text_relocate]

theorem Ident.name_eq_of_relocate_eq {id id' : Ident} (h : id.relocate σ = id'.relocate σ) : id.name = id'.name := by
  show (id.relocate σ).name = (id'.relocate σ).name
  rw [h]

/-- Errors that can be moved to one error are the same up to positions. -/
theorem SyntaxError.alike_of_relocate_eq {e e' : SyntaxError} (h : e.relocate σ = e'.relocate σ) : e.Alike e' := by
  cases e with
  | endOfInput failure =>
    cases e' with
    | endOfInput failure' => exact .endOfInput failure failure'
    | _ => cases h
  | unexpected construct received expected =>
    cases e' with
    | unexpected construct' received' expected' =>
      simp only [relocate, unexpected.injEq] at h
      obtain ⟨rfl, htoken, rfl⟩ := h
      exact .unexpected construct expected (Token.text_eq_of_relocate_eq htoken)
    | _ => cases h
  | malformedWidth token =>
    cases e' with
    | malformedWidth token' =>
      simp only [relocate, malformedWidth.injEq] at h
      exact .malformedWidth (Token.text_eq_of_relocate_eq h)
    | _ => cases h
  | malformedExpression pos =>
    cases e' with
    | malformedExpression pos' => exact .malformedExpression pos pos'
    | _ => cases h
  | tooDeep pos =>
    cases e' with
    | tooDeep pos' => exact .tooDeep pos pos'
    | _ => cases h

theorem LoweringError.alike_of_relocate_eq {e e' : LoweringError} (h : e.relocate σ = e'.relocate σ) :
    e.Alike e' := by
  cases e with
  | unsupported node pos =>
    cases e' with
    | unsupported node' pos' =>
      simp only [relocate, unsupported.injEq] at h
      obtain ⟨rfl, -⟩ := h
      exact .unsupported node pos pos'
    | _ => cases h
  | undeclared id =>
    cases e' with
    | undeclared id' =>
      simp only [relocate, undeclared.injEq] at h
      exact .undeclared (Ident.name_eq_of_relocate_eq h)
    | _ => cases h
  | duplicate id first =>
    cases e' with
    | duplicate id' first' =>
      simp only [relocate, duplicate.injEq] at h
      exact .duplicate (Ident.name_eq_of_relocate_eq h.1) first first'
    | _ => cases h
  | missingClock id =>
    cases e' with
    | missingClock id' =>
      simp only [relocate, missingClock.injEq] at h
      exact .missingClock (Ident.name_eq_of_relocate_eq h)
    | _ => cases h
  | storageMismatch id needsRegister =>
    cases e' with
    | storageMismatch id' needsRegister' =>
      simp only [relocate, storageMismatch.injEq] at h
      obtain ⟨hid, rfl⟩ := h
      exact .storageMismatch (Ident.name_eq_of_relocate_eq hid) needsRegister
    | _ => cases h
  | registeredInCombinational id =>
    cases e' with
    | registeredInCombinational id' =>
      simp only [relocate, registeredInCombinational.injEq] at h
      exact .registeredInCombinational (Ident.name_eq_of_relocate_eq h)
    | _ => cases h

end

/-- With all positions moved to one place, only the words of a text are left. -/
theorem TokenQueue.relocate_ofSource (source : String) (pos : Position) :
    (ofSource source).relocate (fun _ => pos) = ⟨(words source).map fun text => ⟨text, pos⟩, pos⟩ := by
  simp [words, relocate, ofSource, Token.relocate]

/-- Modules that differ only in positions have one Verilog text or alike errors. -/
theorem emit_alike {σ : Position → Position} {ms₁ ms₂ : List Module}
    (h : ms₁.map (Module.relocate σ) = ms₂.map (Module.relocate σ)) :
    (∃ text, (emit ms₁).result = .ok text ∧ (emit ms₂).result = .ok text) ∨
    ∃ e₁ e₂, (emit ms₁).result = .error e₁ ∧ (emit ms₂).result = .error e₂ ∧ e₁.Alike e₂ := by
  have hmoved : (emit ms₁).result.mapError (LoweringError.relocate σ) =
      (emit ms₂).result.mapError (LoweringError.relocate σ) := by
    rw [← result_emit_relocate, h, result_emit_relocate]
  cases h₁ : (emit ms₁).result with
  | ok text₁ =>
    cases h₂ : (emit ms₂).result with
    | ok text₂ =>
      rw [h₁, h₂] at hmoved
      obtain rfl : text₁ = text₂ := Except.ok.inj hmoved
      exact .inl ⟨text₁, rfl, rfl⟩
    | error e₂ => simp [h₁, h₂, Except.mapError] at hmoved
  | error e₁ =>
    cases h₂ : (emit ms₂).result with
    | ok text₂ => simp [h₁, h₂, Except.mapError] at hmoved
    | error e₂ =>
      rw [h₁, h₂] at hmoved
      exact .inr ⟨e₁, e₂, rfl, rfl, LoweringError.alike_of_relocate_eq (Except.error.inj hmoved)⟩

/-- Layout plays no part in compilation. Two texts with the same words have the same Verilog
text, or there are errors in both that differ in nothing but positions. -/
theorem compile_ignores_layout {s₁ s₂ : String} (h : words s₁ = words s₂) :
    (∃ text, compile s₁ = .ok text ∧ compile s₂ = .ok text) ∨
    ∃ e₁ e₂, compile s₁ = .error e₁ ∧ compile s₂ = .error e₂ ∧ e₁.Alike e₂ := by
  -- with all positions alike, the two texts have the same tokens
  let σ : Position → Position := fun _ => Position.start
  have hqueue : (TokenQueue.ofSource s₁).relocate σ = (TokenQueue.ofSource s₂).relocate σ := by
    rw [TokenQueue.relocate_ofSource, TokenQueue.relocate_ofSource, h]
  have hparse : moved σ (List.map (Module.relocate σ)) (parse s₁) =
      moved σ (List.map (Module.relocate σ)) (parse s₂) := by
    rw [parse_eq_modules, parse_eq_modules, ← TokenQueue.modules_relocate, ← TokenQueue.modules_relocate, hqueue]
  unfold compile
  cases h₁ : parse s₁ with
  | error e₁ =>
    cases h₂ : parse s₂ with
    | error e₂ =>
      rw [h₁, h₂] at hparse
      exact .inr ⟨_, _, rfl, rfl, .reading (SyntaxError.alike_of_relocate_eq (Except.error.inj hparse))⟩
    | ok ms₂ => simp [h₁, h₂, moved] at hparse
  | ok ms₁ =>
    cases h₂ : parse s₂ with
    | error e₂ => simp [h₁, h₂, moved] at hparse
    | ok ms₂ =>
      rw [h₁, h₂] at hparse
      rcases emit_alike (Except.ok.inj hparse) with ⟨text, ht₁, ht₂⟩ | ⟨e₁, e₂, he₁, he₂, he⟩
      · exact .inl ⟨text, by simp only [ht₁, Except.mapError], by simp only [ht₂, Except.mapError]⟩
      · exact .inr ⟨.lowering e₁, .lowering e₂, by simp only [he₁, Except.mapError],
          by simp only [he₂, Except.mapError], .lowering he⟩

/-- Texts in one line and in several ones with comments between them: a module, and one in which
a name is not declared. -/
theorem compile_laid_out_anew :
    (∃ text, compile ("m(in a,out b)" ++ braced "b=a+1;") = .ok text ∧
      compile ("m ( in a, // input\r\n  out b )\r\n" ++ braced "\r\n\tb = a + 1; //\r\n" ++ "\r\n") = .ok text) ∧
    compile ("m(in a)" ++ braced "b=a;") = .error (.lowering (.undeclared ⟨"b", ⟨1, 9⟩⟩)) ∧
    ∃ e, compile ("m(\n  in a // input\n)\n" ++ braced "\n  b = a;\n" ++ "\n") = .error e ∧
      CompileError.Alike (.lowering (.undeclared ⟨"b", ⟨1, 9⟩⟩)) e := by
  refine ⟨?_, ?_⟩
  · have hwords : words ("m(in a,out b)" ++ braced "b=a+1;") =
        words ("m ( in a, // input\r\n  out b )\r\n" ++ braced "\r\n\tb = a + 1; //\r\n" ++ "\r\n") := by decide +kernel
    have hok : (compile ("m(in a,out b)" ++ braced "b=a+1;")).isOk = true := by decide +kernel
    rcases compile_ignores_layout hwords with h | ⟨e, _, he, -, -⟩
    · exact h
    · rw [he] at hok
      cases hok
  · have hwords : words ("m(in a)" ++ braced "b=a;") =
        words ("m(\n  in a // input\n)\n" ++ braced "\n  b = a;\n" ++ "\n") := by decide +kernel
    have herror : compile ("m(in a)" ++ braced "b=a;") = .error (.lowering (.undeclared ⟨"b", ⟨1, 9⟩⟩)) := by
      decide +kernel
    rcases compile_ignores_layout hwords with ⟨_, h, -⟩ | ⟨e₁, e₂, he₁, he₂, halike⟩
    · rw [herror] at h
      cases h
    · rw [herror] at he₁
      obtain rfl := Except.error.inj he₁
      exact ⟨herror, e₂, he₂, halike⟩

end Gateware

import Gateware.Proofs.Checking.Fault
import Gateware.Proofs.Lowering.Modules

/- Lowering finds the first fault.

   This file

   1. says of a result that it meets a list of faults (`Meets`): it is the first of them or, without
      any, a value; two steps in a row meet the faults of the one before those of the other
      (`Meets.bind`, `StepMeets.bind`);
   2. relates scopes and the frames of the walk (`Tracks`): as long as nothing is wrong, a scope
      binds the signals that the walk has in its frames, so each check of a step is a check of the
      walk;
   3. proves for each operation of lowering that it meets its faults (`meets_require` to
      `meets_ports`), and from these by recursion on statements that lowering does (`contents_meet`,
      `items_meet`);
   4. concludes that emission succeeds exactly on modules without faults, and otherwise ends with the
      first fault that a walk through the source finds (`emit_ends_with_first_fault`). -/
namespace Gateware.Checking
open Lowering
variable {α β : Type}

/-! ## Results and faults -/

/-- The result is the first fault or, if there is none, a value with some property. -/
def Meets (r : Except LoweringError α) (faults : List LoweringError) (p : α → Prop) : Prop :=
  match faults with
  | [] => ∃ a, r = .ok a ∧ p a
  | e :: _ => r = .error e

theorem Meets.ok {a : α} {p : α → Prop} (h : p a) : Meets (.ok a) [] p := ⟨a, rfl, h⟩

theorem Meets.bind {r : Except LoweringError α} {f : α → Except LoweringError β} {fs gs : List LoweringError}
    {p : α → Prop} {p' : β → Prop} (h : Meets r fs p) (hf : ∀ a, p a → Meets (f a) gs p') :
    Meets (r >>= f) (fs ++ gs) p' := by
  cases fs with
  | nil =>
    obtain ⟨a, ha, hp⟩ := h
    rw [ha]
    exact hf a hp
  | cons e fs =>
    have herror : r = .error e := h
    rw [herror]
    rfl

/-- A step without faults of its own after another one. -/
theorem Meets.bind_ok {r : Except LoweringError α} {f : α → Except LoweringError β} {fs : List LoweringError}
    {p : α → Prop} {p' : β → Prop} (h : Meets r fs p) (hf : ∀ a, p a → Meets (f a) [] p') :
    Meets (r >>= f) fs p' := by
  rw [← List.append_nil fs]
  exact h.bind hf

theorem Meets.imp {r : Except LoweringError α} {fs : List LoweringError} {p p' : α → Prop} (h : Meets r fs p)
    (hp : ∀ a, p a → p' a) : Meets r fs p' := by
  cases fs with
  | nil =>
    obtain ⟨a, ha, hpa⟩ := h
    exact ⟨a, ha, hp a hpa⟩
  | cons e fs => exact h

/-- A value comes exactly of no faults, and an error is exactly the first fault. -/
theorem Meets.result_iff {r : Except LoweringError α} {fs : List LoweringError} {p : α → Prop}
    (h : Meets r fs p) : ((∃ a, r = .ok a) ↔ fs = []) ∧ ∀ e, r = .error e ↔ fs.head? = some e := by
  cases fs with
  | nil =>
    obtain ⟨a, ha, -⟩ := h
    simp [ha]
  | cons e fs =>
    have herror : r = .error e := h
    simp [herror]

/-- The result of a step of lowering, with the state after it. -/
def StepMeets (x : Lowering α) (s : State) (faults : List LoweringError) (p : α → State → Prop) : Prop :=
  Meets (x s).result faults fun y => p y.1 y.2

section
variable {s s' : State} {fs gs : List LoweringError} {p : α → State → Prop} {p' : β → State → Prop}

theorem StepMeets.bind {x : Lowering α} {f : α → Lowering β} (h : StepMeets x s fs p)
    (hf : ∀ a s', p a s' → StepMeets (f a) s' gs p') : StepMeets (x >>= f) s (fs ++ gs) p' := by
  unfold StepMeets
  rw [result_bind_apply]
  exact Meets.bind h (fun y hy => hf y.1 y.2 hy)

theorem stepMeets_of_yields {x : Lowering α} {a : α} (h : Yields x s a s') (hp : p a s') :
    StepMeets x s [] p := ⟨(a, s'), h, hp⟩

theorem stepMeets_pure {a : α} (h : p a s) : StepMeets (pure a) s [] p :=
  stepMeets_of_yields (yields_pure.mpr ⟨rfl, rfl⟩) h

theorem stepMeets_fail (e : LoweringError) : StepMeets (fail e) s [e] p := rfl

/-- A step that cannot fail, before another one. -/
theorem StepMeets.after_yields {x : Lowering α} {f : α → Lowering β} {a : α} (hx : Yields x s a s')
    (hf : StepMeets (f a) s' fs p') : StepMeets (x >>= f) s fs p' := by
  have h : StepMeets (x >>= f) s ([] ++ fs) p' :=
    StepMeets.bind (p := fun a' t => a' = a ∧ t = s') (stepMeets_of_yields hx ⟨rfl, rfl⟩) (by
      intro a' t hat
      obtain ⟨rfl, rfl⟩ := hat
      exact hf)
  exact h

theorem StepMeets.after_scope {f : Scope → Lowering β} (hf : StepMeets (f s.scope) s fs p') :
    StepMeets (scope >>= f) s fs p' :=
  StepMeets.after_yields (yields_scope.mpr ⟨rfl, rfl⟩) hf

theorem StepMeets.after_note {event : Event} {f : Unit → Lowering β} (hf : StepMeets (f ()) s fs p') :
    StepMeets (note event >>= f) s fs p' :=
  StepMeets.after_yields (yields_note.mpr rfl) hf

theorem StepMeets.after_modify {g : State → State} {f : PUnit → Lowering β} (hf : StepMeets (f ⟨⟩) (g s) fs p') :
    StepMeets (modify g >>= f) s fs p' :=
  StepMeets.after_yields (yields_modify.mpr rfl) hf

/-- A step without faults of its own after another one. -/
theorem StepMeets.bind_nil {x : Lowering α} {f : α → Lowering β} (h : StepMeets x s fs p)
    (hf : ∀ a s', p a s' → StepMeets (f a) s' [] p') : StepMeets (x >>= f) s fs p' := by
  rw [← List.append_nil fs]
  exact h.bind hf

theorem stepMeets_lift {r : Except LoweringError α} (h : Meets r fs fun a => p a s) :
    StepMeets (liftM r : Lowering α) s fs p := by
  cases fs with
  | nil =>
    obtain ⟨a, rfl, hp⟩ := h
    exact stepMeets_of_yields (yields_lift.mpr ⟨rfl, rfl⟩) hp
  | cons e fs =>
    obtain rfl : r = .error e := h
    rfl

end

/-! ## Scopes and frames -/

/-- A scope binds the signals of the frames, of which there is at least one. Its outermost
frame belongs to no module and stays empty. -/
structure Tracks (frames : Frames) (scope : Scope) : Prop where
  ne_nil : frames ≠ []
  signals_eq : scope.frames.map (List.map Binding.signal) = frames ++ [[]]

/-- A scope binds the signals of the frames, except for those of the innermost one. -/
def TracksOuter (frames : Frames) (scope : Scope) : Prop := ∃ frame, Tracks (frame :: frames.tail) scope

section
variable {frames : Frames} {scope : Scope}

theorem tracks_cons {frame : List Signal} : Tracks (frame :: frames) scope ↔
    scope.innermost.map Binding.signal = frame ∧
      scope.enclosing.map (List.map Binding.signal) = frames ++ [[]] := by
  constructor
  · intro h
    exact List.cons.inj h.signals_eq
  · intro h
    refine ⟨List.cons_ne_nil _ _, ?_⟩
    rw [Scope.frames, List.map_cons, h.1, h.2]
    rfl

theorem find?_map_signal (frame : Frame) (name : String) :
    (frame.map Binding.signal).find? (fun s => s.name.name == name) = (frame.find? name).map (·.signal) := by
  rw [List.find?_map]
  rfl

theorem lookup_map_signal (frames : List Frame) (name : String) :
    Frames.lookup (frames.map (List.map Binding.signal)) name =
      (frames.findSome? (·.find? name)).map (·.signal) := by
  induction frames with
  | nil => rfl
  | cons frame others ih =>
    simp only [Frames.lookup, List.map_cons, List.findSome?_cons, find?_map_signal] at ih ⊢
    cases frame.find? name with
    | some b => rfl
    | none => exact ih

theorem Tracks.lookup (h : Tracks frames scope) (name : String) :
    frames.lookup name = (scope.lookup name).map (·.signal) :=
  calc frames.lookup name = Frames.lookup (frames ++ [[]]) name := by
        simp [Frames.lookup, List.findSome?_append]
    _ = Frames.lookup (scope.frames.map (List.map Binding.signal)) name := by rw [h.signals_eq]
    _ = (scope.lookup name).map (·.signal) := lookup_map_signal scope.frames name

/-- The innermost frame declares the same names. -/
theorem Tracks.find? (h : Tracks frames scope) (name : String) :
    (frames.headD []).find? (fun s => s.name.name == name) = (scope.innermost.find? name).map (·.signal) := by
  cases frames with
  | nil => exact absurd rfl h.ne_nil
  | cons frame others =>
    rw [← find?_map_signal, (tracks_cons.mp h).1]
    rfl

theorem Tracks.enter (h : Tracks frames scope) : Tracks ([] :: frames) scope.enter :=
  tracks_cons.mpr ⟨rfl, h.signals_eq⟩

theorem Tracks.outer (h : Tracks frames scope) : TracksOuter frames scope := by
  cases frames with
  | nil => exact absurd rfl h.ne_nil
  | cons frame others => exact ⟨frame, h⟩

/-- A statement only adds to the innermost frame. -/
theorem tail_after (frames : Frames) (x : Stmt) : (frames.after x).tail = frames.tail := by
  cases x with
  | decl d pos => cases d <;> rfl
  | _ => rfl

theorem Tracks.outer_after {x : Stmt} (h : Tracks (frames.after x) scope) : TracksOuter frames scope := by
  obtain ⟨frame, hframe⟩ := h.outer
  rw [tail_after] at hframe
  exact ⟨frame, hframe⟩

/-- When the innermost frame is left, the frames around it are as before. -/
theorem TracksOuter.exit (hne : frames ≠ []) (h : TracksOuter ([] :: frames) scope) : Tracks frames scope.exit := by
  obtain ⟨frame, hframe⟩ := h
  have henclosing := (tracks_cons.mp hframe).2
  refine ⟨hne, ?_⟩
  unfold Scope.exit
  cases hcases : scope.enclosing with
  | nil => rw [hcases] at henclosing; simp at henclosing
  | cons first others =>
    rw [hcases] at henclosing
    exact henclosing

theorem Tracks.declared {s : State} (h : Tracks frames s.scope) (signal : Signal) :
    Tracks (frames.declare signal) (s.declared signal).scope := by
  cases frames with
  | nil => exact absurd rfl h.ne_nil
  | cons frame others =>
    obtain ⟨hinnermost, henclosing⟩ := tracks_cons.mp h
    refine tracks_cons.mpr ⟨?_, henclosing⟩
    show signal :: s.scope.innermost.map Binding.signal = signal :: frame
    rw [hinnermost]

end

/-! ## Uses -/

section
variable {frames : Frames} {scope : Scope} {s : State}

theorem meets_require (h : Tracks frames scope) (id : Ident) :
    Meets (scope.require id) (frames.unresolved id) fun b => frames.lookup id.name = some b.signal := by
  unfold Scope.require Frames.unresolved
  rw [h.lookup]
  cases scope.lookup id.name with
  | none => rfl
  | some b => exact Meets.ok rfl

theorem toVerilog?_eq_none_iff (op : Operator) :
    op.toVerilog? = none ↔ op ∈ [Operator.assign, .assignRegistered, .bracket] := by
  cases op <;> decide

mutual

theorem meets_lower (h : Tracks frames scope) : ∀ e : Expr,
    Meets (e.lower scope) (e.faults frames) fun _ => True
  | .malformed pos => rfl
  | .ident id => (meets_require h id).bind_ok fun b _ => Meets.ok trivial
  | .literal lit => Meets.ok trivial
  | .paren inner start stop => (meets_lower h inner).bind_ok fun v _ => Meets.ok trivial
  | .call func args pos => (meets_lowerAll h args).bind_ok fun vs _ => Meets.ok trivial
  | .binary op lhs rhs pos => by
    rw [Expr.lower, Expr.faults]
    cases hop : op.toVerilog? with
    | none =>
      rw [if_pos ((toVerilog?_eq_none_iff op).mp hop)]
      rfl
    | some op' =>
      have hlisted : op ∉ [Operator.assign, .assignRegistered, .bracket] := by
        rw [← toVerilog?_eq_none_iff, hop]
        simp
      rw [if_neg hlisted, List.nil_append]
      exact (meets_lower h lhs).bind fun l _ => (meets_lower h rhs).bind_ok fun r _ => Meets.ok trivial

theorem meets_lowerAll (h : Tracks frames scope) : ∀ es : List Expr,
    Meets (Expr.lowerAll scope es) (Expr.allFaults frames es) fun _ => True
  | [] => Meets.ok trivial
  | e :: es =>
    (meets_lower h e).bind fun _ _ => (meets_lowerAll h es).bind_ok fun _ _ => Meets.ok trivial

end

/-- A step that looks at the scope and gives a result or an error. -/
theorem stepMeets_scope {f : Scope → Except LoweringError α} {fs : List LoweringError} {p : α → State → Prop}
    (h : Meets (f s.scope) fs fun a => p a s) : StepMeets (do liftM (f (← Lowering.scope))) s fs p :=
  StepMeets.after_scope (stepMeets_lift h)

theorem meets_expression (h : Tracks frames s.scope) (e : Expr) :
    StepMeets (expression e) s (e.faults frames) fun _ s' => s' = s :=
  stepMeets_scope ((meets_lower h e).imp fun _ _ => rfl)

theorem meets_trigger (h : Tracks frames s.scope) (clock : Clock) :
    StepMeets (trigger clock) s (frames.unresolved clock.name) fun _ s' => s' = s := by
  apply StepMeets.after_scope
  apply StepMeets.bind_nil (p := fun _ s' => s' = s)
  · exact stepMeets_lift ((meets_require h clock.name).imp fun _ _ => rfl)
  · intro b s' hs'
    exact stepMeets_pure hs'

/-- The two sides of an assignment, up to the storage of the target. -/
theorem meets_sides (h : Tracks frames s.scope) (kind : AssignKind) (context : Context) (lhs : Ident) (rhs : Expr) :
    StepMeets (sides lhs rhs (kind.needsRegister context)) s
      (frames.unresolved lhs ++ (rhs.faults frames ++
        ((frames.lookup lhs.name).map (kind.wrongStorage context lhs)).getD []))
      fun y s' => frames.lookup lhs.name = some y.1.signal ∧ s' = s := by
  apply StepMeets.after_scope
  apply StepMeets.bind (p := fun b s' => frames.lookup lhs.name = some b.signal ∧ s' = s)
  · exact stepMeets_lift ((meets_require h lhs).imp fun _ hb => ⟨hb, rfl⟩)
  · intro target s₁ htarget
    obtain ⟨htarget, rfl⟩ := htarget
    apply (meets_expression h rhs).bind
    intro value s₂ hs₂
    subst hs₂
    rw [htarget, Option.map_some, Option.getD_some, AssignKind.wrongStorage]
    by_cases hregister : target.signal.isRegister = kind.needsRegister context
    · rw [if_pos hregister, if_neg (by simpa using hregister)]
      exact stepMeets_pure ⟨rfl, rfl⟩
    · rw [if_neg hregister, if_pos hregister]
      rfl

/-- What is left to check after the two sides depends on the target. -/
theorem meets_assignment (h : Tracks frames s.scope) (kind : AssignKind) (context : Context) (lhs : Ident)
    (rhs : Expr) {f : Binding × Verilog.Expr → Lowering α}
    (hf : ∀ target value, StepMeets (f (target, value)) s (frames.unclocked kind context lhs target.signal)
      fun _ s' => s' = s) :
    StepMeets (sides lhs rhs (kind.needsRegister context) >>= f) s (frames.misassigned kind context lhs rhs)
      fun _ s' => s' = s := by
  have hfaults : frames.misassigned kind context lhs rhs = (frames.unresolved lhs ++ (rhs.faults frames ++
      ((frames.lookup lhs.name).map (kind.wrongStorage context lhs)).getD [])) ++
      ((frames.lookup lhs.name).map (frames.unclocked kind context lhs)).getD [] := by
    unfold Frames.misassigned
    cases frames.lookup lhs.name <;> simp
  rw [hfaults]
  apply (meets_sides h kind context lhs rhs).bind
  intro y s' hy
  obtain ⟨htarget, rfl⟩ := hy
  rw [htarget]
  exact hf y.1 y.2

theorem meets_continuous (h : Tracks frames s.scope) (kind : AssignKind) (lhs : Ident) (rhs : Expr) :
    StepMeets (continuous kind lhs rhs) s (frames.misassigned kind .continuous lhs rhs) fun _ s' => s' = s := by
  cases kind with
  | plain =>
    apply meets_assignment h .plain .continuous
    intro target value
    exact stepMeets_pure rfl
  | registered =>
    apply meets_assignment h .registered .continuous
    intro target value
    unfold Frames.unclocked
    cases hclock : target.signal.clock with
    | none =>
      simp only [hclock]
      exact stepMeets_fail _
    | some clock =>
      simp only [hclock]
      apply (meets_trigger h clock).bind_nil
      intro t s' hs'
      exact stepMeets_pure hs'

/-- The context of the statements in a procedure. -/
def contextOf : Procedure → Context
  | .combinational => .combinational
  | .clocked => .clocked

theorem meets_procedural (h : Tracks frames s.scope) (procedure : Procedure) (kind : AssignKind) (lhs : Ident)
    (rhs : Expr) : StepMeets (procedural procedure kind lhs rhs) s
      (frames.misassigned kind (contextOf procedure) lhs rhs) fun _ s' => s' = s := by
  have hneeds : kind.needsRegister (contextOf procedure) = true := by cases kind <;> cases procedure <;> rfl
  rw [procedural, ← hneeds]
  apply meets_assignment h kind (contextOf procedure)
  intro target value
  cases kind with
  | plain => exact stepMeets_pure rfl
  | registered =>
    cases procedure with
    | combinational => exact stepMeets_fail _
    | clocked => exact stepMeets_pure rfl

/-! ## Declarations -/

theorem meets_introduce (h : Tracks frames s.scope) (signal : Signal) (emitted : String) :
    StepMeets (introduce signal emitted) s (frames.redeclared signal) fun _ s' =>
      Yields (introduce signal emitted) s () s' := by
  unfold Frames.redeclared
  rw [h.find?]
  cases hfirst : s.scope.innermost.find? signal.name.name with
  | none =>
    have hyields : Yields (introduce signal emitted) s () _ := yields_introduce.mpr ⟨hfirst, rfl⟩
    exact stepMeets_of_yields hyields hyields
  | some first =>
    have herror : s.scope.declareAs signal emitted = .error (.duplicate signal.name first.signal.name.pos) := by
      rw [Scope.declareAs, hfirst]
    apply StepMeets.after_scope
    rw [herror]
    rfl

/-- A signal that is claimed and brought into reach is declared in the innermost frame. -/
theorem tracks_of_introduce (h : Tracks frames s.scope) {signal : Signal} {s' : State} {u : Unit}
    (hs' : Yields (introduce signal (freshName s.used signal.name.name))
      { s with used := freshName s.used signal.name.name :: s.used } u s') :
    Tracks (frames.declare signal) s'.scope := by
  obtain ⟨-, rfl⟩ := yields_introduce.mp hs'
  exact h.declared signal

theorem meets_declareSignal (h : Tracks frames s.scope) (signal : Signal) :
    StepMeets (declareSignal signal) s (frames.redeclared signal) fun _ s' =>
      Tracks (frames.declare signal) s'.scope := by
  let claimed : State := { s with used := freshName s.used signal.name.name :: s.used }
  have hintroduce : StepMeets (do
      introduce signal (freshName s.used signal.name.name)
      return declarationOf signal (freshName s.used signal.name.name)) claimed
      (frames.redeclared signal) fun _ s' => Tracks (frames.declare signal) s'.scope := by
    apply (meets_introduce (s := claimed) h signal _).bind_nil
    intro u s' hs'
    exact stepMeets_pure (tracks_of_introduce h hs')
  apply StepMeets.after_yields (yields_claim.mpr ⟨rfl, rfl⟩)
  split
  · exact hintroduce.after_note
  · exact hintroduce

theorem meets_declare (h : Tracks frames s.scope) (context : Context) (d : Decl) (pos : Position) :
    StepMeets (declare d pos) s ((Stmt.decl d pos).faults frames context) fun _ s' =>
      Tracks (frames.after (.decl d pos)) s'.scope := by
  cases d with
  | signal signal => exact meets_declareSignal h signal
  | value | port | submodule => exact stepMeets_fail _

theorem meets_port (h : Tracks frames s.scope) (p : Port) :
    StepMeets (port p) s (frames.redeclared p.signal) fun _ s' =>
      Tracks (frames.declare p.signal) s'.scope := by
  apply StepMeets.after_yields (yields_claim.mpr ⟨rfl, rfl⟩)
  apply (meets_introduce (s := { s with used := freshName s.used p.signal.name.name :: s.used }) h
    p.signal _).bind_nil
  intro u s' hs'
  exact stepMeets_pure (tracks_of_introduce h hs')

theorem meets_ports (h : Tracks frames s.scope) (ps : List Port) :
    StepMeets (ports ps) s (Port.faults frames ps) fun _ s' => Tracks (frames.afterPorts ps) s'.scope := by
  induction ps generalizing frames s with
  | nil => exact stepMeets_pure h
  | cons p ps ih =>
    apply (meets_port h p).bind
    intro line s₁ hs₁
    apply (ih hs₁).bind_nil
    intro lines s₂ hs₂
    exact stepMeets_pure hs₂

theorem StepMeets.inFrame {x : Lowering α} {fs : List LoweringError} {p q : α → State → Prop}
    (hx : StepMeets x { s with scope := s.scope.enter } fs p)
    (hq : ∀ a s', p a s' → q a { s' with scope := s'.scope.exit }) : StepMeets (Lowering.inFrame x) s fs q := by
  apply StepMeets.after_modify
  apply StepMeets.after_scope
  apply StepMeets.after_note
  apply hx.bind_nil
  intro a s' hs'
  apply StepMeets.after_modify
  apply StepMeets.after_scope
  apply StepMeets.after_note
  exact stepMeets_pure (hq a s' hs')

/-- A step in a frame of its own leaves the frames as they were. -/
theorem meets_inFrame {x : Lowering α} {fs : List LoweringError} (h : Tracks frames s.scope)
    (hx : ∀ t : State, Tracks ([] :: frames) t.scope →
      StepMeets x t fs fun _ s' => TracksOuter ([] :: frames) s'.scope) :
    StepMeets (inFrame x) s fs fun _ s' => Tracks frames s'.scope :=
  StepMeets.inFrame (hx _ h.enter) fun _ _ hs' => hs'.exit h.ne_nil

end

/-! ## Statements in procedures -/

/-- The faults of a statement whose frame is open already. -/
def insideFaults (frames : Frames) (context : Context) : Stmt → List LoweringError
  | .block ⟨stmts, _, _⟩ => Stmt.allFaults frames context stmts
  | s => s.faults frames context

theorem faults_body (frames : Frames) (context : Context) (x : Stmt) :
    x.faults (frames.body x) context = insideFaults ([] :: frames) context x := by
  cases x <;> rfl

/-- Lowering a statement inside a procedure meets its faults. After a statement that is no
block, the frames are those of the walk; after a block, at least the ones around it. -/
def ContentsMeet (procedure : Procedure) (x : Stmt) : Prop :=
  ∀ ⦃frames : Frames⦄ ⦃s : State⦄, Tracks frames s.scope →
    StepMeets (contents procedure x) s (insideFaults frames (contextOf procedure) x) fun _ s' =>
      TracksOuter frames s'.scope ∧ (x.isBlock = false → Tracks (frames.after x) s'.scope)

def AllContentsMeet (procedure : Procedure) (xs : List Stmt) : Prop :=
  ∀ ⦃frames : Frames⦄ ⦃s : State⦄, Tracks frames s.scope →
    StepMeets (allContents procedure xs) s (Stmt.allFaults frames (contextOf procedure) xs) fun _ s' =>
      TracksOuter frames s'.scope

/-- The same of the alternative of a condition, which leaves the frames as they were. -/
def BranchesMeet (procedure : Procedure) (x : Option Stmt) : Prop :=
  ∀ ⦃frames : Frames⦄ ⦃s : State⦄, Tracks frames s.scope →
    StepMeets (branches procedure x) s (Stmt.alternativeFaults frames (contextOf procedure) x) fun _ s' =>
      Tracks frames s'.scope

section
variable {frames : Frames} {s : State} {procedure : Procedure}

theorem ContentsMeet.inFrame {x : Stmt} (hx : ContentsMeet procedure x) (h : Tracks frames s.scope) :
    StepMeets (Lowering.inFrame (contents procedure x)) s (x.faults (frames.body x) (contextOf procedure))
      fun _ s' => Tracks frames s'.scope := by
  rw [faults_body]
  apply meets_inFrame h
  intro t ht
  exact (hx ht).imp fun y hy => hy.1

theorem contextOf_inside (procedure : Procedure) : (contextOf procedure).inside = contextOf procedure := by
  cases procedure <;> rfl

/-- A condition, its body and its alternative, and what is made of them. -/
theorem meets_conditional {cond : Expr} {body : Stmt} {alternative : Option Stmt}
    (hbody : ContentsMeet procedure body) (halternative : BranchesMeet procedure alternative)
    (h : Tracks frames s.scope) {f : Verilog.Expr → List Verilog.Stmt → Branches → α} :
    StepMeets (do
      let cond ← expression cond
      let body ← Lowering.inFrame (contents procedure body)
      let others ← branches procedure alternative
      return f cond body others) s
      (cond.faults frames ++ (body.faults (frames.body body) (contextOf procedure) ++
        Stmt.alternativeFaults frames (contextOf procedure) alternative))
      fun _ s' => Tracks frames s'.scope := by
  apply (meets_expression h cond).bind
  intro c s₁ hs₁
  subst hs₁
  apply (hbody.inFrame h).bind
  intro vs s₂ hs₂
  apply (halternative hs₂).bind_nil
  intro b s₃ hs₃
  exact stepMeets_pure hs₃

end

mutual

theorem contents_meet (procedure : Procedure) : ∀ x : Stmt, ContentsMeet procedure x
  | .decl d pos, frames, s, h => by
    apply (meets_declare h (contextOf procedure) d pos).bind_nil
    intro line s₁ hs₁
    apply StepMeets.after_modify
    exact stepMeets_pure ⟨hs₁.outer_after, fun _ => hs₁⟩
  | .assign kind lhs rhs pos, frames, s, h => by
    apply (meets_procedural h procedure kind lhs rhs).bind_nil
    intro v s₁ hs₁
    subst hs₁
    exact stepMeets_pure ⟨h.outer, fun _ => h⟩
  | .sequence clock inner pos, frames, s, h => by
    cases procedure <;> exact stepMeets_fail _
  | .conditional cond body alternative pos, frames, s, h => by
    show StepMeets _ s ((Stmt.conditional cond body alternative pos).faults frames (contextOf procedure)) _
    rw [contents, Stmt.faults, contextOf_inside]
    exact (meets_conditional (contents_meet procedure body) (branches_meet procedure alternative) h).imp
      fun y hy => ⟨hy.outer, fun _ => hy⟩
  | .block ⟨stmts, start, stop⟩, frames, s, h => by
    rw [contents]
    exact (allContents_meet procedure stmts h).imp fun y hy => ⟨hy, by simp [Stmt.isBlock]⟩
  | .malformed pos, frames, s, h => stepMeets_fail _
  | .expr e pos, frames, s, h => stepMeets_fail _
  | .result value pos, frames, s, h => stepMeets_fail _
  | .loop cond body pos, frames, s, h => stepMeets_fail _

theorem allContents_meet (procedure : Procedure) : ∀ xs : List Stmt, AllContentsMeet procedure xs
  | [], frames, s, h => stepMeets_pure h.outer
  | x :: xs, frames, s, h => by
    have hx : StepMeets (delimit x (contents procedure x)) s (x.faults frames (contextOf procedure)) fun _ s' =>
        Tracks (frames.after x) s'.scope := by
      unfold delimit
      cases hblock : x.isBlock with
      | true =>
        have hbody : frames.body x = frames := by rw [Frames.body, if_pos hblock]
        have hafter : frames.after x = frames := by
          cases x with
          | block b => rfl
          | _ => simp [Stmt.isBlock] at hblock
        have hframe := (contents_meet procedure x).inFrame h
        rw [hbody] at hframe
        rw [hafter]
        apply hframe.bind_nil
        intro vs s₁ hs₁
        exact stepMeets_pure hs₁
      | false =>
        have hinside : insideFaults frames (contextOf procedure) x = x.faults frames (contextOf procedure) := by
          cases x with
          | block b => simp [Stmt.isBlock] at hblock
          | _ => rfl
        have hcontents := contents_meet procedure x h
        rw [hinside] at hcontents
        exact hcontents.imp fun y hy => hy.2 hblock
    apply hx.bind
    intro vs s₁ hs₁
    apply (allContents_meet procedure xs hs₁).bind_nil
    intro ws s₂ hs₂
    rw [TracksOuter, tail_after] at hs₂
    exact stepMeets_pure hs₂

theorem branches_meet (procedure : Procedure) : ∀ x : Option Stmt, BranchesMeet procedure x
  | none, frames, s, h => stepMeets_pure h
  | some x, frames, s, h => by
    have hx := contents_meet procedure x
    cases x with
    | conditional cond body alternative pos =>
      rw [branches, Stmt.alternativeFaults, Frames.alternative, Stmt.faults, contextOf_inside]
      exact meets_conditional (contents_meet procedure body) (branches_meet procedure alternative) h
    | _ =>
      apply (hx.inFrame h).bind_nil
      intro vs s₁ hs₁
      exact stepMeets_pure hs₁

end

/-! ## Statements at the level of a module -/

/-- Lowering a statement at the level of a module meets its faults. -/
def ItemsMeet (x : Stmt) : Prop :=
  ∀ ⦃frames : Frames⦄ ⦃s : State⦄, Tracks frames s.scope →
    StepMeets (items x) s (x.faults frames .continuous) fun _ s' => Tracks (frames.after x) s'.scope

def AllItemsMeet (xs : List Stmt) : Prop :=
  ∀ ⦃frames : Frames⦄ ⦃s : State⦄, Tracks frames s.scope →
    StepMeets (allItems xs) s (Stmt.allFaults frames .continuous xs) fun _ s' => TracksOuter frames s'.scope

mutual

theorem items_meet : ∀ x : Stmt, ItemsMeet x
  | .decl d pos, frames, s, h => by
    apply (meets_declare h .continuous d pos).bind_nil
    intro line s₁ hs₁
    exact stepMeets_pure hs₁
  | .assign kind lhs rhs pos, frames, s, h => by
    apply (meets_continuous h kind lhs rhs).bind_nil
    intro item s₁ hs₁
    subst hs₁
    exact stepMeets_pure h
  | .sequence clock inner pos, frames, s, h => by
    apply (meets_trigger h clock).bind
    intro t s₁ hs₁
    subst hs₁
    apply ((contents_meet .clocked inner).inFrame h).bind_nil
    intro body s₂ hs₂
    exact stepMeets_pure hs₂
  | .conditional cond body alternative pos, frames, s, h => by
    -- the condition is lowered as one inside of a procedure
    have hcontents := contents_meet .combinational (.conditional cond body alternative pos) h
    apply StepMeets.bind_nil hcontents
    intro vs s₁ hs₁
    exact stepMeets_pure (hs₁.2 rfl)
  | .block ⟨stmts, start, stop⟩, frames, s, h => by
    rw [items]
    exact meets_inFrame h fun t ht => allItems_meet stmts ht
  | .malformed pos, frames, s, h => stepMeets_fail _
  | .expr e pos, frames, s, h => stepMeets_fail _
  | .result value pos, frames, s, h => stepMeets_fail _
  | .loop cond body pos, frames, s, h => stepMeets_fail _

theorem allItems_meet : ∀ xs : List Stmt, AllItemsMeet xs
  | [], frames, s, h => stepMeets_pure h.outer
  | x :: xs, frames, s, h => by
    apply (items_meet x h).bind
    intro is s₁ hs₁
    apply (allItems_meet xs hs₁).bind_nil
    intro js s₂ hs₂
    rw [TracksOuter, tail_after] at hs₂
    exact stepMeets_pure hs₂

end

/-! ## Modules -/

theorem initial_tracks : Tracks [[]] State.initial.scope.enter := tracks_cons.mpr ⟨rfl, rfl⟩

theorem meets_module (m : Module) :
    StepMeets (Lowering.module m) State.initial m.faults fun _ _ => True := by
  apply StepMeets.after_note
  apply StepMeets.inFrame (p := fun _ _ => True) ?_ fun _ _ _ => trivial
  apply (meets_ports initial_tracks m.ports).bind
  intro ports s₁ hs₁
  apply (meets_inFrame hs₁ fun t ht => allItems_meet m.body.stmts ht).bind_nil
  intro items s₂ _
  exact StepMeets.after_yields (yields_get.mpr ⟨rfl, rfl⟩) (stepMeets_pure trivial)

theorem meets_lowerModule (m : Module) : Meets m.lower.result m.faults fun _ => True := by
  rw [Module.lower, Report.result_bind]
  exact (meets_module m).bind_ok fun _ _ => Meets.ok trivial

theorem meets_lowerModules (ms : List Module) :
    Meets (Module.lowerAll ms).result (ms.flatMap ModuleOf.faults) fun _ => True := by
  induction ms with
  | nil => exact Meets.ok trivial
  | cons m ms ih =>
    rw [result_lowerAll_cons, List.flatMap_cons]
    apply (meets_lowerModule m).bind
    intro v _
    exact ih.bind_ok fun _ _ => Meets.ok trivial

end Gateware.Checking

namespace Gateware
open Checking

/-- Emission succeeds exactly on modules without faults, and otherwise ends with the first
fault that a walk through the source finds. -/
theorem emit_ends_with_first_fault (ms : List Module) :
    ((∃ text, (emit ms).result = .ok text) ↔ ms.flatMap ModuleOf.faults = []) ∧
      ∀ e, (emit ms).result = .error e ↔ (ms.flatMap ModuleOf.faults).head? = some e := by
  have hemit : Meets (emit ms).result (ms.flatMap ModuleOf.faults) fun _ => True := by
    rw [emit, Report.result_bind]
    exact (meets_lowerModules ms).bind_ok fun _ _ => Meets.ok trivial
  exact hemit.result_iff

end Gateware

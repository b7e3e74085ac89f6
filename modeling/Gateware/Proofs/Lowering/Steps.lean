import Mathlib.Data.List.Forall2
import Gateware.Lowering.Module

/- When the steps of lowering succeed, and what they do to the state.

   This file

   1. says of a step that it succeeds from a state with a value and a state after it (`Yields`); the
      events that it reports play no part in that;
   2. takes sequences of steps apart (`yields_bind`), also in a frame of their own
      (`yields_inFrame`);
   3. gives one equivalence for each operation, which says all that it can do: for declarations
      (`yields_claim` to `yields_port`), for uses of names (`lower_ident` to `yields_procedural`)
      and for a whole module (`yields_module`).

   Everything after this works with these equivalences and never opens an operation again. -/
namespace Gateware.Lowering
variable {α β : Type} {s s' : State}

/-- A step succeeds from a state, with a value and a state after it. -/
def Yields (x : Lowering α) (s : State) (a : α) (s' : State) : Prop :=
  (x s).result = .ok (a, s')

theorem result_bind_apply (x : Lowering α) (f : α → Lowering β) (s : State) :
    ((x >>= f) s).result = ((x s).result >>= fun y => (f y.1 y.2).result) :=
  Report.result_bind (x s) fun y => f y.1 y.2

theorem yields_bind {x : Lowering α} {f : α → Lowering β} {b : β} :
    Yields (x >>= f) s b s' ↔ ∃ a s₁, Yields x s a s₁ ∧ Yields (f a) s₁ b s' := by
  unfold Yields
  rw [result_bind_apply]
  cases (x s).result with
  | error e => simp [bind, Except.bind]
  | ok y =>
    obtain ⟨a, s₁⟩ := y
    constructor
    · intro h
      exact ⟨a, s₁, rfl, h⟩
    · rintro ⟨a', s₁', h, h'⟩
      cases h
      exact h'

theorem yields_pure {a b : α} : Yields (pure a) s b s' ↔ b = a ∧ s' = s := by
  show Except.ok (a, s) = .ok (b, s') ↔ _
  simp only [Except.ok.injEq, Prod.mk.injEq]
  exact and_congr eq_comm eq_comm

@[simp] theorem not_yields_fail {e : LoweringError} {a : α} : ¬Yields (fail e) s a s' := by
  simp [Yields, fail]

theorem yields_get {t : State} : Yields get s t s' ↔ t = s ∧ s' = s := yields_pure

theorem yields_modify {f : State → State} {u : PUnit} : Yields (modify f) s u s' ↔ s' = f s := by
  show Except.ok (PUnit.unit, f s) = .ok (u, s') ↔ _
  simp only [Except.ok.injEq, Prod.mk.injEq, true_and]
  exact eq_comm

theorem yields_note {event : Event} {u : Unit} : Yields (note event) s u s' ↔ s' = s := by
  show Except.ok ((), s) = .ok (u, s') ↔ _
  simp only [Except.ok.injEq, Prod.mk.injEq, true_and]
  exact eq_comm

theorem yields_lift {x : Except LoweringError α} {a : α} :
    Yields (liftM x : Lowering α) s a s' ↔ x = .ok a ∧ s' = s := by
  cases x with
  | error e => simp [Yields, liftM, monadLift, MonadLift.monadLift, StateT.lift, bind, Report.bind]
  | ok a' =>
    show Except.ok (a', s) = .ok (a, s') ↔ _
    simp only [Except.ok.injEq, Prod.mk.injEq]
    exact and_congr Iff.rfl eq_comm

theorem yields_scope {t : Scope} : Yields scope s t s' ↔ t = s.scope ∧ s' = s := by
  simp only [scope, yields_bind, yields_get, yields_pure]
  constructor
  · rintro ⟨_, _, ⟨rfl, rfl⟩, rfl, rfl⟩; exact ⟨rfl, rfl⟩
  · rintro ⟨rfl, rfl⟩; exact ⟨_, _, ⟨rfl, rfl⟩, rfl, rfl⟩

/-- A step in a frame of its own begins with an empty frame, which is left after it. -/
theorem yields_inFrame {x : Lowering α} {a : α} :
    Yields (inFrame x) s a s' ↔ ∃ s₁, Yields x { s with scope := s.scope.enter } a s₁ ∧
      s' = { s₁ with scope := s₁.scope.exit } := by
  simp only [inFrame, yields_bind, yields_modify, yields_scope, yields_note, yields_pure]
  constructor
  · rintro ⟨_, _, rfl, _, _, ⟨rfl, rfl⟩, _, _, rfl, _, s₁, h, _, _, rfl, _, _, ⟨rfl, rfl⟩, _, _, rfl, rfl, rfl⟩
    exact ⟨s₁, h, rfl⟩
  · rintro ⟨s₁, h, rfl⟩
    exact ⟨⟨⟩, _, rfl, _, _, ⟨rfl, rfl⟩, (), _, rfl, a, s₁, h, ⟨⟩, _, rfl, _, _, ⟨rfl, rfl⟩, (), _, rfl, rfl, rfl⟩

/-- If the step keeps the enclosing frames, the scope after it is the one before. -/
theorem exit_eq_of_enclosing {t t' : Scope} (h : t'.enclosing = t.frames) : t'.exit = t := by
  simp only [Scope.exit, h, Scope.frames]

/-! ## Declarations -/

/-- The state after a signal is declared under a fresh name. -/
def State.declared (s : State) (signal : Signal) : State :=
  let fresh := freshName s.used signal.name.name
  { s with scope := { s.scope with innermost := ⟨signal, fresh⟩ :: s.scope.innermost },
           used := fresh :: s.used }

theorem declareAs_eq_ok_iff {t t' : Scope} {signal : Signal} {emitted : String} :
    t.declareAs signal emitted = .ok t' ↔ t.innermost.find? signal.name.name = none ∧
      t' = { t with innermost := ⟨signal, emitted⟩ :: t.innermost } := by
  unfold Scope.declareAs
  cases t.innermost.find? signal.name.name with
  | some first => simp
  | none =>
    simp only [Except.ok.injEq, true_and]
    exact eq_comm

theorem yields_claim {name fresh : String} :
    Yields (claim name) s fresh s' ↔ fresh = freshName s.used name ∧ s' = { s with used := fresh :: s.used } := by
  simp only [claim, yields_bind, yields_get, yields_modify, yields_pure]
  constructor
  · rintro ⟨_, _, ⟨rfl, rfl⟩, _, _, rfl, rfl, rfl⟩; exact ⟨rfl, rfl⟩
  · rintro ⟨rfl, rfl⟩; exact ⟨_, _, ⟨rfl, rfl⟩, ⟨⟩, _, rfl, rfl, rfl⟩

theorem yields_introduce {signal : Signal} {emitted : String} {u : Unit} :
    Yields (introduce signal emitted) s u s' ↔ s.scope.innermost.find? signal.name.name = none ∧
      s' = { s with scope := { s.scope with innermost := ⟨signal, emitted⟩ :: s.scope.innermost } } := by
  simp only [introduce, yields_bind, yields_scope, yields_lift, declareAs_eq_ok_iff, yields_modify, yields_note]
  constructor
  · rintro ⟨_, _, ⟨rfl, rfl⟩, _, _, ⟨⟨hfree, rfl⟩, rfl⟩, _, _, rfl, rfl⟩; exact ⟨hfree, rfl⟩
  · rintro ⟨hfree, rfl⟩; exact ⟨_, _, ⟨rfl, rfl⟩, _, _, ⟨⟨hfree, rfl⟩, rfl⟩, ⟨⟩, _, rfl, rfl⟩

theorem yields_declareSignal {signal : Signal} {d : Verilog.Declaration} :
    Yields (declareSignal signal) s d s' ↔ s.scope.innermost.find? signal.name.name = none ∧
      d = declarationOf signal (freshName s.used signal.name.name) ∧ s' = s.declared signal := by
  have hrest {emitted : String} {t : State} : Yields (do
      introduce signal emitted
      return declarationOf signal emitted) t d s' ↔ t.scope.innermost.find? signal.name.name = none ∧
        d = declarationOf signal emitted ∧
        s' = { t with scope := { t.scope with innermost := ⟨signal, emitted⟩ :: t.scope.innermost } } := by
    simp only [yields_bind, yields_introduce, yields_pure]
    constructor
    · rintro ⟨_, _, ⟨hfree, rfl⟩, rfl, rfl⟩; exact ⟨hfree, rfl, rfl⟩
    · rintro ⟨hfree, rfl, rfl⟩; exact ⟨⟨⟩, _, ⟨hfree, rfl⟩, rfl, rfl⟩
  simp only [declareSignal, yields_bind, yields_claim]
  constructor
  · rintro ⟨_, _, ⟨rfl, rfl⟩, h⟩
    split at h
    · obtain ⟨_, _, hnote, h⟩ := yields_bind.mp h
      obtain rfl := yields_note.mp hnote
      exact hrest.mp h
    · exact hrest.mp h
  · intro h
    refine ⟨_, _, ⟨rfl, rfl⟩, ?_⟩
    split
    · exact yields_bind.mpr ⟨(), _, yields_note.mpr rfl, hrest.mpr h⟩
    · exact hrest.mpr h

theorem yields_declare {d : Decl} {pos : Position} {line : Verilog.Declaration} :
    Yields (declare d pos) s line s' ↔ ∃ signal, d = .signal signal ∧ Yields (declareSignal signal) s line s' := by
  cases d with
  | signal signal => simp [declare]
  | value | port | submodule => simp [declare]

theorem yields_port {p : Port} {line : Verilog.Port} :
    Yields (port p) s line s' ↔ s.scope.innermost.find? p.signal.name.name = none ∧
      line = ⟨p.direction, declarationOf p.signal (freshName s.used p.signal.name.name)⟩ ∧
      s' = s.declared p.signal := by
  simp only [port, yields_bind, yields_claim, yields_introduce, yields_pure]
  constructor
  · rintro ⟨_, _, ⟨rfl, rfl⟩, _, _, ⟨hfree, rfl⟩, rfl, rfl⟩; exact ⟨hfree, rfl, rfl⟩
  · rintro ⟨hfree, rfl, rfl⟩; exact ⟨_, _, ⟨rfl, rfl⟩, ⟨⟩, _, ⟨hfree, rfl⟩, rfl, rfl⟩

/-! ## Uses -/

theorem require_eq_ok_iff {t : Scope} {id : Ident} {b : Binding} :
    t.require id = .ok b ↔ t.lookup id.name = some b := by
  unfold Scope.require
  cases t.lookup id.name <;> simp

section
variable {t : Scope} {v : Verilog.Expr}

theorem lower_ident {id : Ident} :
    (Expr.ident id).lower t = .ok v ↔ ∃ b, t.lookup id.name = some b ∧ v = .name b.emitted := by
  simp only [Expr.lower, Except.bind_eq_ok_iff, Except.pure_eq_ok_iff, require_eq_ok_iff]

theorem lower_literal {lit : Literal} : (Expr.literal lit).lower t = .ok v ↔ v = .literal lit.value := by
  simp only [Expr.lower, Except.pure_eq_ok_iff]

theorem lower_paren {inner : Expr} {start stop : Position} :
    (Expr.paren inner start stop).lower t = .ok v ↔ ∃ w, inner.lower t = .ok w ∧ v = .paren w := by
  simp only [Expr.lower, Except.bind_eq_ok_iff, Except.pure_eq_ok_iff]

theorem lower_call {func : Ident} {args : List Expr} {pos : Position} :
    (Expr.call func args pos).lower t = .ok v ↔
      ∃ ws, Expr.lowerAll t args = .ok ws ∧ v = .call func.name ws := by
  simp only [Expr.lower, Except.bind_eq_ok_iff, Except.pure_eq_ok_iff]

theorem lower_binary {op : Operator} {lhs rhs : Expr} {pos : Position} :
    (Expr.binary op lhs rhs pos).lower t = .ok v ↔ ∃ op', op.toVerilog? = some op' ∧
      ∃ l, lhs.lower t = .ok l ∧ ∃ r, rhs.lower t = .ok r ∧ v = .binary op' l r := by
  simp only [Expr.lower]
  cases op.toVerilog? with
  | none => simp
  | some op' => simp only [Except.bind_eq_ok_iff, Except.pure_eq_ok_iff, Option.some.injEq, exists_eq_left']

theorem lowerAll_cons {e : Expr} {es : List Expr} {vs : List Verilog.Expr} :
    Expr.lowerAll t (e :: es) = .ok vs ↔
      ∃ w, e.lower t = .ok w ∧ ∃ ws, Expr.lowerAll t es = .ok ws ∧ vs = w :: ws := by
  simp only [Expr.lowerAll, Except.bind_eq_ok_iff, Except.pure_eq_ok_iff]

end

theorem yields_expression {e : Expr} {v : Verilog.Expr} :
    Yields (expression e) s v s' ↔ e.lower s.scope = .ok v ∧ s' = s := by
  simp only [expression, yields_bind, yields_scope, yields_lift]
  constructor
  · rintro ⟨_, _, ⟨rfl, rfl⟩, h⟩; exact h
  · intro h; exact ⟨_, _, ⟨rfl, rfl⟩, h⟩

theorem yields_trigger {clock : Clock} {t : Verilog.Trigger} :
    Yields (trigger clock) s t s' ↔ ∃ b, s.scope.lookup clock.name.name = some b ∧
      t = ⟨if clock.negated then .falling else .rising, b.emitted⟩ ∧ s' = s := by
  simp only [trigger, yields_bind, yields_scope, yields_lift, require_eq_ok_iff, yields_pure]
  constructor
  · rintro ⟨_, _, ⟨rfl, rfl⟩, b, _, ⟨hb, rfl⟩, rfl, rfl⟩; exact ⟨b, hb, rfl, rfl⟩
  · rintro ⟨b, hb, rfl, rfl⟩; exact ⟨_, _, ⟨rfl, rfl⟩, b, _, ⟨hb, rfl⟩, rfl, rfl⟩

theorem yields_sides {lhs : Ident} {rhs : Expr} {needsRegister : Bool} {target : Binding}
    {value : Verilog.Expr} : Yields (sides lhs rhs needsRegister) s (target, value) s' ↔
      s.scope.lookup lhs.name = some target ∧ rhs.lower s.scope = .ok value ∧
        target.signal.isRegister = needsRegister ∧ s' = s := by
  simp only [sides, yields_bind, yields_scope, yields_lift, require_eq_ok_iff, yields_expression]
  constructor
  · rintro ⟨_, _, ⟨rfl, rfl⟩, b, _, ⟨hb, rfl⟩, v, _, ⟨hv, rfl⟩, h⟩
    split at h
    · obtain ⟨_, _, hfail, -⟩ := yields_bind.mp h
      exact absurd hfail not_yields_fail
    · rename_i hregister
      obtain ⟨hpair, rfl⟩ := yields_pure.mp h
      cases hpair
      exact ⟨hb, hv, by simpa using hregister, rfl⟩
  · rintro ⟨hb, hv, hregister, rfl⟩
    refine ⟨_, _, ⟨rfl, rfl⟩, target, _, ⟨hb, rfl⟩, value, _, ⟨hv, rfl⟩, ?_⟩
    rw [if_neg (by simpa using hregister)]
    exact yields_pure.mpr ⟨rfl, rfl⟩

theorem yields_continuous {kind : AssignKind} {lhs : Ident} {rhs : Expr} {item : Verilog.Item} :
    Yields (continuous kind lhs rhs) s item s' ↔ ∃ target value, s.scope.lookup lhs.name = some target ∧
      rhs.lower s.scope = .ok value ∧ s' = s ∧
      match kind with
      | .plain => target.signal.isRegister = false ∧ item = .assign target.emitted value
      | .registered => target.signal.isRegister = true ∧ ∃ clock t, target.signal.clock = some clock ∧
          Yields (trigger clock) s t s ∧ item = .register t target.emitted value := by
  cases kind with
  | plain =>
    simp only [continuous, yields_bind, Prod.exists, yields_sides, yields_pure]
    constructor
    · rintro ⟨target, value, _, ⟨hb, hv, hregister, rfl⟩, rfl, rfl⟩
      exact ⟨target, value, hb, hv, rfl, hregister, rfl⟩
    · rintro ⟨target, value, hb, hv, rfl, hregister, rfl⟩
      exact ⟨target, value, _, ⟨hb, hv, hregister, rfl⟩, rfl, rfl⟩
  | registered =>
    simp only [continuous, yields_bind, Prod.exists, yields_sides]
    constructor
    · rintro ⟨target, value, _, ⟨hb, hv, hregister, rfl⟩, h⟩
      cases hclock : target.signal.clock with
      | none => rw [hclock] at h; exact absurd h not_yields_fail
      | some clock =>
        rw [hclock] at h
        obtain ⟨t, _, ht, hpure⟩ := yields_bind.mp h
        obtain ⟨rfl, rfl⟩ := yields_pure.mp hpure
        obtain ⟨_, _, _, rfl⟩ := yields_trigger.mp ht
        exact ⟨target, value, hb, hv, rfl, hregister, clock, t, hclock, ht, rfl⟩
    · rintro ⟨target, value, hb, hv, rfl, hregister, clock, t, hclock, ht, rfl⟩
      refine ⟨target, value, _, ⟨hb, hv, hregister, rfl⟩, ?_⟩
      rw [hclock]
      exact yields_bind.mpr ⟨t, _, ht, yields_pure.mpr ⟨rfl, rfl⟩⟩

theorem yields_procedural {procedure : Procedure} {kind : AssignKind} {lhs : Ident} {rhs : Expr}
    {stmt : Verilog.Stmt} : Yields (procedural procedure kind lhs rhs) s stmt s' ↔
      ∃ target value, s.scope.lookup lhs.name = some target ∧ rhs.lower s.scope = .ok value ∧ s' = s ∧
        target.signal.isRegister = true ∧
        match kind with
        | .plain => stmt = .blocking target.emitted value
        | .registered => procedure = .clocked ∧ stmt = .nonblocking target.emitted value := by
  simp only [procedural, yields_bind, Prod.exists, yields_sides]
  constructor
  · rintro ⟨target, value, _, ⟨hb, hv, hregister, rfl⟩, h⟩
    refine ⟨target, value, hb, hv, ?_⟩
    cases kind with
    | plain =>
      obtain ⟨rfl, rfl⟩ := yields_pure.mp h
      exact ⟨rfl, hregister, rfl⟩
    | registered =>
      cases procedure with
      | clocked =>
        obtain ⟨rfl, rfl⟩ := yields_pure.mp h
        exact ⟨rfl, hregister, rfl, rfl⟩
      | combinational => exact absurd h not_yields_fail
  · rintro ⟨target, value, hb, hv, rfl, hregister, hkind⟩
    refine ⟨target, value, _, ⟨hb, hv, hregister, rfl⟩, ?_⟩
    cases kind with
    | plain => exact yields_pure.mpr ⟨hkind, rfl⟩
    | registered =>
      obtain ⟨rfl, rfl⟩ := hkind
      exact yields_pure.mpr ⟨rfl, rfl⟩

/-! ## Modules -/

/-- A module has a frame for its ports and, inside of it, one for its body. -/
theorem yields_module {m : Module} {v : Verilog.Module} : Yields (module m) s v s' ↔
    ∃ ps s₁ is s₂, Yields (ports m.ports) { s with scope := s.scope.enter } ps s₁ ∧
      Yields (allItems m.body.stmts) { s₁ with scope := s₁.scope.enter } is s₂ ∧
      v = ⟨m.name.name, ps, s₂.hoisted, is⟩ ∧ s' = { s₂ with scope := s₂.scope.exit.exit } := by
  simp only [module, yields_bind, yields_note, yields_inFrame, yields_get, yields_pure]
  constructor
  · rintro ⟨_, _, rfl, s₁, ⟨ps, s₂, hports, is, s₃, ⟨s₄, hitems, rfl⟩, _, _, ⟨rfl, rfl⟩, rfl, rfl⟩, rfl⟩
    exact ⟨ps, s₂, is, s₄, hports, hitems, rfl, rfl⟩
  · rintro ⟨ps, s₂, is, s₄, hports, hitems, rfl, rfl⟩
    exact ⟨(), s, rfl, _, ⟨ps, s₂, hports, is, _, ⟨s₄, hitems, rfl⟩, _, _, ⟨rfl, rfl⟩, rfl, rfl⟩, rfl⟩

theorem lower_eq_ok_iff {m : Module} {v : Verilog.Module} :
    m.lower.result = .ok v ↔ ∃ s', Yields (module m) State.initial v s' := by
  simp only [Module.lower, Report.result_bind_eq_ok_iff, Report.result_pure, Except.ok.injEq, Prod.exists]
  constructor
  · rintro ⟨v', s', h, rfl⟩
    exact ⟨s', h⟩
  · rintro ⟨s', h⟩
    exact ⟨v, s', h, rfl⟩

end Gateware.Lowering

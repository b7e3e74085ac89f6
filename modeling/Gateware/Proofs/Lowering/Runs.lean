import Gateware.Proofs.Lowering.Frames
import Gateware.Proofs.Naming.Occurrence

/- Successful runs of lowering as relations.

   Lowering is a program with a state; facts about what it emits are proved by induction on its
   successful runs. This file

   1. defines the runs, with one rule for each way in which a statement can be lowered: inside
      procedures (`Contents`, `AllContents`, `Alternative`) and at the level of a module (`Items`,
      `AllItems`). A rule names the bindings and the Verilog forms that were found, and leaves out
      the statements that have none. A frame that is left gives back the scope before it, which
      the rules say outright (`State.backTo`);
   2. proves that every success of the program is such a run (`contents_of_yields` to
      `allItems_of_yields`);
   3. proves what every run adds: as many names as it has declarations, and hoisted lines after
      those that are there (`State.Grows`). -/
namespace Gateware.Lowering

def State.entered (s : State) : State := { s with scope := s.scope.enter }

/-- The state after a step, with the scope from before it. -/
def State.backTo (s₁ s : State) : State := { s₁ with scope := s.scope }

/-- The line of a signal that is declared next. -/
def State.lineOf (s : State) (signal : Signal) : Verilog.Declaration :=
  declarationOf signal (freshName s.used signal.name.name)

/-- The state after a signal is declared inside a procedure. -/
def State.hoisting (s : State) (signal : Signal) : State :=
  { s.declared signal with hoisted := s.hoisted ++ [s.lineOf signal] }

/-- The edge that a clock stands for, under its emitted name. -/
def edgeOf (clock : Clock) (emitted : String) : Verilog.Trigger :=
  ⟨if clock.negated then .falling else .rising, emitted⟩

/-- An assignment of either kind inside a procedure. -/
def assignmentOf (kind : AssignKind) (target : String) (value : Verilog.Expr) : Verilog.Stmt :=
  match kind with
  | .plain => .blocking target value
  | .registered => .nonblocking target value

def isConditional : Stmt → Bool
  | .conditional .. => true
  | _ => false

/-! ## Inside procedures -/

mutual

/-- A statement inside a procedure is lowered from one state to another. The contents of
a block are lowered in the frame that is open. -/
inductive Contents (procedure : Procedure) : Stmt → State → List Verilog.Stmt → State → Prop
  | decl {signal : Signal} {pos : Position} {s : State} :
      Contents procedure (.decl (.signal signal) pos) s [] (s.hoisting signal)
  | assign {kind : AssignKind} {lhs : Ident} {rhs : Expr} {pos : Position} {s : State} {target : Binding}
      {value : Verilog.Expr} (htarget : s.scope.lookup lhs.name = some target) (hvalue : rhs.lower s.scope = .ok value)
      (hregister : target.signal.isRegister = true) (hkind : kind = .registered → procedure = .clocked) :
      Contents procedure (.assign kind lhs rhs pos) s [assignmentOf kind target.emitted value] s
  | conditional {cond : Expr} {body : Stmt} {alternative : Option Stmt} {pos : Position} {s s₁ s' : State}
      {c : Verilog.Expr} {vs : List Verilog.Stmt} {b : Branches} (hcond : cond.lower s.scope = .ok c)
      (hbody : Contents procedure body s.entered vs s₁)
      (hbranches : Alternative procedure alternative (s₁.backTo s) b s') :
      Contents procedure (.conditional cond body alternative pos) s [.conditional c vs b.1 b.2] s'
  | block {stmts : List Stmt} {start stop : Position} {s s' : State} {vs : List Verilog.Stmt}
      (h : AllContents procedure stmts s vs s') : Contents procedure (.block ⟨stmts, start, stop⟩) s vs s'

/-- The same of statements in a row. A block among them has a frame of its own. -/
inductive AllContents (procedure : Procedure) : List Stmt → State → List Verilog.Stmt → State → Prop
  | nil {s : State} : AllContents procedure [] s [] s
  | block {stmts : List Stmt} {start stop : Position} {xs : List Stmt} {s s₁ s' : State} {vs ws : List Verilog.Stmt}
      (h : AllContents procedure stmts s.entered vs s₁) (hs : AllContents procedure xs (s₁.backTo s) ws s') :
      AllContents procedure (.block ⟨stmts, start, stop⟩ :: xs) s (.block vs :: ws) s'
  | cons {x : Stmt} {xs : List Stmt} {s s₁ s' : State} {vs ws : List Verilog.Stmt} (hblock : x.isBlock = false)
      (h : Contents procedure x s vs s₁) (hs : AllContents procedure xs s₁ ws s') :
      AllContents procedure (x :: xs) s (vs ++ ws) s'

inductive Alternative (procedure : Procedure) : Option Stmt → State → Branches → State → Prop
  | none {s : State} : Alternative procedure none s ([], none) s
  | conditional {cond : Expr} {body : Stmt} {alternative : Option Stmt} {pos : Position} {s s₁ s' : State}
      {c : Verilog.Expr} {vs : List Verilog.Stmt} {b : Branches} (hcond : cond.lower s.scope = .ok c)
      (hbody : Contents procedure body s.entered vs s₁)
      (hbranches : Alternative procedure alternative (s₁.backTo s) b s') :
      Alternative procedure (some (.conditional cond body alternative pos)) s ((c, vs) :: b.1, b.2) s'
  | other {x : Stmt} {s s₁ : State} {vs : List Verilog.Stmt} (hx : isConditional x = false)
      (h : Contents procedure x s.entered vs s₁) : Alternative procedure (some x) s ([], some vs) (s₁.backTo s)

end

/-- A step in a frame of its own, if it keeps the frames around. -/
theorem exists_of_inFrame {α : Type} {x : Lowering α} {a : α} {s s' : State} (h : Yields (inFrame x) s a s')
    (hx : ∀ t t', Yields x t a t' → t'.scope.enclosing = t.scope.enclosing) :
    ∃ s₁, Yields x s.entered a s₁ ∧ s' = s₁.backTo s := by
  obtain ⟨s₁, hs₁, rfl⟩ := yields_inFrame.mp h
  refine ⟨s₁, hs₁, ?_⟩
  have hscope : s₁.scope.exit = s.scope := exit_eq_of_enclosing (hx _ _ hs₁)
  rw [State.backTo, ← hscope]

theorem exists_of_inFrame_contents {procedure : Procedure} {x : Stmt} {vs : List Verilog.Stmt} {s s' : State}
    (h : Yields (inFrame (contents procedure x)) s vs s') :
    ∃ s₁, Yields (contents procedure x) s.entered vs s₁ ∧ s' = s₁.backTo s :=
  exists_of_inFrame h fun _ _ ht => (scope_contents procedure x ht).1

theorem yields_declare_inv {d : Decl} {pos : Position} {line : Verilog.Declaration} {s s' : State}
    (h : Yields (declare d pos) s line s') :
    ∃ signal, d = .signal signal ∧ line = s.lineOf signal ∧ s' = s.declared signal := by
  obtain ⟨signal, rfl, hsignal⟩ := yields_declare.mp h
  obtain ⟨-, rfl, rfl⟩ := yields_declareSignal.mp hsignal
  exact ⟨signal, rfl, rfl, rfl⟩

mutual

theorem contents_of_yields (procedure : Procedure) : ∀ (x : Stmt) {s s' : State} {vs : List Verilog.Stmt},
    Yields (contents procedure x) s vs s' → Contents procedure x s vs s'
  | .decl d pos, s, s', vs, h => by
    simp only [contents, yields_bind, yields_modify, yields_pure] at h
    obtain ⟨line, s₁, hline, _, _, rfl, rfl, rfl⟩ := h
    obtain ⟨signal, rfl, rfl, rfl⟩ := yields_declare_inv hline
    exact .decl
  | .assign kind lhs rhs pos, s, s', vs, h => by
    simp only [contents, yields_bind, yields_pure] at h
    obtain ⟨v, s₁, hv, rfl, rfl⟩ := h
    obtain ⟨target, value, htarget, hvalue, rfl, hregister, hkind⟩ := yields_procedural.mp hv
    cases kind with
    | plain =>
      subst hkind
      exact .assign htarget hvalue hregister (fun hk => by cases hk)
    | registered =>
      obtain ⟨hclocked, rfl⟩ := hkind
      exact .assign htarget hvalue hregister (fun _ => hclocked)
  | .conditional cond body alternative pos, s, s', vs, h => by
    simp only [contents, yields_bind, yields_expression, yields_pure] at h
    obtain ⟨c, _, ⟨hcond, rfl⟩, ws, s₁, hbody, b, s₂, hbranches, rfl, rfl⟩ := h
    obtain ⟨s₂, hinner, rfl⟩ := exists_of_inFrame_contents hbody
    exact .conditional hcond (contents_of_yields procedure body hinner)
      (alternative_of_yields procedure alternative hbranches)
  | .block ⟨stmts, start, stop⟩, s, s', vs, h => by
    rw [contents] at h
    exact .block (allContents_of_yields procedure stmts h)
  | .sequence clock inner pos, _, _, _, h => by rw [contents] at h; exact absurd h not_yields_fail
  | .malformed pos, _, _, _, h => by rw [contents] at h; exact absurd h not_yields_fail
  | .expr e pos, _, _, _, h => by rw [contents] at h; exact absurd h not_yields_fail
  | .result value pos, _, _, _, h => by rw [contents] at h; exact absurd h not_yields_fail
  | .loop cond body pos, _, _, _, h => by rw [contents] at h; exact absurd h not_yields_fail

theorem allContents_of_yields (procedure : Procedure) : ∀ (xs : List Stmt) {s s' : State} {vs : List Verilog.Stmt},
    Yields (allContents procedure xs) s vs s' → AllContents procedure xs s vs s'
  | [], s, s', vs, h => by
    rw [allContents] at h
    obtain ⟨rfl, rfl⟩ := yields_pure.mp h
    exact .nil
  | x :: xs, s, s', vs, h => by
    simp only [allContents, yields_bind, yields_pure] at h
    obtain ⟨ws, s₁, hfirst, ws', s₂, hothers, rfl, rfl⟩ := h
    have hxs := allContents_of_yields procedure xs hothers
    have hx {t t' : State} {us : List Verilog.Stmt} (ht : Yields (contents procedure x) t us t') :=
      contents_of_yields procedure x ht
    unfold delimit at hfirst
    cases hblock : x.isBlock with
    | true =>
      simp only [hblock, if_true] at hfirst
      obtain ⟨us, s₃, hus, hpure⟩ := yields_bind.mp hfirst
      obtain ⟨rfl, rfl⟩ := yields_pure.mp hpure
      obtain ⟨s₂, hinner, rfl⟩ := exists_of_inFrame_contents hus
      cases hx hinner with
      | block hstmts => exact .block hstmts hxs
      | _ => cases hblock
    | false =>
      simp only [hblock, Bool.false_eq_true, if_false] at hfirst
      exact .cons hblock (hx hfirst) hxs

theorem alternative_of_yields (procedure : Procedure) : ∀ (x : Option Stmt) {s s' : State} {b : Branches},
    Yields (branches procedure x) s b s' → Alternative procedure x s b s'
  | none, s, s', b, h => by
    rw [branches] at h
    obtain ⟨rfl, rfl⟩ := yields_pure.mp h
    exact .none
  | some x, s, s', b, h => by
    have hx {t t' : State} {us : List Verilog.Stmt} (ht : Yields (contents procedure x) t us t') :=
      contents_of_yields procedure x ht
    cases x with
    | conditional cond body alternative pos =>
      simp only [branches, yields_bind, yields_expression, yields_pure] at h
      obtain ⟨c, _, ⟨hcond, rfl⟩, ws, s₁, hbody, b', s₂, hbranches, rfl, rfl⟩ := h
      obtain ⟨s₂, hinner, rfl⟩ := exists_of_inFrame_contents hbody
      exact .conditional hcond (contents_of_yields procedure body hinner)
        (alternative_of_yields procedure alternative hbranches)
    | _ =>
      simp only [branches, yields_bind, yields_pure] at h
      obtain ⟨ws, s₁, hws, rfl, rfl⟩ := h
      obtain ⟨s₂, hinner, rfl⟩ := exists_of_inFrame_contents hws
      exact .other rfl (hx hinner)

end

/-! ## At the level of a module -/

mutual

/-- A statement at the level of a module is lowered from one state to another. -/
inductive Items : Stmt → State → List Verilog.Item → State → Prop
  | decl {signal : Signal} {pos : Position} {s : State} :
      Items (.decl (.signal signal) pos) s [.declaration (s.lineOf signal)] (s.declared signal)
  | plain {lhs : Ident} {rhs : Expr} {pos : Position} {s : State} {target : Binding} {value : Verilog.Expr}
      (htarget : s.scope.lookup lhs.name = some target) (hvalue : rhs.lower s.scope = .ok value)
      (hregister : target.signal.isRegister = false) :
      Items (.assign .plain lhs rhs pos) s [.assign target.emitted value] s
  | registered {lhs : Ident} {rhs : Expr} {pos : Position} {s : State} {target b : Binding} {value : Verilog.Expr}
      {clock : Clock} (htarget : s.scope.lookup lhs.name = some target) (hvalue : rhs.lower s.scope = .ok value)
      (hregister : target.signal.isRegister = true) (hclock : target.signal.clock = some clock)
      (hb : s.scope.lookup clock.name.name = some b) :
      Items (.assign .registered lhs rhs pos) s [.register (edgeOf clock b.emitted) target.emitted value] s
  | sequence {clock : Clock} {inner : Stmt} {pos : Position} {s s₁ : State} {b : Binding} {vs : List Verilog.Stmt}
      (hb : s.scope.lookup clock.name.name = some b) (h : Contents .clocked inner s.entered vs s₁) :
      Items (.sequence clock inner pos) s [.always (.trigger (edgeOf clock b.emitted)) vs] (s₁.backTo s)
  | conditional {cond : Expr} {body : Stmt} {alternative : Option Stmt} {pos : Position} {s s' : State}
      {vs : List Verilog.Stmt} (h : Contents .combinational (.conditional cond body alternative pos) s vs s') :
      Items (.conditional cond body alternative pos) s [.always .inputs vs] s'
  | block {stmts : List Stmt} {start stop : Position} {s s₁ : State} {is : List Verilog.Item}
      (h : AllItems stmts s.entered is s₁) : Items (.block ⟨stmts, start, stop⟩) s is (s₁.backTo s)

inductive AllItems : List Stmt → State → List Verilog.Item → State → Prop
  | nil {s : State} : AllItems [] s [] s
  | cons {x : Stmt} {xs : List Stmt} {s s₁ s' : State} {is js : List Verilog.Item} (h : Items x s is s₁)
      (hs : AllItems xs s₁ js s') : AllItems (x :: xs) s (is ++ js) s'

end

mutual

theorem items_of_yields : ∀ (x : Stmt) {s s' : State} {is : List Verilog.Item}, Yields (items x) s is s' →
    Items x s is s'
  | .decl d pos, s, s', is, h => by
    simp only [items, yields_bind, yields_pure] at h
    obtain ⟨line, s₁, hline, rfl, rfl⟩ := h
    obtain ⟨signal, rfl, rfl, rfl⟩ := yields_declare_inv hline
    exact .decl
  | .assign kind lhs rhs pos, s, s', is, h => by
    simp only [items, yields_bind, yields_pure] at h
    obtain ⟨item, s₁, hitem, rfl, rfl⟩ := h
    obtain ⟨target, value, htarget, hvalue, rfl, hkind⟩ := yields_continuous.mp hitem
    cases kind with
    | plain =>
      obtain ⟨hregister, rfl⟩ := hkind
      exact .plain htarget hvalue hregister
    | registered =>
      obtain ⟨hregister, clock, t, hclock, ht, rfl⟩ := hkind
      obtain ⟨b, hb, rfl, -⟩ := yields_trigger.mp ht
      exact .registered htarget hvalue hregister hclock hb
  | .sequence clock inner pos, s, s', is, h => by
    simp only [items, yields_bind, yields_trigger, yields_pure] at h
    obtain ⟨t, _, ⟨b, hb, rfl, rfl⟩, body, s₁, hbody, rfl, rfl⟩ := h
    obtain ⟨s₂, hinner, rfl⟩ := exists_of_inFrame_contents hbody
    exact .sequence hb (contents_of_yields .clocked inner hinner)
  | .conditional cond body alternative pos, s, s', is, h => by
    rw [items] at h
    obtain ⟨vs, s₁, hvs, hpure⟩ := yields_bind.mp h
    obtain ⟨rfl, rfl⟩ := yields_pure.mp hpure
    exact .conditional (contents_of_yields .combinational _ hvs)
  | .block ⟨stmts, start, stop⟩, s, s', is, h => by
    rw [items] at h
    obtain ⟨s₁, hs₁, rfl⟩ := exists_of_inFrame h fun _ _ ht => enclosing_allItems stmts ht
    exact .block (allItems_of_yields stmts hs₁)
  | .malformed pos, _, _, _, h => by rw [items] at h; exact absurd h not_yields_fail
  | .expr e pos, _, _, _, h => by rw [items] at h; exact absurd h not_yields_fail
  | .result value pos, _, _, _, h => by rw [items] at h; exact absurd h not_yields_fail
  | .loop cond body pos, _, _, _, h => by rw [items] at h; exact absurd h not_yields_fail

theorem allItems_of_yields : ∀ (xs : List Stmt) {s s' : State} {is : List Verilog.Item},
    Yields (allItems xs) s is s' → AllItems xs s is s'
  | [], s, s', is, h => by
    rw [allItems] at h
    obtain ⟨rfl, rfl⟩ := yields_pure.mp h
    exact .nil
  | x :: xs, s, s', is, h => by
    simp only [allItems, yields_bind, yields_pure] at h
    obtain ⟨is₁, s₁, hfirst, is₂, s₂, hothers, rfl, rfl⟩ := h
    exact .cons (items_of_yields x hfirst) (allItems_of_yields xs hothers)

end

/-! ## What a run adds -/

/-- A run takes as many names as it has declarations, and hoists lines after those that are
there. -/
structure State.Grows (count : Nat) (s s' : State) : Prop where
  used : ∃ new, new.length = count ∧ s'.used = new ++ s.used
  hoisted : s.hoisted <+: s'.hoisted

theorem State.Grows.refl (s : State) : s.Grows 0 s := ⟨⟨[], rfl, rfl⟩, List.prefix_rfl⟩

theorem State.Grows.trans {m n : Nat} {s s₁ s' : State} (h : s.Grows m s₁) (h' : s₁.Grows n s') :
    s.Grows (m + n) s' := by
  obtain ⟨⟨new, hnew, hused⟩, hhoisted⟩ := h
  obtain ⟨⟨new', hnew', hused'⟩, hhoisted'⟩ := h'
  refine ⟨⟨new' ++ new, ?_, ?_⟩, hhoisted.trans hhoisted'⟩
  · rw [List.length_append, hnew, hnew', Nat.add_comm]
  · rw [hused', hused, List.append_assoc]

/-- A frame has no part in it. -/
theorem State.Grows.leave {n : Nat} {s s₁ : State} (h : s.entered.Grows n s₁) : s.Grows n (s₁.backTo s) :=
  ⟨h.used, h.hoisted⟩

mutual

theorem Contents.grows {procedure : Procedure} : ∀ {x : Stmt} {s s' : State} {vs : List Verilog.Stmt},
    Contents procedure x s vs s' → s.Grows x.declarations.length s'
  | _, _, _, _, .decl => ⟨⟨[_], rfl, rfl⟩, List.prefix_append _ _⟩
  | _, _, _, _, .assign .. => .refl _
  | _, _, _, _, .conditional _ hbody hbranches => by
    rw [Stmt.declarations, List.length_append]
    exact hbody.grows.leave.trans hbranches.grows
  | _, _, _, _, .block h => by
    rw [Stmt.declarations]
    exact h.grows

theorem AllContents.grows {procedure : Procedure} : ∀ {xs : List Stmt} {s s' : State} {vs : List Verilog.Stmt},
    AllContents procedure xs s vs s' → s.Grows (Stmt.allDeclarations xs).length s'
  | _, _, _, _, .nil => .refl _
  | _, _, _, _, .block h hs => by
    rw [Stmt.allDeclarations, Stmt.declarations, List.length_append]
    exact h.grows.leave.trans hs.grows
  | _, _, _, _, .cons _ h hs => by
    rw [Stmt.allDeclarations, List.length_append]
    exact h.grows.trans hs.grows

theorem Alternative.grows {procedure : Procedure} : ∀ {x : Option Stmt} {s s' : State} {b : Branches},
    Alternative procedure x s b s' → s.Grows (Stmt.alternativeDeclarations x).length s'
  | _, _, _, _, .none => .refl _
  | _, _, _, _, .conditional _ hbody hbranches => by
    rw [Stmt.alternativeDeclarations, Stmt.declarations, List.length_append]
    exact hbody.grows.leave.trans hbranches.grows
  | _, _, _, _, .other _ h => by
    rw [Stmt.alternativeDeclarations]
    exact h.grows.leave

end

mutual

theorem Items.grows : ∀ {x : Stmt} {s s' : State} {is : List Verilog.Item}, Items x s is s' →
    s.Grows x.declarations.length s'
  | _, _, _, _, .decl => ⟨⟨[_], rfl, rfl⟩, List.prefix_rfl⟩
  | _, _, _, _, .plain .. => .refl _
  | _, _, _, _, .registered .. => .refl _
  | _, _, _, _, .sequence _ h => by
    rw [Stmt.declarations]
    exact h.grows.leave
  | _, _, _, _, .conditional h => h.grows
  | _, _, _, _, .block h => by
    rw [Stmt.declarations]
    exact h.grows.leave

theorem AllItems.grows : ∀ {xs : List Stmt} {s s' : State} {is : List Verilog.Item}, AllItems xs s is s' →
    s.Grows (Stmt.allDeclarations xs).length s'
  | _, _, _, _, .nil => .refl _
  | _, _, _, _, .cons h hs => by
    rw [Stmt.allDeclarations, List.length_append]
    exact h.grows.trans hs.grows

end

/-- The alternative of a condition leaves the scope as it was. -/
theorem Alternative.scope_eq {procedure : Procedure} : ∀ {x : Option Stmt} {s s' : State} {b : Branches},
    Alternative procedure x s b s' → s'.scope = s.scope
  | _, _, _, _, .none => rfl
  | _, _, _, _, .conditional _ _ hbranches => hbranches.scope_eq
  | _, _, _, _, .other .. => rfl

end Gateware.Lowering

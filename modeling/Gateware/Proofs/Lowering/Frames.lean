import Gateware.Proofs.Lowering.Steps

/- Lowering leaves the frames of a scope as they were.

   Statements in a row may add to the innermost frame, and only there. This file

   1. says what the scope is after a single statement that is no block: the one before it, unless
      the statement declares a signal (`State.scopeAfter`);
   2. proves that a step in a frame of its own leaves the scope as it was if it keeps the frames
      around (`scope_inFrame`);
   3. proves both, by recursion on statements, inside procedures (`scope_contents`,
      `enclosing_allContents`, `scope_branches`) and at the level of a module (`scope_items`,
      `enclosing_allItems`);
   4. keeps a property of all signals in reach through frames and declarations (`State.InReach`). -/
namespace Gateware.Lowering

/-- The scope after a statement that is no block. -/
def State.scopeAfter (s : State) : Stmt → Scope
  | .decl (.signal signal) _ => (s.declared signal).scope
  | _ => s.scope

section
variable {α : Type} {s s' : State}

/-- A step in a frame of its own leaves the scope as it was if it keeps the frames around. -/
theorem scope_inFrame {x : Lowering α} {a : α} (h : Yields (inFrame x) s a s')
    (hx : ∀ t t', Yields x t a t' → t'.scope.enclosing = t.scope.enclosing) : s'.scope = s.scope := by
  obtain ⟨s₁, hs₁, rfl⟩ := yields_inFrame.mp h
  exact exit_eq_of_enclosing (hx _ _ hs₁)

theorem scope_declare {d : Decl} {pos : Position} {line : Verilog.Declaration}
    (h : Yields (declare d pos) s line s') : s'.scope = s.scopeAfter (.decl d pos) := by
  obtain ⟨signal, rfl, hsignal⟩ := yields_declare.mp h
  obtain ⟨-, -, rfl⟩ := yields_declareSignal.mp hsignal
  rfl

/-- A declaration adds to the innermost frame. -/
theorem enclosing_scopeAfter (s : State) (x : Stmt) : (s.scopeAfter x).enclosing = s.scope.enclosing := by
  cases x with
  | decl d pos => cases d <;> rfl
  | _ => rfl

end

/-! ## Signals in reach -/

/-- All signals in reach have a property. -/
def State.InReach (p : Binding → Prop) (s : State) : Prop := ∀ frame ∈ s.scope.frames, ∀ b ∈ frame, p b

section
variable {p : Binding → Prop} {s : State}

theorem State.InReach.lookup (h : s.InReach p) {name : String} {b : Binding} (hb : s.scope.lookup name = some b) :
    p b := by
  obtain ⟨frame, hframe, hfind⟩ := List.exists_of_findSome?_eq_some hb
  exact h frame hframe b (List.mem_of_find?_eq_some hfind)

theorem State.InReach.enter (h : s.InReach p) : State.InReach p { s with scope := s.scope.enter } := by
  intro frame hframe b hb
  rcases List.mem_cons.mp hframe with rfl | hframe
  · exact absurd hb List.not_mem_nil
  · exact h frame hframe b hb

theorem State.InReach.declared (h : s.InReach p) {signal : Signal}
    (hsignal : p ⟨signal, freshName s.used signal.name.name⟩) : (s.declared signal).InReach p := by
  intro frame hframe b hb
  rcases List.mem_cons.mp hframe with rfl | hframe
  · rcases List.mem_cons.mp hb with rfl | hb
    · exact hsignal
    · exact h _ List.mem_cons_self b hb
  · exact h frame (List.mem_cons_of_mem _ hframe) b hb

theorem initial_inReach (p : Binding → Prop) : State.initial.InReach p := by
  intro frame hframe b hb
  rw [List.mem_singleton.mp hframe] at hb
  exact absurd hb List.not_mem_nil

end

/-! ## Inside procedures -/

mutual

theorem scope_contents (procedure : Procedure) : ∀ (x : Stmt) {s s' : State} {vs : List Verilog.Stmt},
    Yields (contents procedure x) s vs s' →
      s'.scope.enclosing = s.scope.enclosing ∧ (x.isBlock = false → s'.scope = s.scopeAfter x)
  | .decl d pos, s, s', vs, h => by
    simp only [contents, yields_bind, yields_modify, yields_pure] at h
    obtain ⟨line, s₁, hline, _, _, rfl, rfl, rfl⟩ := h
    have hscope := scope_declare hline
    exact ⟨(congrArg Scope.enclosing hscope).trans (enclosing_scopeAfter s _), fun _ => hscope⟩
  | .assign kind lhs rhs pos, s, s', vs, h => by
    simp only [contents, yields_bind, yields_pure] at h
    obtain ⟨v, s₁, hv, rfl, rfl⟩ := h
    obtain ⟨_, _, _, _, rfl, -⟩ := yields_procedural.mp hv
    exact ⟨rfl, fun _ => rfl⟩
  | .conditional cond body alternative pos, s, s', vs, h => by
    simp only [contents, yields_bind, yields_expression, yields_pure] at h
    obtain ⟨c, _, ⟨_, rfl⟩, ws, s₁, hbody, b, s₂, hbranches, rfl, rfl⟩ := h
    have hscope := (scope_branches procedure alternative hbranches).trans
      (scope_inFrame hbody fun _ _ ht => (scope_contents procedure body ht).1)
    exact ⟨congrArg Scope.enclosing hscope, fun _ => hscope⟩
  | .block ⟨stmts, start, stop⟩, s, s', vs, h => by
    rw [contents] at h
    exact ⟨enclosing_allContents procedure stmts h, fun hblock => absurd hblock (by simp [Stmt.isBlock])⟩
  | .sequence clock inner pos, _, _, _, h => by rw [contents] at h; exact absurd h not_yields_fail
  | .malformed pos, _, _, _, h => by rw [contents] at h; exact absurd h not_yields_fail
  | .expr e pos, _, _, _, h => by rw [contents] at h; exact absurd h not_yields_fail
  | .result value pos, _, _, _, h => by rw [contents] at h; exact absurd h not_yields_fail
  | .loop cond body pos, _, _, _, h => by rw [contents] at h; exact absurd h not_yields_fail

theorem enclosing_allContents (procedure : Procedure) : ∀ (xs : List Stmt) {s s' : State}
    {vs : List Verilog.Stmt}, Yields (allContents procedure xs) s vs s' →
      s'.scope.enclosing = s.scope.enclosing
  | [], s, s', vs, h => by
    rw [allContents] at h
    obtain ⟨-, rfl⟩ := yields_pure.mp h
    rfl
  | x :: xs, s, s', vs, h => by
    simp only [allContents, yields_bind, yields_pure] at h
    obtain ⟨ws, s₁, hfirst, ws', s₂, hothers, rfl, rfl⟩ := h
    have hx : s₁.scope.enclosing = s.scope.enclosing := by
      unfold delimit at hfirst
      split at hfirst
      · obtain ⟨us, s₂, hus, hpure⟩ := yields_bind.mp hfirst
        obtain ⟨-, rfl⟩ := yields_pure.mp hpure
        exact congrArg Scope.enclosing
          (scope_inFrame hus fun _ _ ht => (scope_contents procedure x ht).1)
      · exact (scope_contents procedure x hfirst).1
    exact (enclosing_allContents procedure xs hothers).trans hx

theorem scope_branches (procedure : Procedure) : ∀ (x : Option Stmt) {s s' : State} {b : Branches},
    Yields (branches procedure x) s b s' → s'.scope = s.scope
  | none, s, s', b, h => by
    rw [branches] at h
    obtain ⟨-, rfl⟩ := yields_pure.mp h
    rfl
  | some x, s, s', b, h => by
    have hx {t t' : State} {vs : List Verilog.Stmt} (ht : Yields (contents procedure x) t vs t') :=
      (scope_contents procedure x ht).1
    cases x with
    | conditional cond body alternative pos =>
      simp only [branches, yields_bind, yields_expression, yields_pure] at h
      obtain ⟨c, _, ⟨_, rfl⟩, ws, s₁, hbody, b', s₂, hbranches, rfl, rfl⟩ := h
      exact (scope_branches procedure alternative hbranches).trans
        (scope_inFrame hbody fun _ _ ht => (scope_contents procedure body ht).1)
    | _ =>
      simp only [branches, yields_bind, yields_pure] at h
      obtain ⟨ws, s₁, hws, rfl, rfl⟩ := h
      exact scope_inFrame hws fun _ _ ht => hx ht

end

/-! ## At the level of a module -/

mutual

theorem scope_items : ∀ (x : Stmt) {s s' : State} {is : List Verilog.Item}, Yields (items x) s is s' →
    s'.scope = s.scopeAfter x
  | .decl d pos, s, s', is, h => by
    simp only [items, yields_bind, yields_pure] at h
    obtain ⟨line, s₁, hline, rfl, rfl⟩ := h
    exact scope_declare hline
  | .assign kind lhs rhs pos, s, s', is, h => by
    simp only [items, yields_bind, yields_pure] at h
    obtain ⟨item, s₁, hitem, rfl, rfl⟩ := h
    obtain ⟨_, _, _, _, rfl, -⟩ := yields_continuous.mp hitem
    rfl
  | .sequence clock inner pos, s, s', is, h => by
    simp only [items, yields_bind, yields_trigger, yields_pure] at h
    obtain ⟨t, _, ⟨_, _, _, rfl⟩, body, s₁, hbody, rfl, rfl⟩ := h
    exact scope_inFrame hbody fun _ _ ht => (scope_contents .clocked inner ht).1
  | .conditional cond body alternative pos, s, s', is, h => by
    rw [items] at h
    obtain ⟨vs, s₁, hvs, hpure⟩ := yields_bind.mp h
    obtain ⟨-, rfl⟩ := yields_pure.mp hpure
    exact (scope_contents .combinational _ hvs).2 rfl
  | .block ⟨stmts, start, stop⟩, s, s', is, h => by
    rw [items] at h
    exact scope_inFrame h fun _ _ ht => enclosing_allItems stmts ht
  | .malformed pos, _, _, _, h => by rw [items] at h; exact absurd h not_yields_fail
  | .expr e pos, _, _, _, h => by rw [items] at h; exact absurd h not_yields_fail
  | .result value pos, _, _, _, h => by rw [items] at h; exact absurd h not_yields_fail
  | .loop cond body pos, _, _, _, h => by rw [items] at h; exact absurd h not_yields_fail

theorem enclosing_allItems : ∀ (xs : List Stmt) {s s' : State} {is : List Verilog.Item},
    Yields (allItems xs) s is s' → s'.scope.enclosing = s.scope.enclosing
  | [], s, s', is, h => by
    rw [allItems] at h
    obtain ⟨-, rfl⟩ := yields_pure.mp h
    rfl
  | x :: xs, s, s', is, h => by
    simp only [allItems, yields_bind, yields_pure] at h
    obtain ⟨is₁, s₁, hfirst, is₂, s₂, hothers, rfl, rfl⟩ := h
    have hx := congrArg Scope.enclosing (scope_items x hfirst)
    exact (enclosing_allItems xs hothers).trans (hx.trans (enclosing_scopeAfter s x))

end

end Gateware.Lowering

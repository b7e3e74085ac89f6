import Mathlib.Data.List.Forall2
import Gateware.Proofs.Lowering.Names
import Gateware.Proofs.Lowering.Steps
import Gateware.Proofs.Naming.Occurrence

/- Lowering keeps the names of a scope in step with the declarations of the source.

   `lines` are the lines of the declarations so far, in the order of the source, so the declaration
   with number `d` has the line `lines[d]`. This file

   1. says that a written name stands for an occurrence in the source (`Renders`): it is the name on
      the line of the declaration that the occurrence denotes;
   2. states the invariant of lowering (`Aligned`): looking a name up in the scope gives the name on
      the line of the declaration that the frames of the source give, and the names taken are those
      on the lines, all different;
   3. proves that the invariant is kept by more lines (`Agrees.append`), by frames that are entered
      and left (`Aligned.enter`, `Aligned.leave`) and by declarations (`Aligned.declared`);
   4. proves that an expression which is lowered in an aligned state has the names that it should
      (`Agrees.renders_lower`).

   Frames are compared by what is found in them and not one by one, since a frame without names
   makes no difference. -/
namespace Gateware.Naming
open Lowering
open Verilog (Declaration)

/-- The name on the line of the declaration with the given number. -/
def nameAt (lines : List Declaration) (d : Nat) : Option String := lines[d]?.map (·.name)

/-- A name stands for an occurrence: it is the one on the line of the declaration that
the occurrence denotes. -/
def Renders (lines : List Declaration) (o : Occurrence) (name : String) : Prop :=
  ∃ d, o.declaration = some d ∧ nameAt lines d = some name

/-- A line declares a signal, with its kind and its width, under some name. -/
def Declares (signal : Signal) (line : Declaration) : Prop :=
  line.isRegister = signal.isRegister ∧ line.width = signal.width

/-- A scope and frames find the same declarations. -/
def Agrees (lines : List Declaration) (env : Env) (scope : Scope) : Prop :=
  ∀ name, Option.Rel (fun b d => nameAt lines d = some b.emitted) (scope.lookup name) (env.lookup name)

/-- The names of a state are in step with the declarations so far. -/
structure Aligned (lines : List Declaration) (env : Env) (s : State) : Prop where
  used_eq : s.used = (lines.map (·.name)).reverse
  nodup : (lines.map (·.name)).Nodup
  agrees : Agrees lines env s.scope

/-- A step adds the lines `new` and stays in its frame. -/
structure Traversed (lines new : List Declaration) (s s' : State) : Prop where
  used_eq : s'.used = ((lines ++ new).map (·.name)).reverse
  nodup : ((lines ++ new).map (·.name)).Nodup
  enclosing_eq : s'.scope.enclosing = s.scope.enclosing

variable {lines new new' : List Declaration} {env env' : Env} {s s₁ s' : State}

/-! ## More lines -/

theorem nameAt_append {d : Nat} {name : String} (h : nameAt lines d = some name) :
    nameAt (lines ++ new) d = some name := by
  obtain ⟨line, hline, rfl⟩ := Option.map_eq_some_iff.mp h
  have hlt : d < lines.length := (List.getElem?_eq_some_iff.mp hline).1
  rw [nameAt, List.getElem?_append_left hlt, hline]
  rfl

theorem Renders.append {o : Occurrence} {name : String} (h : Renders lines o name) :
    Renders (lines ++ new) o name := by
  obtain ⟨d, hd, hname⟩ := h
  exact ⟨d, hd, nameAt_append hname⟩

/-- Names written before and after some lines were added. -/
theorem rendered_append {os os' : List Occurrence} {names names' : List String}
    (h : List.Forall₂ (Renders (lines ++ new)) os names)
    (h' : List.Forall₂ (Renders (lines ++ new ++ new')) os' names') :
    List.Forall₂ (Renders (lines ++ (new ++ new'))) (os ++ os') (names ++ names') := by
  rw [← List.append_assoc]
  exact List.rel_append (h.imp fun _ _ ho => ho.append) h'

theorem Agrees.append {scope : Scope} (h : Agrees lines env scope) : Agrees (lines ++ new) env scope := by
  intro name
  have hrel := h name
  generalize scope.lookup name = b at hrel ⊢
  generalize env.lookup name = d at hrel ⊢
  cases hrel with
  | some hb => exact .some (nameAt_append hb)
  | none => exact .none

/-! ## Frames -/

/-- A frame without names makes no difference. -/
theorem Aligned.frame (h : Aligned lines env s) : Aligned lines ([] :: env) s :=
  ⟨h.used_eq, h.nodup, h.agrees⟩

theorem Aligned.enter (h : Aligned lines env s) :
    Aligned lines ([] :: env) { s with scope := s.scope.enter } :=
  ⟨h.used_eq, h.nodup, h.agrees⟩

/-- After a frame is left, the scope is the one before it. -/
theorem Aligned.leave (h : Aligned lines env s)
    (ht : Traversed lines new { s with scope := s.scope.enter } s₁) :
    Aligned (lines ++ new) env { s₁ with scope := s₁.scope.exit } ∧ s₁.scope.exit = s.scope := by
  have hscope : s₁.scope.exit = s.scope := exit_eq_of_enclosing ht.enclosing_eq
  refine ⟨⟨ht.used_eq, ht.nodup, ?_⟩, hscope⟩
  rw [hscope]
  exact h.agrees.append

theorem Aligned.traversed (h : Aligned (lines ++ new) env s')
    (henclosing : s'.scope.enclosing = s.scope.enclosing) : Traversed lines new s s' :=
  ⟨h.used_eq, h.nodup, henclosing⟩

theorem Aligned.refl (h : Aligned lines env s) : Traversed lines [] s s := by
  refine ⟨?_, ?_, rfl⟩
  · rw [List.append_nil]; exact h.used_eq
  · rw [List.append_nil]; exact h.nodup

theorem Traversed.trans (h : Traversed lines new s s₁) (h' : Traversed (lines ++ new) new' s₁ s') :
    Traversed lines (new ++ new') s s' := by
  refine ⟨?_, ?_, h'.enclosing_eq.trans h.enclosing_eq⟩
  · rw [← List.append_assoc]; exact h'.used_eq
  · rw [← List.append_assoc]; exact h'.nodup

/-! ## Declarations -/

theorem lookup_declare (env : Env) (name name' : String) (d : Nat) :
    (env.declare name d).lookup name' = if name' = name then some d else env.lookup name' := by
  by_cases hname : name' = name
  · simp [Env.declare, Env.lookup, hname]
  · have hne : (name' == name) = false := by simpa using hname
    cases env <;> simp [Env.declare, Env.lookup, List.findSome?_cons, List.lookup_cons, List.lookup_nil, hname, hne]

theorem lookup_declared (s : State) (signal : Signal) (name : String) :
    (s.declared signal).scope.lookup name = if name = signal.name.name
      then some ⟨signal, freshName s.used signal.name.name⟩ else s.scope.lookup name := by
  by_cases hname : name = signal.name.name
  · simp [State.declared, Scope.lookup, Scope.frames, Frame.find?, hname]
  · have hne : (signal.name.name == name) = false := by simpa using Ne.symm hname
    simp [State.declared, Scope.lookup, Scope.frames, Frame.find?, List.findSome?_cons, hname, hne]

/-- A declaration adds its line, and is found under its number from then on. -/
theorem Aligned.declared (h : Aligned lines env s) (signal : Signal) :
    Aligned (lines ++ [declarationOf signal (freshName s.used signal.name.name)])
      (env.declare signal.name.name lines.length) (s.declared signal) := by
  let line := declarationOf signal (freshName s.used signal.name.name)
  -- the names taken are those on the lines, so a fresh one is on none of them
  have hfresh : line.name ∉ lines.map (·.name) := by
    have hnot := freshName_notMem s.used signal.name.name
    rw [h.used_eq, List.mem_reverse, ← h.used_eq] at hnot
    exact hnot
  refine ⟨?_, ?_, ?_⟩
  · rw [List.map_append, List.reverse_append, ← h.used_eq]
    rfl
  · rw [List.map_append]
    refine List.nodup_append.mpr ⟨h.nodup, by simp, ?_⟩
    intro a ha b hb
    rw [List.map_singleton, List.mem_singleton] at hb
    intro hab
    rw [hab, hb] at ha
    exact hfresh ha
  · intro name
    rw [lookup_declared, lookup_declare]
    split
    · apply Option.Rel.some
      rw [nameAt, List.getElem?_append_right (Nat.le_refl _), Nat.sub_self]
      rfl
    · exact h.agrees.append name

/-! ## Expressions -/

theorem Agrees.renders {scope : Scope} (h : Agrees lines env scope) {id : Ident} {b : Binding}
    (hb : scope.lookup id.name = some b) : Renders lines (env.occurrence id) b.emitted := by
  have hrel := h id.name
  rw [hb] at hrel
  cases hd : env.lookup id.name with
  | none => rw [hd] at hrel; cases hrel
  | some d =>
    rw [hd] at hrel
    cases hrel with
    | some hname => exact ⟨d, hd, hname⟩

mutual

theorem Agrees.renders_lower {scope : Scope} (h : Agrees lines env scope) : ∀ (e : Expr) {v : Verilog.Expr},
    e.lower scope = .ok v → List.Forall₂ (Renders lines) (e.operands.map env.occurrence) v.names
  | .malformed pos, v, hv => by simp [Expr.lower] at hv
  | .ident id, v, hv => by
    obtain ⟨b, hb, rfl⟩ := lower_ident.mp hv
    exact .cons (h.renders hb) .nil
  | .literal lit, v, hv => by
    obtain rfl := lower_literal.mp hv
    exact .nil
  | .paren inner start stop, v, hv => by
    obtain ⟨w, hw, rfl⟩ := lower_paren.mp hv
    rw [Expr.operands, Verilog.Expr.names]
    exact h.renders_lower inner hw
  | .call func args pos, v, hv => by
    obtain ⟨ws, hws, rfl⟩ := lower_call.mp hv
    rw [Expr.operands, Verilog.Expr.names]
    exact h.renders_lowerAll args hws
  | .binary op lhs rhs pos, v, hv => by
    obtain ⟨op', -, l, hl, r, hr, rfl⟩ := lower_binary.mp hv
    simp only [Expr.operands, List.map_append, Verilog.Expr.names]
    exact List.rel_append (h.renders_lower lhs hl) (h.renders_lower rhs hr)

theorem Agrees.renders_lowerAll {scope : Scope} (h : Agrees lines env scope) :
    ∀ (es : List Expr) {vs : List Verilog.Expr}, Expr.lowerAll scope es = .ok vs →
      List.Forall₂ (Renders lines) ((Expr.allOperands es).map env.occurrence) (Verilog.Expr.allNames vs)
  | [], vs, hvs => by
    obtain rfl := Except.pure_eq_ok_iff.mp hvs
    exact .nil
  | e :: es, vs, hvs => by
    obtain ⟨w, hw, ws, hws, rfl⟩ := lowerAll_cons.mp hvs
    simp only [Expr.allOperands, List.map_append, Verilog.Expr.allNames]
    exact List.rel_append (h.renders_lower e hw) (h.renders_lowerAll es hws)

end

end Gateware.Naming

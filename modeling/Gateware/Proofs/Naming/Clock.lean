import Gateware.Proofs.Lowering.Frames
import Gateware.Proofs.Naming.Binding

/- The clocks of registered assignments at the level of a module. Such an assignment
   becomes a procedure of its own, on an edge of the clock that the declaration of its
   target has. The declaration holds the clock by name; lowering looks the name up where
   the assignment stands. So the procedure runs on the clock of the target's own
   surroundings exactly if no frame inside of these declares the name again. This file

   1. lists the registered assignments of a module, each with the frames that are open at
      it (`ModuleOf.registrations`), and the procedures of a text that have a single
      assignment (`registeredIn`);
   2. splits the open frames at the one that declares a name (`Env.inside`, `Env.around`);
      declarations have different numbers, so a clock is found around the target exactly if
      it is not found inside (`lookup_around_iff`);
   3. follows lowering with the signals in reach (`Located`) and gives each assignment its
      procedure, in order (`items_sample`);
   4. concludes for everything that is emitted, in the trees and in the text
      (`emit_clock_kept_iff`).

   That a block can change the clock of a port by declaring its name again is a witness
   (`emit_recaptured`), not an assumption. -/
namespace Gateware

/-! ## Registered assignments -/

/-- A registered assignment at the level of a module: its target and the open frames. -/
structure Registration where
  target : Ident
  env : Env

namespace Stmt

mutual

/-- The registered assignments of a statement at the level of a module, in order. `number`
counts the declarations before the statement. -/
def registrations (env : Env) (number : Nat) : Stmt → List Registration
  | .assign .registered lhs _ _ => [⟨lhs, env⟩]
  | .block ⟨stmts, _, _⟩ => allRegistrations ([] :: env) number stmts
  | _ => []

/-- The registered assignments of statements in a row. -/
def allRegistrations (env : Env) (number : Nat) : List Stmt → List Registration
  | [] => []
  | s :: ss => s.registrations env number ++
      allRegistrations (env.after number s) (number + s.declarations.length) ss

end

end Stmt

/-- The registered assignments of a module, those inside of procedures left out. -/
def ModuleOf.registrations (m : Module) : List Registration :=
  Stmt.allRegistrations ([] :: Env.afterPorts [[]] 0 m.ports) m.ports.length m.body.stmts

namespace Verilog

/-- The trigger and the target of a procedure that is made for a single assignment. -/
def Item.registered : Item → List (Trigger × String)
  | .register trigger target _ => [(trigger, target)]
  | _ => []

/-- The trigger and the target of each procedure in a text that has a single assignment: it
has no `begin`, and the assignment is on the next line. -/
def registeredIn : List Form → List (Trigger × String)
  | .always (.trigger t) false :: .nonblocking target _ :: fs => (t, target) :: registeredIn fs
  | _ :: fs => registeredIn fs
  | [] => []

def Form.isAlways : Form → Bool
  | .always .. => true
  | _ => false

theorem registeredIn_cons {f : Form} (h : f.isAlways = false) (fs : List Form) :
    registeredIn (f :: fs) = registeredIn fs := by
  cases f with
  | always => cases h
  | _ => rfl

theorem registeredIn_append {fs : List Form} (h : ∀ f ∈ fs, f.isAlways = false) (gs : List Form) :
    registeredIn (fs ++ gs) = registeredIn gs := by
  induction fs with
  | nil => rfl
  | cons f fs ih =>
    obtain ⟨hf, hfs⟩ := List.forall_mem_cons.mp h
    rw [List.cons_append, registeredIn_cons hf, ih hfs]

theorem registeredIn_item (item : Item) (fs : List Form) :
    registeredIn (item.forms ++ fs) = item.registered ++ registeredIn fs := by
  cases item with
  | always sensitivity body =>
    have hbody : ∀ f ∈ Stmt.allForms body, f.isAlways = false := by
      intro f hf
      have hprocedural := Stmt.isProcedural_allForms body f hf
      cases f with
      | always => cases hprocedural
      | _ => rfl
    have hopen : registeredIn (.always sensitivity true :: (Stmt.allForms body ++ [.endBlock] ++ fs)) =
        registeredIn (Stmt.allForms body ++ [.endBlock] ++ fs) := by
      cases sensitivity <;> rfl
    rw [Item.forms, List.cons_append, hopen, List.append_assoc, registeredIn_append hbody]
    rfl
  | _ => rfl

/-- The procedures of a single assignment are found in the text of a module. -/
theorem Module.registeredIn_forms (v : Module) : registeredIn v.forms = v.items.flatMap Item.registered := by
  have hhead : ∀ f ∈ v.headForms, f.isAlways = false := by
    intro f hf
    simp only [Module.headForms, List.mem_cons, List.mem_append, List.mem_map] at hf
    rcases hf with rfl | hf | rfl | ⟨d, -, rfl⟩
    · rfl
    · obtain ⟨p, -, more, rfl⟩ := Port.exists_of_mem_forms hf
      rfl
    · rfl
    · rfl
  rw [v.forms_eq, registeredIn_append hhead]
  generalize v.items = is
  induction is with
  | nil => rfl
  | cons item is ih => rw [List.flatMap_cons, List.append_assoc, registeredIn_item, ih, List.flatMap_cons]

end Verilog

namespace Env

/-- The frames inside of the one that declares a name. -/
def inside (env : Env) (name : String) : Env := env.takeWhile fun frame => (List.lookup name frame).isNone

/-- The frame that declares a name and those around it. -/
def around (env : Env) (name : String) : Env := env.dropWhile fun frame => (List.lookup name frame).isNone

/-- No two names have one number, and all numbers are below a bound. -/
structure Numbered (env : Env) (bound : Nat) : Prop where
  nodup : (env.flatten.map (·.2)).Nodup
  lt : ∀ d ∈ env.flatten.map (·.2), d < bound

section
variable {env : Env} {bound : Nat}

theorem flatten_declare (env : Env) (name : String) (d : Nat) :
    (env.declare name d).flatten = (name, d) :: env.flatten := by
  cases env <;> rfl

theorem Numbered.declare (h : env.Numbered bound) (name : String) : (env.declare name bound).Numbered (bound + 1) := by
  constructor
  · rw [flatten_declare, List.map_cons, List.nodup_cons]
    refine ⟨?_, h.nodup⟩
    intro hmem
    exact Nat.lt_irrefl bound (h.lt bound hmem)
  · intro d hd
    rw [flatten_declare, List.map_cons, List.mem_cons] at hd
    rcases hd with rfl | hd
    · exact Nat.lt_succ_self _
    · exact Nat.lt_succ_of_lt (h.lt d hd)

theorem Numbered.mono {bound' : Nat} (h : env.Numbered bound) (hle : bound ≤ bound') : env.Numbered bound' :=
  ⟨h.nodup, fun d hd => Nat.lt_of_lt_of_le (h.lt d hd) hle⟩

theorem lookup_append (env env' : Env) (name : String) :
    Env.lookup (env ++ env') name = (env.lookup name).or (env'.lookup name) := by
  rw [Env.lookup, List.findSome?_append]
  rfl

theorem mem_of_lookup_eq_some {name : String} {d : Nat} (h : env.lookup name = some d) :
    d ∈ env.flatten.map (·.2) := by
  obtain ⟨frame, hframe, hlookup⟩ := List.exists_of_findSome?_eq_some h
  obtain ⟨before, after, rfl, -⟩ := List.lookup_eq_some_iff.mp hlookup
  have hmem : (name, d) ∈ before ++ (name, d) :: after := by simp
  exact List.mem_map.mpr ⟨(name, d), List.mem_flatten.mpr ⟨_, hframe, hmem⟩, rfl⟩

/-- Looking a name up gives what another name has around its declaration exactly if
it is not declared inside of there. -/
theorem lookup_around_iff (h : env.Numbered bound) (x : String) {c : String} {d : Nat} (hd : env.lookup c = some d) :
    (env.around x).lookup c = some d ↔ (env.inside x).lookup c = none := by
  have hsplit : env = env.inside x ++ env.around x := List.takeWhile_append_dropWhile.symm
  have hlookup : ((env.inside x).lookup c).or ((env.around x).lookup c) = some d := by
    rw [← lookup_append, ← hsplit]
    exact hd
  constructor
  · intro haround
    cases hinside : (env.inside x).lookup c with
    | none => rfl
    | some d' =>
      rw [hinside] at hlookup
      obtain rfl : d' = d := Option.some.inj hlookup
      -- one number would stand in two frames
      have hnodup := h.nodup
      rw [hsplit, List.flatten_append, List.map_append, List.nodup_append] at hnodup
      exact absurd rfl (hnodup.2.2 d' (mem_of_lookup_eq_some hinside) d' (mem_of_lookup_eq_some haround))
  · intro hinside
    rw [hinside] at hlookup
    exact hlookup

end

end Env

namespace Naming
open Lowering
open Verilog (Declaration Item Trigger)

/-! ## Signals -/

/-- A scope and frames find the same signals, which are numbered in the order of their
declarations. -/
def Resolves (signals : List Signal) (env : Env) (scope : Scope) : Prop :=
  ∀ name, Option.Rel (fun b d => signals[d]? = some b.signal) (scope.lookup name) (env.lookup name)

variable {signals : List Signal} {lines : List Declaration} {env : Env} {s s' : State}

theorem Resolves.append {scope : Scope} (h : Resolves signals env scope) (new : List Signal) :
    Resolves (signals ++ new) env scope := by
  intro name
  have hrel := h name
  generalize scope.lookup name = b at hrel ⊢
  generalize env.lookup name = d at hrel ⊢
  cases hrel with
  | some hb => exact .some (List.getElem?_append_left (List.getElem?_eq_some_iff.mp hb).1 ▸ hb)
  | none => exact .none

theorem Resolves.declared (h : Resolves signals env s.scope) (signal : Signal) :
    Resolves (signals ++ [signal]) (env.declare signal.name.name signals.length) (s.declared signal).scope := by
  intro name
  rw [lookup_declared, lookup_declare]
  split
  · exact .some (by simp)
  · exact h.append [signal] name

theorem Resolves.find {scope : Scope} (h : Resolves signals env scope) {name : String} {b : Binding}
    (hb : scope.lookup name = some b) : ∃ d, env.lookup name = some d ∧ signals[d]? = some b.signal := by
  have hrel := h name
  rw [hb] at hrel
  cases hd : env.lookup name with
  | none => rw [hd] at hrel; cases hrel
  | some d =>
    rw [hd] at hrel
    cases hrel with
    | some hsignal => exact ⟨d, rfl, hsignal⟩

/-! ## What a registered assignment becomes -/

/-- The name of the declaration with the given number. -/
def IsNamed (names : List String) (d : Nat) (name : String) : Prop := names[d]? = some name

/-- A procedure samples a signal for an assignment. `signals` are the declarations of the
module and `names` their Verilog names, in the order of the source. The target is the
signal that is in reach under its name, and the edge that of its clock; the clock itself
is looked up from the place of the assignment, and is the one around the declaration of
the target exactly if no frame inside of there declares it. -/
structure Samples (signals : List Signal) (names : List String) (r : Registration) (p : Trigger × String)
    (clock : Clock) : Prop where
  target : ∃ d signal, r.env.lookup r.target.name = some d ∧ signals[d]? = some signal ∧
    signal.clock = some clock ∧ IsNamed names d p.2
  edge_eq : p.1.edge = if clock.negated then .falling else .rising
  clock_in_reach : ∃ k, r.env.lookup clock.name.name = some k ∧ IsNamed names k p.1.clock
  clock_kept_iff : (∃ k, (r.env.around r.target.name).lookup clock.name.name = some k ∧
    IsNamed names k p.1.clock) ↔ (r.env.inside r.target.name).lookup clock.name.name = none

/-- A state is in step with the declarations so far: their signals, their lines and their
numbers in the open frames. -/
structure Located (signals : List Signal) (lines : List Declaration) (env : Env) (s : State) : Prop where
  aligned : Aligned lines env s
  resolves : Resolves signals env s.scope
  length_eq : signals.length = lines.length
  numbered : env.Numbered lines.length

theorem Located.enter (h : Located signals lines env s) :
    Located signals lines ([] :: env) { s with scope := s.scope.enter } :=
  ⟨h.aligned.enter, h.resolves, h.length_eq, ⟨h.numbered.nodup, h.numbered.lt⟩⟩

theorem Located.declared (h : Located signals lines env s) (signal : Signal) :
    Located (signals ++ [signal]) (lines ++ [declarationOf signal (freshName s.used signal.name.name)])
      (env.declare signal.name.name lines.length) (s.declared signal) := by
  refine ⟨h.aligned.declared signal, ?_, ?_, ?_⟩
  · rw [← h.length_eq]
    exact h.resolves.declared signal
  · rw [List.length_append, List.length_append, h.length_eq]
    rfl
  · rw [List.length_append]
    exact h.numbered.declare signal.name.name

/-- A statement at the level of a module adds its declarations. -/
theorem Located.after (h : Located signals lines env s) {x : Stmt} {is : List Item}
    (hv : Yields (items x) s is s') : ∃ new, new.length = x.declarations.length ∧
      Located (signals ++ x.declarations) (lines ++ new) (env.after lines.length x) s' := by
  obtain ⟨new, hdeclares, -, haligned⟩ := items_aligned x h.aligned hv
  have hlength := hdeclares.length_eq
  have hsignals : (signals ++ x.declarations).length = (lines ++ new).length := by
    rw [List.length_append, List.length_append, h.length_eq, hlength]
  have hscope := scope_items x hv
  refine ⟨new, hlength.symm, haligned, ?_, hsignals, ?_⟩
  · rw [hscope]
    cases x with
    | decl d pos =>
      cases d with
      | signal signal =>
        rw [Env.after, ← h.length_eq]
        exact h.resolves.declared signal
      | value | port | submodule => exact h.resolves.append _
    | _ => exact h.resolves.append _
  · rw [List.length_append, ← hlength]
    cases x with
    | decl d pos =>
      cases d with
      | signal signal => exact h.numbered.declare signal.name.name
      | value | port | submodule => exact h.numbered.mono (Nat.le_add_right _ _)
    | _ => exact h.numbered.mono (Nat.le_add_right _ _)

theorem Located.ports {ps : List Port} {vs : List Verilog.Port} (h : Located signals lines env s)
    (hv : Yields (ports ps) s vs s') : ∃ new, new.length = ps.length ∧
      Located (signals ++ ps.map (·.signal)) (lines ++ new) (env.afterPorts lines.length ps) s' := by
  induction ps generalizing signals lines env s vs with
  | nil =>
    obtain ⟨-, rfl⟩ := yields_pure.mp hv
    exact ⟨[], rfl, by simpa [Env.afterPorts] using h⟩
  | cons p ps ih =>
    simp only [Lowering.ports, yields_bind, yields_port, yields_pure] at hv
    obtain ⟨_, _, ⟨-, rfl, rfl⟩, vs, s₁, hothers, rfl, rfl⟩ := hv
    obtain ⟨new, hlength, hnew⟩ := ih (h.declared p.signal) hothers
    refine ⟨declarationOf p.signal (freshName s.used p.signal.name.name) :: new,
      by rw [List.length_cons, List.length_cons, hlength], ?_⟩
    simpa [Env.afterPorts] using hnew

/-! ## The traversal -/

theorem IsNamed.of_prefix {names names' : List String} {d : Nat} {name : String} (h : IsNamed names d name)
    (hinitial : names <+: names') : IsNamed names' d name := by
  obtain ⟨rest, rfl⟩ := hinitial
  exact (List.getElem?_append_left (List.getElem?_eq_some_iff.mp h).1).trans h

/-- The names taken so far are the first ones of all names. -/
theorem Located.isNamed (h : Located signals lines env s) {names : List String}
    (hinitial : s.used.reverse <+: names) {id : Ident} {b : Binding} (hb : s.scope.lookup id.name = some b) :
    ∃ d, env.lookup id.name = some d ∧ IsNamed names d b.emitted := by
  obtain ⟨d, hd, hname⟩ := h.aligned.agrees.renders hb
  refine ⟨d, hd, IsNamed.of_prefix ?_ hinitial⟩
  rw [h.aligned.used_eq, List.reverse_reverse, IsNamed, List.getElem?_map]
  exact hname

section
variable {all : List Signal} {names : List String}

theorem samples_of_yields (hnodup : names.Nodup) (h : Located signals lines env s) {lhs : Ident} {rhs : Expr}
    {item : Item} (hv : Yields (continuous .registered lhs rhs) s item s')
    (hsignals : signals <+: all) (hnames : s'.used.reverse <+: names) :
    ∃ t target value clock, item = .register t target value ∧ Samples all names ⟨lhs, env⟩ (t, target) clock := by
  obtain ⟨target, value, htarget, -, rfl, -, clock, t, hclock, ht, rfl⟩ := yields_continuous.mp hv
  obtain ⟨b, hb, rfl, -⟩ := yields_trigger.mp ht
  obtain ⟨d, hd, hsignal⟩ := h.resolves.find htarget
  obtain ⟨d', hd', hname⟩ := h.isNamed hnames htarget
  obtain rfl : d = d' := Option.some.inj (hd.symm.trans hd')
  obtain ⟨k, hk, hnamed⟩ := h.isNamed hnames hb
  refine ⟨_, _, _, clock, rfl, ⟨d, target.signal, hd, ?_, hclock, hname⟩, rfl, ⟨k, hk, hnamed⟩, ?_⟩
  · obtain ⟨rest, rfl⟩ := hsignals
    exact (List.getElem?_append_left (List.getElem?_eq_some_iff.mp hsignal).1).trans hsignal
  · rw [← Env.lookup_around_iff h.numbered lhs.name hk]
    constructor
    · intro haround
      obtain ⟨k', hk', hnamed'⟩ := haround
      -- one name stands for one declaration
      have hget : names[k']? = names[k]? := hnamed'.trans hnamed.symm
      obtain rfl : k' = k := (List.getElem?_inj (List.getElem?_eq_some_iff.mp hnamed').1 hnodup).mp hget
      exact hk'
    · intro haround
      exact ⟨k, haround, hnamed⟩

/-- Every registered assignment of a statement is sampled by a procedure of its own. -/
def ItemsSample (all : List Signal) (names : List String) (x : Stmt) : Prop :=
  ∀ ⦃signals : List Signal⦄ ⦃lines : List Declaration⦄ ⦃env : Env⦄ ⦃s s' : State⦄ ⦃is : List Item⦄,
    Located signals lines env s → Yields (items x) s is s' → signals ++ x.declarations <+: all →
    s'.used.reverse <+: names →
    List.Forall₂ (fun r p => ∃ clock, Samples all names r p clock) (x.registrations env lines.length)
      (is.flatMap Item.registered)

def AllItemsSample (all : List Signal) (names : List String) (xs : List Stmt) : Prop :=
  ∀ ⦃signals : List Signal⦄ ⦃lines : List Declaration⦄ ⦃env : Env⦄ ⦃s s' : State⦄ ⦃is : List Item⦄,
    Located signals lines env s → Yields (allItems xs) s is s' → signals ++ Stmt.allDeclarations xs <+: all →
    s'.used.reverse <+: names →
    List.Forall₂ (fun r p => ∃ clock, Samples all names r p clock) (Stmt.allRegistrations env lines.length xs)
      (is.flatMap Item.registered)

theorem used_prefix_of_allItems {xs : List Stmt} {is : List Item} (h : Aligned lines env s)
    (hv : Yields (allItems xs) s is s') : s.used.reverse <+: s'.used.reverse := by
  obtain ⟨new, -, hplaced⟩ := allItems_aligned xs h hv
  rw [h.used_eq, hplaced.used_eq, List.reverse_reverse, List.reverse_reverse, List.map_append]
  exact List.prefix_append _ _

mutual

theorem items_sample (hnodup : names.Nodup) : ∀ x : Stmt, ItemsSample all names x
  | .assign kind lhs rhs pos, signals, lines, env, s, s', is, h, hv, hsignals, hnames => by
    simp only [items, yields_bind, yields_pure] at hv
    obtain ⟨item, s₁, hitem, rfl, rfl⟩ := hv
    cases kind with
    | plain =>
      obtain ⟨target, value, -, -, -, -, rfl⟩ := yields_continuous.mp hitem
      exact .nil
    | registered =>
      have hinitial : signals <+: all := (List.prefix_append _ _).trans hsignals
      obtain ⟨t, target, value, clock, rfl, hsamples⟩ := samples_of_yields hnodup h hitem hinitial hnames
      exact .cons ⟨clock, hsamples⟩ .nil
  | .block ⟨stmts, start, stop⟩, signals, lines, env, s, s', is, h, hv, hsignals, hnames => by
    rw [items] at hv
    obtain ⟨s₁, hs₁, rfl⟩ := yields_inFrame.mp hv
    exact allItems_sample hnodup stmts h.enter hs₁ hsignals hnames
  | .decl d pos, signals, lines, env, s, s', is, h, hv, hsignals, hnames => by
    simp only [items, yields_bind, yields_pure] at hv
    obtain ⟨line, s₁, -, rfl, rfl⟩ := hv
    exact .nil
  | .sequence clock inner pos, signals, lines, env, s, s', is, h, hv, hsignals, hnames => by
    simp only [items, yields_bind, yields_pure] at hv
    obtain ⟨t, s₁, -, body, s₂, -, rfl, rfl⟩ := hv
    exact .nil
  | .conditional cond body alternative pos, signals, lines, env, s, s', is, h, hv, hsignals, hnames => by
    rw [items] at hv
    obtain ⟨vs, s₁, -, hpure⟩ := yields_bind.mp hv
    obtain ⟨rfl, rfl⟩ := yields_pure.mp hpure
    exact .nil
  | .malformed pos, _, _, _, _, _, _, _, hv, _, _ => by rw [items] at hv; exact absurd hv not_yields_fail
  | .expr e pos, _, _, _, _, _, _, _, hv, _, _ => by rw [items] at hv; exact absurd hv not_yields_fail
  | .result value pos, _, _, _, _, _, _, _, hv, _, _ => by rw [items] at hv; exact absurd hv not_yields_fail
  | .loop cond body pos, _, _, _, _, _, _, _, hv, _, _ => by rw [items] at hv; exact absurd hv not_yields_fail

theorem allItems_sample (hnodup : names.Nodup) : ∀ xs : List Stmt, AllItemsSample all names xs
  | [], signals, lines, env, s, s', is, h, hv, hsignals, hnames => by
    rw [allItems] at hv
    obtain ⟨rfl, rfl⟩ := yields_pure.mp hv
    exact .nil
  | x :: xs, signals, lines, env, s, s', is, h, hv, hsignals, hnames => by
    simp only [allItems, yields_bind, yields_pure] at hv
    obtain ⟨is₁, s₁, hfirst, is₂, s₂, hothers, rfl, rfl⟩ := hv
    obtain ⟨new, hlength, hlocated⟩ := h.after hfirst
    rw [Stmt.allDeclarations, ← List.append_assoc] at hsignals
    have hx := items_sample hnodup x h hfirst ((List.prefix_append _ _).trans hsignals)
      ((used_prefix_of_allItems hlocated.aligned hothers).trans hnames)
    have hxs := allItems_sample hnodup xs hlocated hothers hsignals hnames
    rw [List.length_append, hlength] at hxs
    rw [List.flatMap_append]
    exact List.rel_append hx hxs

end

end

/-! ## Modules -/

/-- The registered assignments of a module are sampled by procedures, in order. `lines` are
the lines of its declarations. -/
def Sampled (m : Module) (lines : List Declaration) (procedures : List (Trigger × String)) : Prop :=
  List.Forall₂ (fun r p => ∃ clock, Samples m.declarations (lines.map (·.name)) r p clock) m.registrations
    procedures

theorem initial_located : Located [] [] [[]] { State.initial with scope := State.initial.scope.enter } := by
  refine ⟨initial_aligned, ?_, rfl, List.Pairwise.nil, ?_⟩
  · intro name
    exact .none
  · intro d hd
    exact absurd hd List.not_mem_nil

theorem sampled_of_yields {m : Module} {v : Verilog.Module}
    (h : Yields (Lowering.module m) State.initial v s') :
    ∃ lines, Bound m v lines ∧ Sampled m lines (v.items.flatMap Item.registered) := by
  obtain ⟨lines, hbound, hused⟩ := bound_and_used_of_yields h
  refine ⟨lines, hbound, ?_⟩
  obtain ⟨ps, s₁, is, s₂, hports, hitems, rfl, rfl⟩ := yields_module.mp h
  obtain ⟨new, hlength, hlocated⟩ := initial_located.ports hports
  have hnames : s₂.used.reverse = lines.map (·.name) := by
    rw [show s₂.used = (lines.map (·.name)).reverse from hused, List.reverse_reverse]
  have hsampled := allItems_sample hbound.nodup m.body.stmts hlocated.enter hitems List.prefix_rfl
    (hnames ▸ List.prefix_rfl)
  rw [List.nil_append, List.nil_append, hlength] at hsampled
  exact hsampled

end Naming

open Naming
open Verilog (Item Line linesText readModules registeredIn)

/-- In every module that emission accepts, a registered assignment is sampled on the clock
that its target's declaration has in reach exactly if no frame between the two declares
the name of that clock. The procedures are those of the trees whose lines the text has,
and those of the text itself if it is made of words. -/
theorem emit_clock_kept_iff {ms : List Module} {text : String} (h : (emit ms).result = .ok text) :
    (∃ vs : List Verilog.Module, text = String.intercalate "\n" (vs.map fun v => linesText v.lines) ∧
      List.Forall₂ (fun m v => ∃ lines, Bound m v lines ∧ Sampled m lines (v.items.flatMap Item.registered)) ms vs) ∧
    ((∀ m ∈ ms, m.Legible) → List.Forall₂ (fun m ls => ∃ fs lines, ls.mapM Line.form? = some fs ∧
      BoundIn m fs lines ∧ Sampled m lines (registeredIn fs)) ms (readModules text)) ∧
    ∀ source, parse source = .ok ms → ∀ m ∈ ms, m.Legible := by
  refine ⟨?_, ?_, fun source hparse => legible_of_parse hparse⟩
  · obtain ⟨vs, hvs, rfl⟩ := Lowering.emit_eq_ok_iff.mp h
    refine ⟨vs, rfl, hvs.imp ?_⟩
    intro m v hv
    obtain ⟨s', hyields⟩ := Lowering.lower_eq_ok_iff.mp hv
    exact sampled_of_yields hyields
  · intro hlegible
    obtain ⟨vs, hvs, hread, -⟩ := exists_lines_of_emit hlegible h
    rw [hread, List.forall₂_map_right_iff]
    refine hvs.imp ?_
    intro m v hv
    obtain ⟨hworded, s', hyields⟩ := hv
    obtain ⟨lines, hbound, hsampled⟩ := sampled_of_yields hyields
    rw [← v.registeredIn_forms] at hsampled
    exact ⟨v.forms, lines, Verilog.mapM_form?_of_has hworded.has_forms, hbound.boundIn hworded, hsampled⟩

/-- A module in which a block declares a name that the clock of a port has too, and
assigns the port. -/
def recaptured : Module :=
  let clk (column : Nat) : Ident := ⟨"clk", ⟨1, column⟩⟩
  let d (column : Nat) : Ident := ⟨"d", ⟨1, column⟩⟩
  let q (column : Nat) : Ident := ⟨"q", ⟨1, column⟩⟩
  { name := ⟨"m", ⟨1, 1⟩⟩
    ports := [⟨⟨clk 6, 1, .wire, none⟩, .input⟩, ⟨⟨d 14, 1, .wire, none⟩, .input⟩,
      ⟨⟨q 25, 1, .reg, some ⟨clk 28, false⟩⟩, .output⟩]
    body := ⟨[.block ⟨[.decl (.signal ⟨clk 42, 1, .wire, none⟩) ⟨1, 37⟩,
        .assign .registered (q 47) (.ident (d 52)) ⟨1, 47⟩], ⟨1, 35⟩, ⟨1, 55⟩⟩], ⟨1, 33⟩, ⟨1, 57⟩⟩ }

def recapturedVerilog : String :=
  "module m (\n\tinput clk,\n\tinput d,\n\toutput reg q\n);\n\twire clk_1;\n\talways @(posedge clk_1)\n" ++
  "\t\tq <= d;\nendmodule\n"

theorem emit_recaptured : (recaptured.registrations.map fun r => (r.env.inside "q").lookup "clk") = [some 3] ∧
    (emit [recaptured]).result = .ok recapturedVerilog ∧
    ((readModules recapturedVerilog).map fun ls => registeredIn (ls.filterMap Line.form?)) =
      [[(⟨.rising, "clk_1"⟩, "q")]] ∧
    List.Forall₂ (fun m ls => ∃ fs lines, ls.mapM Line.form? = some fs ∧ BoundIn m fs lines ∧
      Sampled m lines (registeredIn fs)) [recaptured] (readModules recapturedVerilog) := by
  have hemit : (emit [recaptured]).result = .ok recapturedVerilog := by decide +kernel
  have hname : IsWordOf .identifier "clk" := by decide
  have hlegible : ∀ m ∈ [recaptured], m.Legible :=
    List.forall_mem_singleton.mpr ⟨by decide, by decide, ⟨hname, trivial, trivial⟩, trivial⟩
  exact ⟨by decide, hemit, by decide +kernel, (emit_clock_kept_iff hemit).2.1 hlegible⟩

end Gateware

import Gateware.Proofs.Lowering.Frames

/- Modules are lowered independently of each other, though one state goes through all of them.

   This file

   1. proves that a module leaves every frame that it enters, so that it hands on the scope that it
      was given (`scope_module`); names and hoisted declarations are given up before the next one,
      so that every module finds the state that a first one finds (`renewed_modules`);
   2. proves that a list of modules is lowered as each of them is on its own
      (`result_lowerAll_cons`), and says when all succeed and which error is reported otherwise
      (`lowerAll_eq_ok_iff`, `lowerAll_eq_error_iff`);
   3. concludes the same of their texts, with an empty line between them
      (`emit_modules_independent`). -/
namespace Gateware.Lowering
variable {s s' : State}

/-! ## The state between modules -/

theorem enclosing_ports (ps : List Port) {lines : List Verilog.Port} (h : Yields (ports ps) s lines s') :
    s'.scope.enclosing = s.scope.enclosing := by
  induction ps generalizing s lines with
  | nil =>
    rw [ports] at h
    obtain ⟨-, rfl⟩ := yields_pure.mp h
    rfl
  | cons p ps ih =>
    simp only [ports, yields_bind, yields_pure] at h
    obtain ⟨line, s₁, hline, others, s₂, hothers, -, rfl⟩ := h
    obtain ⟨-, -, rfl⟩ := yields_port.mp hline
    exact (ih hothers).trans rfl

/-- A module leaves the frame of its body and the one of its ports. -/
theorem scope_module {m : Module} {v : Verilog.Module} (h : Yields (module m) s v s') : s'.scope = s.scope := by
  obtain ⟨ps, s₁, is, s₂, hports, hitems, -, rfl⟩ := yields_module.mp h
  have hbody : s₂.scope.exit = s₁.scope := exit_eq_of_enclosing (enclosing_allItems m.body.stmts hitems)
  show s₂.scope.exit.exit = s.scope
  rw [hbody]
  exact exit_eq_of_enclosing (enclosing_ports m.ports hports)

theorem renewed_eq_of_scope (h : s'.scope = s.scope) : s'.renewed = s.renewed := by
  rw [State.renewed, State.renewed, h]

/-- After some modules, the next one finds the state that the first one has found. -/
theorem renewed_modules {ms : List Module} {vs : List Verilog.Module} (h : Yields (modules ms) s vs s') :
    s'.renewed = s.renewed := by
  induction ms generalizing s vs with
  | nil =>
    obtain ⟨-, rfl⟩ := yields_pure.mp h
    rfl
  | cons m ms ih =>
    simp only [modules, yields_bind, yields_modify, yields_pure] at h
    obtain ⟨_, _, rfl, v, s₁, hm, vs, _, hms, -, rfl⟩ := h
    calc s'.renewed = s₁.renewed := ih hms
      _ = s.renewed.renewed := renewed_eq_of_scope (scope_module hm)
      _ = s.renewed := rfl

/-! ## Lists of modules -/

theorem result_modules_cons (m : Module) (ms : List Module) (s : State) :
    (modules (m :: ms) s).result =
      ((module m s.renewed).result >>= fun y =>
        (modules ms y.2).result >>= fun z => .ok (y.1 :: z.1, z.2)) := by
  show (module m s.renewed >>= fun y => modules ms y.2 >>= fun z => pure (y.1 :: z.1, z.2)).result = _
  simp only [Report.result_bind, Report.result_pure]

/-- What a state has beside its scope plays no part for the modules to come. -/
theorem values_modules_eq (ms : List Module) (h : s'.renewed = s.renewed) :
    (modules ms s').result.map Prod.fst = (modules ms s).result.map Prod.fst := by
  cases ms with
  | nil => rfl
  | cons m ms => rw [result_modules_cons, result_modules_cons, h]

theorem result_lower (m : Module) : m.lower.result = (module m State.initial).result.map Prod.fst := by
  rw [Module.lower, Report.result_bind]
  show (module m State.initial).result >>= _ = _
  cases (module m State.initial).result <;> rfl

theorem result_lowerAll (ms : List Module) :
    (Module.lowerAll ms).result = (modules ms State.initial).result.map Prod.fst := by
  rw [Module.lowerAll, Report.result_bind]
  show (modules ms State.initial).result >>= _ = _
  cases (modules ms State.initial).result <;> rfl

/-- The first module is lowered as on its own, and the others as without it. -/
theorem result_lowerAll_cons (m : Module) (ms : List Module) :
    (Module.lowerAll (m :: ms)).result =
      (m.lower.result >>= fun v => (Module.lowerAll ms).result >>= fun vs => .ok (v :: vs)) := by
  rw [result_lowerAll, result_modules_cons, result_lower, result_lowerAll]
  show ((module m State.initial).result >>= _).map _ = _
  cases hm : (module m State.initial).result with
  | error e => rfl
  | ok y =>
    have hrenewed : y.2.renewed = State.initial.renewed := renewed_eq_of_scope (scope_module hm)
    rw [Except.map, ← values_modules_eq ms hrenewed]
    show ((modules ms y.2).result >>= _).map _ = ((modules ms y.2).result.map _ >>= _)
    cases (modules ms y.2).result <;> rfl

/-- Modules are lowered one by one. -/
theorem lowerAll_eq_ok_iff {ms : List Module} {vs : List Verilog.Module} :
    (Module.lowerAll ms).result = .ok vs ↔ List.Forall₂ (fun m v => m.lower.result = .ok v) ms vs := by
  induction ms generalizing vs with
  | nil =>
    rw [List.forall₂_nil_left_iff]
    show Except.ok [] = Except.ok vs ↔ _
    rw [Except.ok.injEq]
    exact eq_comm
  | cons m ms ih =>
    simp only [result_lowerAll_cons, Except.bind_eq_ok_iff, ih, Except.ok.injEq]
    constructor
    · rintro ⟨v, hv, vs, hvs, rfl⟩
      exact .cons hv hvs
    · intro h
      cases h with
      | cons hv hvs => exact ⟨_, hv, _, hvs, rfl⟩

theorem emit_eq_ok_iff {ms : List Module} {text : String} :
    (emit ms).result = .ok text ↔
      ∃ vs, List.Forall₂ (fun m v => m.lower.result = .ok v) ms vs ∧ text = Verilog.text vs := by
  simp only [emit, Report.result_bind_eq_ok_iff, Report.result_pure, Except.ok.injEq, lowerAll_eq_ok_iff]
  constructor
  · rintro ⟨vs, hvs, rfl⟩
    exact ⟨vs, hvs, rfl⟩
  · rintro ⟨vs, hvs, rfl⟩
    exact ⟨vs, hvs, rfl⟩

theorem exists_lowerAll_iff (ms : List Module) :
    (∃ vs, (Module.lowerAll ms).result = .ok vs) ↔ ∀ m ∈ ms, ∃ v, m.lower.result = .ok v := by
  induction ms with
  | nil => exact ⟨fun _ _ hm => absurd hm List.not_mem_nil, fun _ => ⟨[], rfl⟩⟩
  | cons m ms ih =>
    simp only [result_lowerAll_cons, Except.bind_eq_ok_iff, List.forall_mem_cons, ← ih]
    constructor
    · rintro ⟨_, v, hv, vs, hvs, -⟩
      exact ⟨⟨v, hv⟩, vs, hvs⟩
    · rintro ⟨⟨v, hv⟩, vs, hvs⟩
      exact ⟨v :: vs, v, hv, vs, hvs, rfl⟩

theorem lowerAll_cons_eq_error_iff {m : Module} {ms : List Module} {e : LoweringError} :
    (Module.lowerAll (m :: ms)).result = .error e ↔
      m.lower.result = .error e ∨ (∃ v, m.lower.result = .ok v) ∧ (Module.lowerAll ms).result = .error e := by
  rw [result_lowerAll_cons]
  cases m.lower.result with
  | error e' => simp [bind, Except.bind]
  | ok v => cases (Module.lowerAll ms).result <;> simp [bind, Except.bind]

/-- An error is the one of the first module that fails on its own. -/
theorem lowerAll_eq_error_iff {ms : List Module} {e : LoweringError} :
    (Module.lowerAll ms).result = .error e ↔ ∃ before m after, ms = before ++ m :: after ∧
      (∀ m' ∈ before, ∃ v, m'.lower.result = .ok v) ∧ m.lower.result = .error e := by
  induction ms with
  | nil =>
    constructor
    · intro h
      cases h
    · rintro ⟨before, m, after, hms, -⟩
      exact absurd hms.symm (by simp)
  | cons m ms ih =>
    rw [lowerAll_cons_eq_error_iff, ih]
    constructor
    · rintro (he | ⟨hm, before, m', after, rfl, hbefore, he⟩)
      · exact ⟨[], m, ms, rfl, by simp, he⟩
      · exact ⟨m :: before, m', after, rfl, List.forall_mem_cons.mpr ⟨hm, hbefore⟩, he⟩
    · rintro ⟨before, m', after, hms, hbefore, he⟩
      cases before with
      | nil =>
        obtain ⟨rfl, rfl⟩ := List.cons.inj hms
        exact .inl he
      | cons first before =>
        obtain ⟨rfl, rfl⟩ := List.cons.inj hms
        obtain ⟨hm, hbefore⟩ := List.forall_mem_cons.mp hbefore
        exact .inr ⟨hm, before, m', after, rfl, hbefore, he⟩

/-! ## Texts -/

theorem result_emit (ms : List Module) : (emit ms).result = (Module.lowerAll ms).result.map Verilog.text := by
  rw [emit, Report.result_bind]
  cases (Module.lowerAll ms).result <;> rfl

theorem result_emit_singleton (m : Module) : (emit [m]).result = m.lower.result.map Verilog.Module.text := by
  rw [result_emit, result_lowerAll_cons]
  cases m.lower.result with
  | error e => rfl
  | ok v =>
    show Except.ok (Verilog.text [v]) = Except.ok v.text
    rw [Verilog.text, List.map_singleton, String.intercalate_singleton]

theorem emit_singleton_eq_ok_iff {m : Module} {text : String} :
    (emit [m]).result = .ok text ↔ ∃ v, m.lower.result = .ok v ∧ v.text = text := by
  rw [result_emit_singleton]
  cases m.lower.result <;> simp [Except.map]

/-- The texts of modules on their own are those of their Verilog forms. -/
theorem forall₂_emit_singleton_iff {ms : List Module} {texts : List String} :
    List.Forall₂ (fun m text => (emit [m]).result = .ok text) ms texts ↔
      ∃ vs, List.Forall₂ (fun m v => m.lower.result = .ok v) ms vs ∧ texts = vs.map Verilog.Module.text := by
  constructor
  · intro h
    induction h with
    | nil => exact ⟨[], .nil, rfl⟩
    | cons hm _ ih =>
      obtain ⟨v, hv, rfl⟩ := emit_singleton_eq_ok_iff.mp hm
      obtain ⟨vs, hvs, rfl⟩ := ih
      exact ⟨v :: vs, .cons hv hvs, rfl⟩
  · rintro ⟨vs, hvs, rfl⟩
    induction hvs with
    | nil => exact .nil
    | cons hv _ ih => exact .cons (emit_singleton_eq_ok_iff.mpr ⟨_, hv, rfl⟩) ih

end Gateware.Lowering

namespace Gateware
open Lowering

/-- Modules are emitted independently of each other. A list of modules has a text exactly if
each of them has one on its own, and then the texts stand in order with an empty line between
them; otherwise the first module that has none gives the error. After any modules the next one
finds the state that a first one finds: no names, no hoisted declarations, no frames. -/
theorem emit_modules_independent (ms : List Module) :
    ((∃ text, (emit ms).result = .ok text) ↔ ∀ m ∈ ms, ∃ text, (emit [m]).result = .ok text) ∧
    (∀ text, (emit ms).result = .ok text ↔ ∃ texts,
      List.Forall₂ (fun m t => (emit [m]).result = .ok t) ms texts ∧ text = String.intercalate "\n" texts) ∧
    (∀ e, (emit ms).result = .error e ↔ ∃ before m after, ms = before ++ m :: after ∧
      (∀ m' ∈ before, ∃ text, (emit [m']).result = .ok text) ∧ (emit [m]).result = .error e) ∧
    ∀ vs s, Yields (modules ms) State.initial vs s → s.renewed = State.initial := by
  have hsingle (m : Module) := Except.map_eq_iff Verilog.Module.text m.lower.result
  have hlist := Except.map_eq_iff Verilog.text (Module.lowerAll ms).result
  simp only [← result_emit_singleton] at hsingle
  rw [← result_emit] at hlist
  refine ⟨?_, ?_, ?_, fun vs s h => renewed_modules h⟩
  · simp only [hlist.1, (hsingle _).1]
    exact exists_lowerAll_iff ms
  · intro text
    simp only [forall₂_emit_singleton_iff]
    rw [emit_eq_ok_iff]
    constructor
    · rintro ⟨vs, hvs, rfl⟩
      exact ⟨_, ⟨vs, hvs, rfl⟩, rfl⟩
    · rintro ⟨_, ⟨vs, hvs, rfl⟩, rfl⟩
      exact ⟨vs, hvs, rfl⟩
  · intro e
    simp only [hlist.2, (hsingle _).1, (hsingle _).2]
    exact lowerAll_eq_error_iff

/-- A register inside of a condition, which is hoisted. -/
def sampler : Module where
  name := ⟨"sampler", ⟨1, 1⟩⟩
  ports := [⟨⟨⟨"c", ⟨1, 12⟩⟩, 1, .wire, none⟩, .input⟩]
  body := ⟨[.conditional (.ident ⟨"c", ⟨1, 20⟩⟩) (.block ⟨[
    .decl (.signal ⟨⟨"t", ⟨1, 28⟩⟩, 1, .reg, none⟩) ⟨1, 24⟩,
    .assign .plain ⟨"t", ⟨1, 31⟩⟩ (.ident ⟨"c", ⟨1, 35⟩⟩) ⟨1, 31⟩], ⟨1, 22⟩, ⟨1, 38⟩⟩) none ⟨1, 17⟩],
    ⟨1, 15⟩, ⟨1, 40⟩⟩

/-- A module that has no signals and assigns to one. -/
def borrower : Module where
  name := ⟨"borrower", ⟨2, 1⟩⟩
  ports := []
  body := ⟨[.assign .plain ⟨"t", ⟨2, 14⟩⟩ (.literal ⟨"1", ⟨2, 18⟩⟩) ⟨2, 14⟩], ⟨2, 12⟩, ⟨2, 21⟩⟩

/-- A module twice has its text twice, and no module sees the register of the one before it. -/
theorem emit_sampler_twice : ∃ text, (emit [sampler]).result = .ok text ∧
    (emit [sampler, sampler]).result = .ok (String.intercalate "\n" [text, text]) ∧
    (emit [sampler, borrower]).result = .error (.undeclared ⟨"t", ⟨2, 14⟩⟩) := by
  have hsampler : (emit [sampler]).result = .ok ("module sampler (\n\tinput c\n);\n\treg t;\n" ++
      "\talways @(*) begin\n\t\tif (c) begin\n\t\t\tt = c;\n\t\tend\n\tend\nendmodule\n") := by
    decide +kernel
  have hborrower : (emit [borrower]).result = .error (.undeclared ⟨"t", ⟨2, 14⟩⟩) := by decide +kernel
  refine ⟨_, hsampler, ?_, ?_⟩
  · obtain ⟨-, htext, -, -⟩ := emit_modules_independent [sampler, sampler]
    exact (htext _).mpr ⟨_, .cons hsampler (.cons hsampler .nil), rfl⟩
  · obtain ⟨-, -, herror, -⟩ := emit_modules_independent [sampler, borrower]
    refine (herror _).mpr ⟨[sampler], borrower, [], rfl, ?_, hborrower⟩
    exact List.forall_mem_singleton.mpr ⟨_, hsampler⟩

end Gateware

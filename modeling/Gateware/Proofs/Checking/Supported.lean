import Gateware.Proofs.Checking.Diagnostics

/- Which trees the reader makes.

   A syntax tree made by hand can hold parts that have no Verilog form. This file

   1. states rules for the trees of which every part can be lowered (`Expr.Supported`,
      `Stmt.Supported`), with a rule for each part that is lowered and none for the others;
   2. proves that the trees of the grammar keep these rules (`Term.supported_toExpr`,
      `StmtTree.supported_value`), so that every module which the reader makes does
      (`supported_of_parse`);
   3. proves that of the faults which say that a part is not supported one is left in such a tree: a
      clocked statement in a condition or in another clocked statement, which depends on the place
      and not on the part (`Stmt.Supported.misplaced`);
   4. concludes for source texts (`compile_unsupported_only_nested`). -/
namespace Gateware
open Grammar

/-- The expressions that the reader is to make: names, numbers, and operators between two
operands. Parentheses and calls have a Verilog form too, but no rule here. -/
inductive Expr.Supported : Expr → Prop
  | ident (id : Ident) : Supported (.ident id)
  | literal (lit : Literal) : Supported (.literal lit)
  | binary {op : Operator} {lhs rhs : Expr} (pos : Position) (hop : op ∈ Operator.joining)
      (hlhs : Supported lhs) (hrhs : Supported rhs) : Supported (.binary op lhs rhs pos)

/-- The statements that may follow `else`. -/
inductive Stmt.FollowsElse : Stmt → Prop
  | conditional (cond : Expr) (body : Stmt) (alternative : Option Stmt) (pos : Position) :
      FollowsElse (.conditional cond body alternative pos)
  | block (b : Block) : FollowsElse (.block b)

/-- The statements of which every part can be lowered, if it stands in the right place. There
is no rule for expressions, results and loops, and of the declarations one for signals alone. -/
inductive Stmt.Supported : Stmt → Prop
  | decl (signal : Signal) (pos : Position) : Supported (.decl (.signal signal) pos)
  | assign (kind : AssignKind) (lhs : Ident) {rhs : Expr} (pos : Position) (hrhs : rhs.Supported) :
      Supported (.assign kind lhs rhs pos)
  | sequence (clock : Clock) {inner : Stmt} (pos : Position) (hinner : Supported inner) :
      Supported (.sequence clock inner pos)
  | conditional {cond : Expr} {body : Stmt} {alternative : Option Stmt} (pos : Position)
      (hcond : cond.Supported) (hbody : Supported body) (hfollows : ∀ s ∈ alternative, s.FollowsElse)
      (halternative : ∀ s ∈ alternative, Supported s) : Supported (.conditional cond body alternative pos)
  | block {stmts : List Stmt} (start stop : Position) (hstmts : ∀ s ∈ stmts, Supported s) :
      Supported (.block ⟨stmts, start, stop⟩)

/-- All statements in the body of a module are supported. -/
def ModuleOf.Supported (m : Module) : Prop := ∀ s ∈ m.body.stmts, s.Supported

/-! ## Trees of the grammar -/

namespace Grammar

/-- Parentheses of the source leave no trace in the tree. -/
theorem Term.supported_toExpr : ∀ (t : Term), t.toExpr.Supported
  | .name _ => .ident _
  | .number _ => .literal _
  | .group _ inner _ => inner.supported_toExpr
  | .join lhs sign rhs => .binary _ sign.op_mem_joining lhs.supported_toExpr rhs.supported_toExpr

namespace StmtTree

theorem FollowsElse.value {x : StmtTree} (h : x.FollowsElse) : x.value.FollowsElse := by
  cases x with
  | conditional => exact .conditional ..
  | choice => exact .conditional ..
  | block => exact .block _
  | assign | decl | sequence => exact h.elim

mutual

theorem supported_value : ∀ (x : StmtTree), x.Everywhere Grouped → x.value.Supported
  | .assign _ _ value _, _ => .assign _ _ _ value.supported_toExpr
  | .conditional _ cond body, h => by
    refine .conditional _ cond.supported_toExpr (body.supported_value h.2) ?_ ?_
    · exact fun _ hs => nomatch hs
    · exact fun _ hs => nomatch hs
  | .choice _ cond body _ alternative, h => by
    obtain ⟨⟨-, -, hfollows⟩, hbody, halternative⟩ := h
    refine .conditional _ cond.supported_toExpr (body.supported_value hbody) ?_ ?_
    · rintro _ ⟨⟩
      exact hfollows.value
    · rintro _ ⟨⟩
      exact alternative.supported_value halternative
  | .block _ stmts _, h => .block _ _ (supported_valueAll stmts h.2)
  | .decl .., _ => .decl _ _
  | .sequence _ inner, h => .sequence _ _ (inner.supported_value h.2)

theorem supported_valueAll : ∀ (xs : List StmtTree), EverywhereAll Grouped xs → ∀ s ∈ valueAll xs, s.Supported
  | [], _ => fun _ hs => nomatch hs
  | x :: xs, h => by
    rw [valueAll]
    exact List.forall_mem_cons.mpr ⟨x.supported_value h.1, supported_valueAll xs h.2⟩

end

end StmtTree

theorem ModuleTree.supported_value {x : ModuleTree} (h : x.Grouped) : x.value.Supported :=
  StmtTree.supported_valueAll x.stmts (StmtTree.everywhereAll_iff.mpr h)

end Grammar

/-- Every module that the reader makes is supported. -/
theorem supported_of_parse {source : String} {ms : List Module} (h : parse source = .ok ms) :
    ∀ m ∈ ms, m.Supported := by
  obtain ⟨f, hf, -, rfl⟩ := parse_eq_ok_iff.mp h
  intro m hm
  obtain ⟨x, hx, rfl⟩ := List.mem_map.mp hm
  exact ModuleTree.supported_value (hf.grouped x hx)

/-! ## Faults of supported trees -/

/-- The only part that a fault calls unsupported is a clocked statement inside of a condition
or of another clocked statement. -/
def LoweringError.Misplaced : LoweringError → Prop
  | .unsupported node _ => node = .nestedSequence
  | _ => True

section
variable (frames : Frames)

theorem misplaced_unresolved (id : Ident) : ∀ e ∈ frames.unresolved id, e.Misplaced := by
  unfold Frames.unresolved
  split <;> simp [LoweringError.Misplaced]

theorem misplaced_redeclared (signal : Signal) : ∀ e ∈ frames.redeclared signal, e.Misplaced := by
  unfold Frames.redeclared
  split <;> simp [LoweringError.Misplaced]

theorem Expr.Supported.misplaced {e : Expr} (h : e.Supported) : ∀ fault ∈ e.faults frames, fault.Misplaced := by
  induction h with
  | ident id => exact misplaced_unresolved frames id
  | literal => exact fun _ hfault => nomatch hfault
  | @binary op _ _ _ hop _ _ ihl ihr =>
    have hsign : op ∉ [Operator.assign, .assignRegistered, .bracket] := by
      obtain ⟨v, hv⟩ := op.mem_joining_iff.mp hop
      rw [← Checking.toVerilog?_eq_none_iff, hv]
      exact Option.some_ne_none v
    rw [Expr.faults, if_neg hsign, List.nil_append]
    exact List.forall_mem_append.mpr ⟨ihl, ihr⟩

theorem misplaced_unclocked (kind : AssignKind) (context : Context) (lhs : Ident) (target : Signal) :
    ∀ e ∈ frames.unclocked kind context lhs target, e.Misplaced := by
  unfold Frames.unclocked
  split
  · simp
  · simp
  · simp [LoweringError.Misplaced]
  · simp [LoweringError.Misplaced]
  · exact misplaced_unresolved frames _

theorem misplaced_misassigned (kind : AssignKind) (context : Context) (lhs : Ident) {rhs : Expr} (h : rhs.Supported) :
    ∀ e ∈ frames.misassigned kind context lhs rhs, e.Misplaced := by
  unfold Frames.misassigned
  refine List.forall_mem_append.mpr ⟨misplaced_unresolved frames lhs, ?_⟩
  refine List.forall_mem_append.mpr ⟨h.misplaced frames, ?_⟩
  cases frames.lookup lhs.name with
  | none => simp
  | some target =>
    refine List.forall_mem_append.mpr ⟨?_, misplaced_unclocked frames kind context lhs target⟩
    unfold AssignKind.wrongStorage
    split <;> simp [LoweringError.Misplaced]

end

theorem misplaced_allFaults {stmts : List Stmt} {context : Context}
    (h : ∀ s ∈ stmts, ∀ frames, ∀ e ∈ s.faults frames context, e.Misplaced) (frames : Frames) :
    ∀ e ∈ Stmt.allFaults frames context stmts, e.Misplaced := by
  induction stmts generalizing frames with
  | nil => exact fun _ he => nomatch he
  | cons s ss ih =>
    obtain ⟨hs, hss⟩ := List.forall_mem_cons.mp h
    rw [Stmt.allFaults]
    exact List.forall_mem_append.mpr ⟨hs frames, ih hss (frames.after s)⟩

theorem Stmt.Supported.misplaced {s : Stmt} (h : s.Supported) (frames : Frames) (context : Context) :
    ∀ e ∈ s.faults frames context, e.Misplaced := by
  induction h generalizing frames context with
  | decl signal =>
    rw [Stmt.faults]
    exact misplaced_redeclared frames signal
  | assign kind lhs pos hrhs =>
    rw [Stmt.faults]
    exact misplaced_misassigned frames kind context lhs hrhs
  | sequence clock pos _ ih =>
    -- only here the place of a statement decides whether it is supported
    unfold Stmt.faults
    cases context with
    | continuous => exact List.forall_mem_append.mpr ⟨misplaced_unresolved frames clock.name, ih _ _⟩
    | combinational => simp [LoweringError.Misplaced]
    | clocked => simp [LoweringError.Misplaced]
  | @conditional _ _ alternative _ hcond _ _ _ ihbody ihalternative =>
    rw [Stmt.faults]
    refine List.forall_mem_append.mpr ⟨hcond.misplaced frames, ?_⟩
    refine List.forall_mem_append.mpr ⟨ihbody _ _, ?_⟩
    cases alternative with
    | none => exact fun _ he => nomatch he
    | some s => exact ihalternative s rfl _ _
  | block start stop _ ih =>
    rw [Stmt.faults]
    exact misplaced_allFaults (fun s hs frames => ih s hs frames context) _

theorem misplaced_ports (ps : List Port) (frames : Frames) : ∀ e ∈ Port.faults frames ps, e.Misplaced := by
  induction ps generalizing frames with
  | nil => exact fun _ he => nomatch he
  | cons p ps ih => exact List.forall_mem_append.mpr ⟨misplaced_redeclared frames p.signal, ih _⟩

theorem ModuleOf.Supported.misplaced {m : Module} (h : m.Supported) : ∀ e ∈ m.faults, e.Misplaced :=
  List.forall_mem_append.mpr ⟨misplaced_ports m.ports [[]],
    misplaced_allFaults (fun s hs frames => (h s hs).misplaced frames .continuous) _⟩

/-- Lowering supported modules fails for no part that has no Verilog form. -/
theorem misplaced_of_emit {ms : List Module} (hms : ∀ m ∈ ms, m.Supported) {e : LoweringError}
    (h : (emit ms).result = .error e) : e.Misplaced := by
  obtain ⟨m, hm, he⟩ := List.mem_flatMap.mp (mem_faults_of_emit h)
  exact (hms m hm).misplaced e he

/-! ## Source texts -/

/-- The reader makes no part that has no Verilog form: every module that it returns is
supported, its operators are those with a counterpart in Verilog, and the one part of a source
text that can be refused as unsupported is a clocked statement in the wrong place. -/
theorem compile_unsupported_only_nested (source : String) :
    (∀ ms, parse source = .ok ms → ∀ m ∈ ms, m.Supported) ∧
    (∀ op, op ∈ Operator.joining ↔ ∃ v, op.toVerilog? = some v) ∧
    ∀ node pos, compile source = .error (.lowering (.unsupported node pos)) → node = .nestedSequence := by
  refine ⟨fun ms h => supported_of_parse h, Operator.mem_joining_iff, ?_⟩
  intro node pos h
  unfold compile at h
  cases hparse : parse source with
  | error e =>
    rw [hparse] at h
    cases h
  | ok ms =>
    simp only [hparse] at h
    cases hemit : (emit ms).result with
    | ok text => simp [hemit, Except.mapError] at h
    | error e =>
      simp only [hemit, Except.mapError, Except.error.injEq, CompileError.lowering.injEq] at h
      subst h
      exact misplaced_of_emit (supported_of_parse hparse) hemit

/-- A text that is read and then refused: the alternative of a condition holds a clocked
statement. -/
theorem compile_clocked_alternative :
    let source := "m(in c, out reg x)" ++ braced (" if c x = (c + 1) * c; else " ++ braced " @c x = 1; ")
    (∃ m, parse source = .ok [m] ∧ m.Supported) ∧
    ∃ node, compile source = .error (.lowering (.unsupported node ⟨1, 50⟩)) ∧ node = .nestedSequence := by
  intro source
  obtain ⟨hparse, -, hcompile⟩ := compile_unsupported_only_nested source
  have hread : (parse source).toOption.map List.length = some 1 := by decide +kernel
  have hrefused : compile source = .error (.lowering (.unsupported .nestedSequence ⟨1, 50⟩)) := by decide +kernel
  refine ⟨?_, _, hrefused, hcompile _ _ hrefused⟩
  cases hms : parse source with
  | error e => simp [hms, Except.toOption] at hread
  | ok ms =>
    obtain ⟨m, rfl⟩ : ∃ m, ms = [m] := by simpa [hms, Except.toOption, List.length_eq_one_iff] using hread
    exact ⟨m, rfl, hparse _ hms m (List.mem_singleton_self m)⟩

end Gateware

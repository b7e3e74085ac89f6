import Gateware.Proofs.Naming.Alignment

/- Names inside procedures.

   Lowering a statement inside a procedure hoists one line for each of its declarations, in order,
   and writes the name of the declaration that it denotes at each place where a name is used. This
   file

   1. says this of a step of the traversal (`Lowered`) and puts the facts of two steps in a row
      together (`Lowered.append`);
   2. states it of statements, of rows and of alternatives, with the number of the declarations
      before them as a parameter (`ContentsAligned`, `AllContentsAligned`, `BranchesAligned`);
   3. proves it of a statement in a frame of its own (`ContentsAligned.inFrame`), of conditions
      (`lowered_conditional`), assignments and declarations, and from these by recursion on the
      statement (`contents_aligned`). -/
namespace Gateware.Naming
open Lowering
open Verilog (Declaration)

/-- A step inside a procedure hoists the lines `new`, and writes names that stand for
the occurrences. -/
structure Lowered (lines new : List Declaration) (s s' : State) (occurrences : List Occurrence)
    (names : List String) : Prop extends Traversed lines new s s' where
  hoisted_eq : s'.hoisted = s.hoisted ++ new
  rendered : List.Forall₂ (Renders (lines ++ new)) occurrences names

/-- The names used in a statement whose frame is open already. -/
def insideOccurrences (env : Env) (number : Nat) : Stmt → List Occurrence
  | .block ⟨stmts, _, _⟩ => Stmt.allOccurrences env number stmts
  | s => s.occurrences env number

/-- What lowering a statement inside a procedure does to the names. After a statement
that is no block, the frames are those that the source has. -/
def ContentsAligned (procedure : Procedure) (x : Stmt) : Prop :=
  ∀ ⦃lines : List Declaration⦄ ⦃env : Env⦄ ⦃s s' : State⦄ ⦃vs : List Verilog.Stmt⦄,
    Aligned lines env s → Yields (contents procedure x) s vs s' →
    ∃ new, List.Forall₂ Declares x.declarations new ∧
      Lowered lines new s s' (insideOccurrences env lines.length x) (Verilog.Stmt.allNames vs) ∧
      (x.isBlock = false → Aligned (lines ++ new) (env.after lines.length x) s')

def AllContentsAligned (procedure : Procedure) (xs : List Stmt) : Prop :=
  ∀ ⦃lines : List Declaration⦄ ⦃env : Env⦄ ⦃s s' : State⦄ ⦃vs : List Verilog.Stmt⦄,
    Aligned lines env s → Yields (allContents procedure xs) s vs s' →
    ∃ new, List.Forall₂ Declares (Stmt.allDeclarations xs) new ∧
      Lowered lines new s s' (Stmt.allOccurrences env lines.length xs) (Verilog.Stmt.allNames vs)

/-- The same of the alternative of a condition, which leaves the scope as it was. -/
def BranchesAligned (procedure : Procedure) (x : Option Stmt) : Prop :=
  ∀ ⦃lines : List Declaration⦄ ⦃env : Env⦄ ⦃s s' : State⦄ ⦃b : Branches⦄,
    Aligned lines env s → Yields (branches procedure x) s b s' →
    ∃ new, List.Forall₂ Declares (Stmt.alternativeDeclarations x) new ∧
      Lowered lines new s s' (Stmt.alternativeOccurrences env lines.length x)
        (Verilog.Stmt.othersNames b.1 ++ Verilog.Stmt.otherwiseNames b.2) ∧
      Aligned (lines ++ new) env s'

variable {lines new new' : List Declaration} {env : Env} {s s₁ s' : State} {procedure : Procedure}

theorem Lowered.append {os os' : List Occurrence} {names names' : List String}
    (h : Lowered lines new s s₁ os names) (h' : Lowered (lines ++ new) new' s₁ s' os' names') :
    Lowered lines (new ++ new') s s' (os ++ os') (names ++ names') := by
  refine ⟨h.toTraversed.trans h'.toTraversed, ?_, ?_⟩
  · rw [h'.hoisted_eq, h.hoisted_eq, List.append_assoc]
  · exact rendered_append h.rendered h'.rendered

/-- A step that only uses names. -/
theorem Aligned.lowered {os : List Occurrence} {names : List String} (h : Aligned lines env s)
    (hrendered : List.Forall₂ (Renders lines) os names) : Lowered lines [] s s os names := by
  refine ⟨h.refl, (List.append_nil _).symm, ?_⟩
  rw [List.append_nil]
  exact hrendered

theorem allNames_append (vs ws : List Verilog.Stmt) :
    Verilog.Stmt.allNames (vs ++ ws) = Verilog.Stmt.allNames vs ++ Verilog.Stmt.allNames ws := by
  induction vs with
  | nil => rfl
  | cons v vs ih => simp only [List.cons_append, Verilog.Stmt.allNames, ih, List.append_assoc]

theorem allNames_singleton (v : Verilog.Stmt) : Verilog.Stmt.allNames [v] = v.names := by
  simp [Verilog.Stmt.allNames]

theorem occurrences_body (env : Env) (number : Nat) (x : Stmt) :
    x.occurrences (env.body x) number = insideOccurrences ([] :: env) number x := by
  cases x <;> rfl

theorem insideOccurrences_of_not_isBlock {x : Stmt} (hx : x.isBlock = false) (env : Env) (number : Nat) :
    insideOccurrences env number x = x.occurrences env number := by
  cases x with
  | block b => simp [Stmt.isBlock] at hx
  | _ => rfl

/-- A statement in a frame of its own leaves the scope as it was. -/
theorem ContentsAligned.inFrame {x : Stmt} (hx : ContentsAligned procedure x) {vs : List Verilog.Stmt}
    (h : Aligned lines env s) (hv : Yields (Lowering.inFrame (contents procedure x)) s vs s') :
    ∃ new, List.Forall₂ Declares x.declarations new ∧
      Lowered lines new s s' (x.occurrences (env.body x) lines.length) (Verilog.Stmt.allNames vs) ∧
      Aligned (lines ++ new) env s' := by
  obtain ⟨s₁, hs₁, rfl⟩ := yields_inFrame.mp hv
  obtain ⟨new, hdeclares, hlowered, -⟩ := hx h.enter hs₁
  obtain ⟨haligned, hscope⟩ := h.leave hlowered.toTraversed
  refine ⟨new, hdeclares, ⟨haligned.traversed ?_, hlowered.hoisted_eq, ?_⟩, haligned⟩
  · exact congrArg Scope.enclosing hscope
  · rw [occurrences_body]
    exact hlowered.rendered

/-- A condition, its body and its alternative, each after the declarations before it. -/
theorem lowered_conditional {cond : Expr} {body : Stmt} {alternative : Option Stmt}
    (hbody : ContentsAligned procedure body) (halternative : BranchesAligned procedure alternative)
    {c : Verilog.Expr} {vs : List Verilog.Stmt} {b : Branches} (h : Aligned lines env s)
    (hc : cond.lower s.scope = .ok c)
    (hv : Yields (Lowering.inFrame (contents procedure body)) s vs s₁)
    (hb : Yields (branches procedure alternative) s₁ b s') :
    ∃ new, List.Forall₂ Declares (body.declarations ++ Stmt.alternativeDeclarations alternative) new ∧
      Lowered lines new s s'
        (cond.operands.map env.occurrence ++ body.occurrences (env.body body) lines.length ++
          Stmt.alternativeOccurrences env (lines.length + body.declarations.length) alternative)
        (c.names ++ Verilog.Stmt.allNames vs ++
          (Verilog.Stmt.othersNames b.1 ++ Verilog.Stmt.otherwiseNames b.2)) ∧
      Aligned (lines ++ new) env s' := by
  have hcond := h.lowered (h.agrees.renders_lower cond hc)
  obtain ⟨new, hdeclares, hlowered, haligned⟩ := hbody.inFrame h hv
  obtain ⟨new', hdeclares', hlowered', haligned'⟩ := halternative haligned hb
  rw [List.length_append, ← hdeclares.length_eq] at hlowered'
  rw [List.append_assoc] at haligned'
  rw [← List.append_nil lines] at hlowered
  have hfirst := hcond.append hlowered
  rw [List.nil_append, List.append_nil] at hfirst
  exact ⟨new ++ new', List.rel_append hdeclares hdeclares', hfirst.append hlowered', haligned'⟩

/-! ## The traversal -/

theorem lowered_assign {kind : AssignKind} {lhs : Ident} {rhs : Expr} {v : Verilog.Stmt}
    (h : Aligned lines env s) (hv : Yields (procedural procedure kind lhs rhs) s v s') :
    Lowered lines [] s s' (env.occurrence lhs :: rhs.operands.map env.occurrence) v.names ∧ s' = s := by
  obtain ⟨target, value, htarget, hvalue, rfl, -, hkind⟩ := yields_procedural.mp hv
  have hrendered := List.Forall₂.cons (h.agrees.renders htarget) (h.agrees.renders_lower rhs hvalue)
  refine ⟨?_, rfl⟩
  cases kind with
  | plain =>
    subst hkind
    exact h.lowered hrendered
  | registered =>
    obtain ⟨-, rfl⟩ := hkind
    exact h.lowered hrendered

theorem lowered_decl {d : Decl} {pos : Position} {line : Declaration} (h : Aligned lines env s)
    (hv : Yields (declare d pos) s line s') :
    List.Forall₂ Declares (Stmt.decl d pos).declarations [line] ∧
      Aligned (lines ++ [line]) (env.after lines.length (.decl d pos)) s' ∧
      s'.scope.enclosing = s.scope.enclosing ∧ s'.hoisted = s.hoisted := by
  obtain ⟨signal, rfl, hsignal⟩ := yields_declare.mp hv
  obtain ⟨-, rfl, rfl⟩ := yields_declareSignal.mp hsignal
  exact ⟨.cons ⟨rfl, rfl⟩ .nil, h.declared signal, rfl, rfl⟩

mutual

theorem contents_aligned (procedure : Procedure) : ∀ x : Stmt, ContentsAligned procedure x
  | .decl d pos, lines, env, s, s', vs, h, hv => by
    simp only [contents, yields_bind, yields_modify, yields_pure] at hv
    obtain ⟨line, s₁, hline, _, _, rfl, rfl, rfl⟩ := hv
    obtain ⟨hdeclares, haligned, henclosing, hhoisted⟩ := lowered_decl h hline
    have haligned' : Aligned (lines ++ [line]) (env.after lines.length (.decl d pos))
        { s₁ with hoisted := s₁.hoisted ++ [line] } := ⟨haligned.used_eq, haligned.nodup, haligned.agrees⟩
    refine ⟨[line], hdeclares, ⟨haligned'.traversed henclosing, ?_, ?_⟩, fun _ => haligned'⟩
    · rw [hhoisted]
    · exact .nil
  | .assign kind lhs rhs pos, lines, env, s, s', vs, h, hv => by
    simp only [contents, yields_bind, yields_pure] at hv
    obtain ⟨v, s₁, hv, rfl, rfl⟩ := hv
    obtain ⟨hlowered, rfl⟩ := lowered_assign h hv
    rw [allNames_singleton]
    refine ⟨[], .nil, hlowered, fun _ => ?_⟩
    rw [List.append_nil]
    exact h
  | .sequence clock inner pos, lines, env, s, s', vs, h, hv => by
    rw [contents] at hv
    exact absurd hv not_yields_fail
  | .conditional cond body alternative pos, lines, env, s, s', vs, h, hv => by
    simp only [contents, yields_bind, yields_expression, yields_pure] at hv
    obtain ⟨c, _, ⟨hc, rfl⟩, ws, s₁, hbody, b, s₂, hbranches, rfl, rfl⟩ := hv
    obtain ⟨new, hdeclares, hlowered, haligned⟩ := lowered_conditional (contents_aligned procedure body)
      (branches_aligned procedure alternative) h hc hbody hbranches
    rw [allNames_singleton]
    exact ⟨new, hdeclares, hlowered, fun _ => haligned⟩
  | .block ⟨stmts, start, stop⟩, lines, env, s, s', vs, h, hv => by
    rw [contents] at hv
    obtain ⟨new, hdeclares, hlowered⟩ := allContents_aligned procedure stmts h hv
    exact ⟨new, hdeclares, hlowered, fun hblock => absurd hblock (by simp [Stmt.isBlock])⟩
  | .malformed pos, _, _, _, _, _, _, hv => by rw [contents] at hv; exact absurd hv not_yields_fail
  | .expr e pos, _, _, _, _, _, _, hv => by rw [contents] at hv; exact absurd hv not_yields_fail
  | .result value pos, _, _, _, _, _, _, hv => by rw [contents] at hv; exact absurd hv not_yields_fail
  | .loop cond body pos, _, _, _, _, _, _, hv => by rw [contents] at hv; exact absurd hv not_yields_fail

theorem allContents_aligned (procedure : Procedure) : ∀ xs : List Stmt, AllContentsAligned procedure xs
  | [], lines, env, s, s', vs, h, hv => by
    rw [allContents] at hv
    obtain ⟨rfl, rfl⟩ := yields_pure.mp hv
    exact ⟨[], .nil, h.lowered .nil⟩
  | x :: xs, lines, env, s, s', vs, h, hv => by
    simp only [allContents, yields_bind, yields_pure] at hv
    obtain ⟨ws, s₁, hfirst, ws', s₂, hothers, rfl, rfl⟩ := hv
    -- a block is lowered in its frame; any other statement may declare a name for the rest
    have hx : ∃ new, List.Forall₂ Declares x.declarations new ∧
        Lowered lines new s s₁ (x.occurrences env lines.length) (Verilog.Stmt.allNames ws) ∧
        Aligned (lines ++ new) (env.after lines.length x) s₁ := by
      unfold delimit at hfirst
      split at hfirst
      · rename_i hblock
        obtain ⟨vs, s₂, hvs, hpure⟩ := yields_bind.mp hfirst
        obtain ⟨rfl, rfl⟩ := yields_pure.mp hpure
        obtain ⟨new, hdeclares, hlowered, haligned⟩ := (contents_aligned procedure x).inFrame h hvs
        have henv : env.body x = env := by rw [Env.body, if_pos hblock]
        have hafter : env.after lines.length x = env := by
          cases x with
          | block b => rfl
          | _ => simp [Stmt.isBlock] at hblock
        rw [henv] at hlowered
        rw [hafter, allNames_singleton]
        exact ⟨new, hdeclares, hlowered, haligned⟩
      · rename_i hblock
        have hblock : x.isBlock = false := by simpa using hblock
        obtain ⟨new, hdeclares, hlowered, haligned⟩ := contents_aligned procedure x h hfirst
        rw [insideOccurrences_of_not_isBlock hblock] at hlowered
        exact ⟨new, hdeclares, hlowered, haligned hblock⟩
    obtain ⟨new, hdeclares, hlowered, haligned⟩ := hx
    obtain ⟨new', hdeclares', hlowered'⟩ := allContents_aligned procedure xs haligned hothers
    rw [List.length_append, ← hdeclares.length_eq] at hlowered'
    rw [allNames_append]
    exact ⟨new ++ new', List.rel_append hdeclares hdeclares', hlowered.append hlowered'⟩

theorem branches_aligned (procedure : Procedure) : ∀ x : Option Stmt, BranchesAligned procedure x
  | none, lines, env, s, s', b, h, hv => by
    rw [branches] at hv
    obtain ⟨rfl, rfl⟩ := yields_pure.mp hv
    refine ⟨[], .nil, h.lowered .nil, ?_⟩
    rw [List.append_nil]
    exact h
  | some x, lines, env, s, s', b, h, hv => by
    have hx := contents_aligned procedure x
    cases x with
    | conditional cond body alternative pos =>
      simp only [branches, yields_bind, yields_expression, yields_pure] at hv
      obtain ⟨c, _, ⟨hc, rfl⟩, ws, s₁, hbody, b', s₂, hbranches, rfl, rfl⟩ := hv
      -- in the source the condition stands in a frame of its own, which stays empty
      obtain ⟨new, hdeclares, hlowered, haligned⟩ := lowered_conditional (contents_aligned procedure body)
        (branches_aligned procedure alternative) h.frame hc hbody hbranches
      have henv : env.body (.conditional cond body alternative pos) = [] :: env := rfl
      refine ⟨new, hdeclares, ?_, ⟨haligned.used_eq, haligned.nodup, haligned.agrees⟩⟩
      simp only [Stmt.alternativeOccurrences, Stmt.occurrences, henv, Verilog.Stmt.othersNames,
        List.append_assoc] at hlowered ⊢
      exact hlowered
    | _ =>
      simp only [branches, yields_bind, yields_pure] at hv
      obtain ⟨ws, s₁, hws, rfl, rfl⟩ := hv
      exact hx.inFrame h hws

end

end Gateware.Naming

import Gateware.Compile
import Gateware.Proofs.Checking.FirstFault
import Gateware.Proofs.Reading.Files

/- Every error points at the tokens it is about.

   This file

   1. says what it is for an error to point into a source text (`CompileError.PointsInto`): the end of
      the text is reported where the text ends, and every other error at a token of the right kind
      and with the right name. The name of a second declaration stands behind that of the first
      one, and so do their positions;
   2. takes errors of the reader from the tokens that were looked at (`SyntaxError.StandsIn`);
   3. takes errors of the lowering from the walk through the source that finds them: the frames of
      the walk hold signals whose names stand before the tokens that are still to come
      (`Frames.Precede`), so the faults of each part point into the text (`Term.allPointInto`,
      `StmtTree.allPointInto`, `ModuleTree.allPointInto`);
   4. concludes that every error of compilation points into its source text
      (`compile_error_points_into_source`).

   Positions in a source are counted in 32 bits. What is said of the order of two positions assumes
   that the text is short enough for these counters not to begin again (`Position.counters`); what
   is said of the tokens does not. -/
namespace Gateware
open Grammar

/-! ## What errors point at -/

/-- A token is an identifier with this name at this position. -/
structure Ident.StandsAt (id : Ident) (t : Token) : Prop where
  kind_eq : t.kind = .identifier
  text_eq : t.text = id.name
  pos_eq : t.pos = id.pos

def Ident.StandsIn (ts : List Token) (id : Ident) : Prop := ∃ t ∈ ts, id.StandsAt t

/-- The end of the text is reported where the text ends, and every other error of the reader
at a token of the text. -/
def SyntaxError.PointsInto (ts : List Token) (stop : Position) : SyntaxError → Prop
  | .endOfInput e => e.pos = stop
  | .unexpected _ received _ => received ∈ ts
  | .malformedWidth token => token ∈ ts
  | .tooDeep pos => ∃ t ∈ ts, t.pos = pos
  | .malformedExpression _ => False

/-- An unsupported part is reported at an at mark, and every other error of the lowering at
a name. The name of a second declaration stands behind that of the first one. -/
def LoweringError.PointsInto (ts : List Token) : LoweringError → Prop
  | .unsupported _ pos => ∃ t ∈ ts, t.kind = .atMark ∧ t.pos = pos
  | .undeclared id | .missingClock id | .storageMismatch id _ | .registeredInCombinational id => id.StandsIn ts
  | .duplicate id first => ∃ t u, Ident.StandsAt ⟨id.name, first⟩ t ∧ id.StandsAt u ∧ [t, u].Sublist ts

/-- Of two declarations, the first is at a smaller position, also if positions are held in
counters of 32 bits. -/
def LoweringError.Ordered : LoweringError → Prop
  | .duplicate id first => first < id.pos ∧ first.counters < id.pos.counters
  | _ => True

/-- An error points into a source text. Positions are counted in 32 bits and tell what comes
first as long as the counters do not begin again. -/
def CompileError.PointsInto (source : String) : CompileError → Prop
  | .reading e => e.PointsInto (Lexer.ofSource source).tokens.1 (Position.after source.toList)
  | .lowering e => e.PointsInto (Lexer.ofSource source).tokens.1 ∧ (source.length < 4294967295 → e.Ordered)

theorem Grammar.Word.standsAt (w : Word .identifier) : w.ident.StandsAt w.token := ⟨w.kind_eq, rfl, rfl⟩

theorem Grammar.Word.standsIn {ts : List Token} (w : Word .identifier) (h : w.token ∈ ts) : w.ident.StandsIn ts :=
  ⟨w.token, h, w.standsAt⟩

theorem LoweringError.PointsInto.ordered {source : String} {e : LoweringError}
    (h : e.PointsInto (Lexer.ofSource source).tokens.1) (hlength : source.length < 4294967295) : e.Ordered := by
  obtain ⟨hsorted, hbound, -⟩ := Lexer.tokens_ofSource source
  have hfits {t : Token} (ht : t ∈ (Lexer.ofSource source).tokens.1) :
      t.pos.line < UInt32.size ∧ t.pos.column < UInt32.size := by
    obtain ⟨hline, hcolumn⟩ := hbound t ht
    change _ < 4294967296 ∧ _ < 4294967296
    omega
  cases e with
  | duplicate id first =>
    obtain ⟨t, u, ht, hu, hsublist⟩ := h
    have hlt : t.pos < u.pos := (List.pairwise_cons.mp (hsorted.sublist hsublist)).1 u List.mem_cons_self
    have hcounters := Position.counters_lt_counters hlt (hfits (hsublist.subset List.mem_cons_self))
      (hfits (hsublist.subset (List.mem_cons_of_mem t List.mem_cons_self)))
    rw [ht.pos_eq, hu.pos_eq] at hlt hcounters
    exact ⟨hlt, hcounters⟩
  | _ => trivial

theorem SyntaxError.StandsIn.pointsInto {e : SyntaxError} {seen ts : List Token} (h : e.StandsIn seen)
    (hseen : seen ⊆ ts) (stop : Position) : e.PointsInto ts stop := by
  cases e with
  | unexpected construct received expected => exact hseen (List.mem_of_getLast? h)
  | malformedWidth token => exact hseen (List.mem_of_getLast? h)
  | tooDeep pos =>
    obtain ⟨t, ht, hpos⟩ := h
    exact ⟨t, hseen ht, hpos⟩
  | endOfInput => exact h.elim
  | malformedExpression => exact h

/-! ## Signals that are in reach -/

/-- The tokens `u` of a text are still to come: the signals in reach have names and clocks of
the text, and their names stand before these tokens. -/
structure Frames.Precede (frames : Frames) (ts u : List Token) : Prop where
  within : u.Sublist ts
  known : ∀ frame ∈ frames, ∀ s ∈ frame, (∃ w, s.name.StandsAt w ∧ ∀ t ∈ u, [w, t].Sublist ts) ∧
    ∀ c ∈ s.clock, c.name.StandsIn ts

namespace Frames.Precede
variable {frames : Frames} {ts u v : List Token}

theorem sublist (h : frames.Precede ts u) (hv : v.Sublist u) : frames.Precede ts v := by
  refine ⟨hv.trans h.within, ?_⟩
  intro frame hframe s hs
  obtain ⟨⟨w, hname, hbefore⟩, hclock⟩ := h.known frame hframe s hs
  exact ⟨⟨w, hname, fun t ht => hbefore t (hv.subset ht)⟩, hclock⟩

theorem enter (h : frames.Precede ts u) : Precede ([] :: frames) ts u := by
  refine ⟨h.within, ?_⟩
  intro frame hframe s hs
  rcases List.mem_cons.mp hframe with rfl | hframe
  · cases hs
  · exact h.known frame hframe s hs

theorem body (h : frames.Precede ts u) (s : Stmt) : (frames.body s).Precede ts u := by
  unfold Frames.body
  split
  · exact h
  · exact h.enter

theorem alternative (h : frames.Precede ts u) (s : Stmt) : (frames.alternative s).Precede ts u := by
  cases s with
  | conditional => exact h
  | _ => exact h.body _

/-- A signal that is declared by some of the tokens is in reach for those behind them. -/
theorem declare (h : frames.Precede ts (u ++ v)) {tail : TailTree} (htail : tail.tokens ⊆ u)
    (word : Option (Word .storage)) : (frames.declare (tail.value word)).Precede ts v := by
  have hv := h.sublist (List.sublist_append_right u v)
  refine ⟨hv.within, ?_⟩
  have hname : tail.name.token ∈ u := htail (by simp [TailTree.tokens])
  have hsignal : (∃ w, (tail.value word).name.StandsAt w ∧ ∀ t ∈ v, [w, t].Sublist ts) ∧
      ∀ c ∈ (tail.value word).clock, c.name.StandsIn ts := by
    refine ⟨⟨tail.name.token, tail.name.standsAt, ?_⟩, ?_⟩
    · intro t ht
      have hpair := (List.singleton_sublist.mpr hname).append (List.singleton_sublist.mpr ht)
      exact hpair.trans h.within
    · intro c hc
      obtain ⟨clock, hclock, rfl⟩ := Option.map_eq_some_iff.mp hc
      have hmem : clock.name.token ∈ u := htail (by simp [TailTree.tokens, hclock, ClockTree.tokens])
      exact clock.name.standsIn (h.within.subset (List.mem_append_left v hmem))
  intro frame hframe s hs
  rcases List.mem_cons.mp hframe with rfl | hframe
  · rcases List.mem_cons.mp hs with rfl | hs
    · exact hsignal
    · cases frames with
      | nil => cases hs
      | cons innermost outer => exact hv.known innermost List.mem_cons_self s hs
  · exact hv.known frame (List.mem_of_mem_tail hframe) s hs

/-- A signal that is found has a clock of the text. -/
theorem clock_of_lookup (h : frames.Precede ts u) {name : String} {s : Signal} (hs : frames.lookup name = some s) :
    ∀ c ∈ s.clock, c.name.StandsIn ts := by
  obtain ⟨frame, hframe, hfind⟩ := List.exists_of_findSome?_eq_some hs
  exact (h.known frame hframe s (List.mem_of_find?_eq_some hfind)).2

end Frames.Precede

/-! ## Operators -/

/-- The operators that join operands. -/
def Operator.joining : List Operator :=
  [.add, .sub, .mul, .div, .leftShift, .rightShift, .equals, .greaterEq, .lessEq, .greater, .less]

theorem Operator.mem_joining_iff (op : Operator) : op ∈ joining ↔ ∃ v, op.toVerilog? = some v := by
  cases op <;> simp [joining, toVerilog?]

theorem Grammar.Sign.op_mem_joining (s : Sign) : s.op ∈ Operator.joining := by
  have hall : ∀ row ∈ table, row.2.1 ∈ Operator.joining := by decide
  exact hall _ s.listed

/-! ## Faults of parts -/

/-- All of some faults point into the text. -/
def AllPointInto (ts : List Token) (faults : List LoweringError) : Prop := ∀ e ∈ faults, e.PointsInto ts

section
variable {frames : Frames} {ts u : List Token}

theorem allPointInto_nil : AllPointInto ts [] := fun _ he => absurd he List.not_mem_nil

theorem AllPointInto.append {fs gs : List LoweringError} (hf : AllPointInto ts fs) (hg : AllPointInto ts gs) :
    AllPointInto ts (fs ++ gs) := by
  intro e he
  rcases List.mem_append.mp he with he | he
  · exact hf e he
  · exact hg e he

theorem allPointInto_singleton {e : LoweringError} (h : e.PointsInto ts) : AllPointInto ts [e] :=
  fun _ he => List.mem_singleton.mp he ▸ h

theorem allPointInto_unresolved {id : Ident} (h : id.StandsIn ts) : AllPointInto ts (frames.unresolved id) := by
  unfold Frames.unresolved
  split
  · exact allPointInto_nil
  · exact allPointInto_singleton h

theorem Frames.Precede.redeclared (h : frames.Precede ts u) {tail : TailTree} (htail : tail.tokens ⊆ u)
    (word : Option (Word .storage)) : AllPointInto ts (frames.redeclared (tail.value word)) := by
  unfold Frames.redeclared
  split
  · rename_i first hfind
    have hname : tail.name.token ∈ u := htail (by simp [TailTree.tokens])
    have hsame : first.name.name = (tail.value word).name.name := by simpa using List.find?_some hfind
    obtain ⟨frame, hframe, hfirst⟩ : ∃ frame ∈ frames, first ∈ frame := by
      cases frames with
      | nil => cases hfind
      | cons innermost outer => exact ⟨innermost, List.mem_cons_self, List.mem_of_find?_eq_some hfind⟩
    obtain ⟨⟨w, hw, hbefore⟩, -⟩ := h.known frame hframe first hfirst
    exact allPointInto_singleton ⟨w, tail.name.token, ⟨hw.kind_eq, hw.text_eq.trans hsame, hw.pos_eq⟩,
      tail.name.standsAt, hbefore _ hname⟩
  · exact allPointInto_nil

/-- Only names are at fault in an expression that was read. -/
theorem Grammar.Term.allPointInto : ∀ (t : Term), t.tokens ⊆ ts → AllPointInto ts (t.toExpr.faults frames)
  | .name w, h => by
    rw [Term.toExpr, Expr.faults]
    exact allPointInto_unresolved (w.standsIn (h (by simp [Term.tokens])))
  | .number w, _ => by
    rw [Term.toExpr, Expr.faults]
    exact allPointInto_nil
  | .group opening inner closing, h => inner.allPointInto fun t ht => h (by simp [Term.tokens, ht])
  | .join lhs sign rhs, h => by
    obtain ⟨v, hv⟩ := sign.op.mem_joining_iff.mp sign.op_mem_joining
    have hsign : sign.op ∉ [Operator.assign, .assignRegistered, .bracket] := by
      rw [← Checking.toVerilog?_eq_none_iff, hv]
      exact Option.some_ne_none v
    rw [Term.toExpr, Expr.faults, if_neg hsign, List.nil_append]
    exact (lhs.allPointInto fun t ht => h (by simp [Term.tokens, ht])).append
      (rhs.allPointInto fun t ht => h (by simp [Term.tokens, ht]))

theorem Frames.Precede.misassigned (h : frames.Precede ts u) {target : Word .identifier} (htarget : target.token ∈ u)
    {value : Term} (hvalue : value.tokens ⊆ u) (kind : AssignKind) (context : Context) :
    AllPointInto ts (frames.misassigned kind context target.ident value.toExpr) := by
  have hstands : target.ident.StandsIn ts := target.standsIn (h.within.subset htarget)
  apply (allPointInto_unresolved hstands).append
  apply (value.allPointInto fun t ht => h.within.subset (hvalue ht)).append
  cases hlookup : frames.lookup target.ident.name with
  | none => exact allPointInto_nil
  | some signal =>
    apply AllPointInto.append
    · unfold AssignKind.wrongStorage
      split
      · exact allPointInto_nil
      · exact allPointInto_singleton hstands
    · unfold Frames.unclocked
      split
      · exact allPointInto_nil
      · exact allPointInto_nil
      · exact allPointInto_singleton hstands
      · exact allPointInto_singleton hstands
      · exact allPointInto_unresolved (h.clock_of_lookup hlookup _ ‹_›)

end

/-! ## Statements -/

namespace Grammar.StmtTree
variable {ts : List Token}

/-- A statement declares at most what its tokens declare. -/
theorem precede_after {frames : Frames} {v : List Token} (x : StmtTree) (h : frames.Precede ts (x.tokens ++ v)) :
    (frames.after x.value).Precede ts v := by
  cases x with
  | decl storage tail semicolon =>
    apply h.declare
    intro t ht
    simp [tokens, ht]
  | _ => exact h.sublist (List.sublist_append_right _ _)

mutual

/-- The faults of a statement point into the text, if its tokens are still to come. -/
theorem allPointInto : ∀ (x : StmtTree) {frames : Frames} (context : Context), frames.Precede ts x.tokens →
    AllPointInto ts (x.value.faults frames context)
  | .assign target symbol value semicolon, frames, context, h => by
    rw [StmtTree.value, Stmt.faults]
    apply h.misassigned
    · simp [tokens]
    · intro t ht
      simp [tokens, ht]
  | .conditional word cond body, frames, context, h => by
    have hcond : AllPointInto ts (cond.toExpr.faults frames) :=
      cond.allPointInto fun t ht => h.within.subset (by simp [tokens, ht])
    have hbody := body.allPointInto context.inside ((h.sublist (by simp [tokens])).body body.value)
    rw [StmtTree.value, Stmt.faults, Stmt.alternativeFaults]
    exact hcond.append (hbody.append allPointInto_nil)
  | .choice word cond body other alternative, frames, context, h => by
    have hcond : AllPointInto ts (cond.toExpr.faults frames) :=
      cond.allPointInto fun t ht => h.within.subset (by simp [tokens, ht])
    have hinner : body.tokens <:+: (choice word cond body other alternative).tokens :=
      ⟨word.token :: cond.tokens, other.token :: alternative.tokens, by simp [tokens]⟩
    have hlast : alternative.tokens <:+ (choice word cond body other alternative).tokens :=
      ⟨word.token :: (cond.tokens ++ (body.tokens ++ [other.token])), by simp [tokens]⟩
    have hbody := body.allPointInto context.inside ((h.sublist hinner.sublist).body body.value)
    have halternative := alternative.allPointInto context.inside
      ((h.sublist hlast.sublist).alternative alternative.value)
    rw [StmtTree.value, Stmt.faults, Stmt.alternativeFaults]
    exact hcond.append (hbody.append halternative)
  | .block opening stmts closing, frames, context, h => by
    rw [StmtTree.value, Stmt.faults]
    exact allPointInto_all stmts context (h.sublist (by simp [tokens])).enter
  | .decl storage tail semicolon, frames, context, h => by
    rw [StmtTree.value, Stmt.faults]
    apply h.redeclared
    intro t ht
    simp [tokens, ht]
  | .sequence clock inner, frames, context, h => by
    have hmark : clock.mark.token ∈ ts := h.within.subset (by simp [tokens, ClockTree.tokens])
    have hname : clock.name.token ∈ ts := h.within.subset (by simp [tokens, ClockTree.tokens])
    rw [StmtTree.value]
    unfold Stmt.faults
    cases context with
    | continuous =>
      exact (allPointInto_unresolved (clock.name.standsIn hname)).append
        (inner.allPointInto .clocked ((h.sublist (by simp [tokens])).body inner.value))
    | combinational => exact allPointInto_singleton ⟨_, hmark, clock.mark.kind_eq, rfl⟩
    | clocked => exact allPointInto_singleton ⟨_, hmark, clock.mark.kind_eq, rfl⟩

theorem allPointInto_all : ∀ (xs : List StmtTree) {frames : Frames} (context : Context),
    frames.Precede ts (tokensAll xs) → AllPointInto ts (Stmt.allFaults frames context (valueAll xs))
  | [], _, _, _ => allPointInto_nil
  | x :: xs, frames, context, h => by
    rw [tokensAll] at h
    exact (x.allPointInto context (h.sublist (List.sublist_append_left _ _))).append
      (allPointInto_all xs context (x.precede_after h))

end

end Grammar.StmtTree

/-! ## Modules -/

namespace Grammar

/-- The tokens of the ports stand in this order in the list of ports. -/
theorem PortsTree.sublist_tokens (x : PortsTree) : (x.toList.flatMap PortTree.tokens).Sublist x.tokens := by
  unfold toList tokens
  cases x.ports with
  | none => simp
  | some p =>
    obtain ⟨first, others⟩ := p
    have hothers : ((others.map (·.2)).flatMap PortTree.tokens).Sublist
        (others.flatMap fun o => o.1.token :: o.2.tokens) := by
      induction others with
      | nil => exact List.Sublist.refl _
      | cons o others ih => exact ((List.Sublist.refl _).append ih).cons _
    apply List.Sublist.cons
    simp only [Option.map_some, Option.getD_some, List.flatMap_cons, separated]
    exact ((List.Sublist.refl _).append hothers).trans (List.sublist_append_left _ _)

theorem PortTree.allPointInto {ts v : List Token} : ∀ (ps : List PortTree) {frames : Frames},
    frames.Precede ts (ps.flatMap PortTree.tokens ++ v) →
    AllPointInto ts (Port.faults frames (ps.map PortTree.value)) ∧
      (frames.afterPorts (ps.map PortTree.value)).Precede ts v
  | [], _, h => ⟨allPointInto_nil, h⟩
  | p :: ps, frames, h => by
    rw [List.flatMap_cons, List.append_assoc] at h
    have htail : p.signal.tail.tokens ⊆ p.tokens := by
      intro t ht
      simp [tokens, SignalTree.tokens, ht]
    obtain ⟨hfaults, hafter⟩ := allPointInto ps (h.declare htail p.signal.storage)
    exact ⟨((h.sublist (List.sublist_append_left _ _)).redeclared htail p.signal.storage).append hfaults, hafter⟩

theorem ModuleTree.allPointInto {ts : List Token} {x : ModuleTree} (hx : x.tokens.Sublist ts) :
    AllPointInto ts x.value.faults := by
  let u := x.ports.toList.flatMap PortTree.tokens ++ StmtTree.tokensAll x.stmts
  have hu : u.Sublist x.tokens := by
    apply List.Sublist.cons
    exact x.ports.sublist_tokens.append (((List.sublist_append_left _ _)).cons _)
  have hstart : Frames.Precede [[]] ts u := by
    refine ⟨hu.trans hx, ?_⟩
    intro frame hframe s hs
    rw [List.mem_singleton.mp hframe] at hs
    cases hs
  obtain ⟨hports, hafter⟩ := PortTree.allPointInto x.ports.toList hstart
  exact hports.append (StmtTree.allPointInto_all x.stmts .continuous hafter.enter)

end Grammar

/-! ## Source texts -/

theorem mem_faults_of_emit {ms : List Module} {e : LoweringError} (h : (emit ms).result = .error e) :
    e ∈ ms.flatMap ModuleOf.faults := by
  have hemit : Checking.Meets (emit ms).result (ms.flatMap ModuleOf.faults) fun _ => True := by
    rw [emit, Report.result_bind]
    exact (Checking.meets_lowerModules ms).bind_ok fun _ _ => Checking.Meets.ok trivial
  exact List.mem_of_head? ((hemit.result_iff.2 e).mp h)

/-- Every error of compilation points at the tokens of the source text that it is about. -/
theorem compile_error_points_into_source {source : String} {e : CompileError} (h : compile source = .error e) :
    e.PointsInto source := by
  obtain ⟨-, -, hstop⟩ := Lexer.tokens_ofSource source
  unfold compile at h
  cases hparse : parse source with
  | error e' =>
    rw [hparse] at h
    obtain rfl := Except.error.inj h
    rcases TokenQueue.modules_eq_error hparse with heof | ⟨seen, rest, hts, he, -⟩
    · rw [heof]
      exact hstop
    · have hseen : seen ⊆ (Lexer.ofSource source).tokens.1 := by
        intro t ht
        rw [show (Lexer.ofSource source).tokens.1 = seen ++ rest from hts]
        exact List.mem_append_left rest ht
      exact he.pointsInto hseen _
  | ok ms =>
    rw [hparse] at h
    obtain ⟨f, hf, -, rfl⟩ := parse_eq_ok_iff.mp hparse
    cases hemit : (emit f.value).result with
    | ok text => simp [hemit, Except.mapError] at h
    | error e' =>
      simp only [hemit, Except.mapError, Except.error.injEq] at h
      subst h
      obtain ⟨m, hm, hfault⟩ := List.mem_flatMap.mp (mem_faults_of_emit hemit)
      obtain ⟨x, hx, rfl⟩ := List.mem_map.mp hm
      obtain ⟨before, after, hmodules⟩ := List.append_of_mem hx
      have hpart : x.tokens <:+: (Lexer.ofSource source).tokens.1 := by
        rw [← hf.tokens_eq, SourceTree.tokens, hmodules]
        exact ⟨before.flatMap ModuleTree.tokens, after.flatMap ModuleTree.tokens, by simp⟩
      have hpoints := ModuleTree.allPointInto hpart.sublist _ hfault
      exact ⟨hpoints, hpoints.ordered⟩

/-- A port that is declared again in the second line. -/
def twiceDeclared : String := "m(in a,\n  out a)" ++ braced ""

theorem compile_twice_declared :
    compile twiceDeclared = .error (.lowering (.duplicate ⟨"a", ⟨2, 7⟩⟩ ⟨1, 6⟩)) ∧
      CompileError.PointsInto twiceDeclared (.lowering (.duplicate ⟨"a", ⟨2, 7⟩⟩ ⟨1, 6⟩)) ∧
      twiceDeclared.length < 4294967295 := by
  have hcompile : compile twiceDeclared = .error (.lowering (.duplicate ⟨"a", ⟨2, 7⟩⟩ ⟨1, 6⟩)) := by
    decide +kernel
  exact ⟨hcompile, compile_error_points_into_source hcompile, by decide⟩

end Gateware

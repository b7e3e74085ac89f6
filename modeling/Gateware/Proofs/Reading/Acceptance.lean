import Gateware.Proofs.Reading.Files

/- What is written by the grammar is accepted up to the limits.

   The grammar has no limits on widths, nesting and the height of expressions; the readers have.
   This file

   1. says which errors are about a limit (`SyntaxError.IsLimit`), and of a reader that on the
      tokens between two queues it takes these tokens or reports a limit (`Passes`), and never a
      token that does not fit;
   2. proves that steps in a row pass if each of them does (`Passes.bind`);
   3. proves for each construct that the reader passes over the tokens of a derivation that is
      grouped as it should be (`passes_expression` to `passes_module`), for statements by induction
      on the number of levels that are left (`passes_stmt`);
   4. concludes that the tokens of a file are read as modules, or a limit is reported
      (`TokenQueue.modules_of_isFile`). -/
namespace Gateware

/-- A limit is exceeded: the text follows the grammar, but is too large. -/
def SyntaxError.IsLimit : SyntaxError → Prop
  | .malformedWidth _ | .tooDeep _ => True
  | .endOfInput _ | .unexpected .. | .malformedExpression _ => False

namespace Reader
open Grammar
variable {α β : Type} {q q₁ q' : TokenQueue}

/-- A reader takes the tokens between two queues, unless it meets a limit. -/
def Passes (r : Reader α) (q q' : TokenQueue) : Prop :=
  (∃ a, r q = .ok (a, q')) ∨ ∃ e, r q = .error e ∧ e.IsLimit

theorem passes_of_ok {r : Reader α} {a : α} (h : r q = .ok (a, q')) : Passes r q q' := .inl ⟨a, h⟩

theorem Passes.bind {x : Reader α} {f : α → Reader β} (hx : Passes x q q₁) (hf : ∀ a, Passes (f a) q₁ q') :
    Passes (x >>= f) q q' := by
  rcases hx with ⟨a, ha⟩ | ⟨e, he, hlimit⟩
  · unfold Passes
    rw [bind_of_ok ha]
    exact hf a
  · exact .inr ⟨e, bind_of_error he, hlimit⟩

/-- A step that is known to succeed, before another one. -/
theorem Passes.after_ok {x : Reader α} {f : α → Reader β} {a : α} (hx : x q = .ok (a, q₁))
    (hf : Passes (f a) q₁ q') : Passes (x >>= f) q q' := by
  unfold Passes
  rw [bind_of_ok hx]
  exact hf

theorem passes_pure (a : α) : Passes (pure a : Reader α) q q := passes_of_ok rfl

theorem passes_expect {kind : Token.Kind} (construct : Construct) (w : Word kind) :
    Passes (expect kind construct) (q.put [w.token]) q :=
  passes_of_ok (expect_eq_ok_iff.mpr ⟨w, rfl, rfl⟩)

/-- A proper term is read as an expression or is too high. -/
theorem passes_expression {t : Term} (ht : t.Proper) (hq : EndsBefore q.pending) :
    Passes expression (q.put t.tokens) q := by
  by_cases hheight : t.height ≤ Rpn.maxHeight
  · exact passes_of_ok (expression_tokens ht hheight hq q.stop)
  · obtain ⟨sign, -, herror⟩ := expression_tooDeep ht (Nat.lt_of_not_le hheight) hq q.stop
    exact .inr ⟨_, herror, trivial⟩

/-! ## Signals and ports -/

theorem width_of_not_within {w : WidthTree} (h : ¬w.Within) :
    width (q.put w.tokens) = .error (.malformedWidth w.literal.token) := by
  have hnone : bitWidth? w.literal.token.text = none := by
    rw [Option.eq_none_iff_forall_ne_some]
    intro n hn
    obtain ⟨-, hdigits, rfl, hlt⟩ := bitWidth?_eq_some_iff.mp hn
    exact h ⟨hdigits, hlt⟩
  have hopening : accept .leftBracket (q.put w.tokens) =
      .ok (some w.opening.token, q.put [w.literal.token, w.closing.token]) :=
    accept_eq_ok_iff.mpr (.inl ⟨w.opening, rfl, by simp [WidthTree.tokens]⟩)
  have hliteral : expect .literal .bitWidth (q.put [w.literal.token, w.closing.token]) =
      .ok (w.literal.token, q.put [w.closing.token]) := expect_eq_ok_iff.mpr ⟨w.literal, rfl, by simp⟩
  rw [width, bind_of_ok hopening]
  show (expect .literal .bitWidth >>= _) (q.put [w.literal.token, w.closing.token]) = _
  rw [bind_of_ok hliteral, hnone]
  rfl

theorem passes_signal (construct : Construct) (x : SignalTree) (hq : x.tail.clock = none → q.Ahead (· ≠ .atMark)) :
    Passes (signal construct) (q.put x.tokens) q := by
  by_cases hwithin : x.tail.Within
  · exact passes_of_ok (signal_eq_ok_iff.mpr ⟨x, hwithin, rfl, rfl, hq⟩)
  · -- only the width can be at fault, and it stands behind the storage
    obtain ⟨storage, width, name, clock⟩ := x
    obtain ⟨w, rfl, hw⟩ : ∃ w, width = some w ∧ ¬w.Within := by
      simpa [TailTree.Within] using hwithin
    let q₁ := (q.put (name.token :: (clock.map ClockTree.tokens).getD [])).put w.tokens
    have hstorage : accept .storage (q.put (SignalTree.tokens ⟨storage, some w, name, clock⟩)) =
        .ok (storage.map (·.token), q₁) := by
      apply accept_eq_ok_iff.mpr
      cases storage with
      | some word => exact .inl ⟨word, rfl, by simp [SignalTree.tokens, TailTree.tokens, Word.optional, q₁]⟩
      | none =>
        refine .inr ⟨rfl, by simp [SignalTree.tokens, TailTree.tokens, Word.optional, q₁], ?_⟩
        simp [q₁, WidthTree.tokens, w.opening.kind_eq]
    apply Passes.after_ok hstorage
    exact .inr ⟨_, bind_of_error (width_of_not_within hw), trivial⟩

theorem passes_port (x : PortTree) (hq : q.Ahead (· ≠ .atMark)) : Passes port (q.put x.tokens) q := by
  have hnext : next (q.put x.tokens) = .ok (x.direction.token, q.put x.signal.tokens) :=
    next_eq_ok_iff.mpr (by simp [PortTree.tokens])
  rw [port_eq]
  apply Passes.after_ok hnext
  rw [if_pos x.direction.kind_eq]
  exact (passes_signal .port x.signal fun _ => hq).bind fun _ => passes_pure _

theorem passes_portRounds (others : List (Word .comma × PortTree)) (first : PortTree) (closing : Word .rightParen)
    (read : List Port) :
    Passes (portRounds read) (q.put (PortsTree.separated first others ++ [closing.token])) q := by
  induction others generalizing first read with
  | nil =>
    let q₁ := q.put [closing.token]
    have hq₁ : q₁.Ahead (· ≠ .atMark) := by simp [q₁, closing.kind_eq]
    have hport := passes_port first hq₁
    rw [portRounds_eq]
    simp only [PortsTree.separated, List.flatMap_nil, List.append_nil, ← TokenQueue.put_put]
    apply hport.bind
    intro p
    apply Passes.after_ok (next_eq_ok_iff.mpr rfl)
    rw [closing.kind_eq]
    exact passes_pure _
  | cons second others ih =>
    obtain ⟨comma, second⟩ := second
    let q₂ := q.put (PortsTree.separated second others ++ [closing.token])
    have hq₁ : (q₂.put [comma.token]).Ahead (· ≠ .atMark) := by simp [comma.kind_eq]
    have hqueue : q.put (PortsTree.separated first ((comma, second) :: others) ++ [closing.token]) =
        (q₂.put [comma.token]).put first.tokens := by simp [PortsTree.separated, q₂]
    rw [portRounds_eq, hqueue]
    apply (passes_port first hq₁).bind
    intro p
    apply Passes.after_ok (next_eq_ok_iff.mpr rfl)
    rw [comma.kind_eq]
    exact ih second (p :: read)

theorem passes_ports (x : PortsTree) : Passes ports (q.put x.tokens) q := by
  obtain ⟨opening, ports, closing⟩ := x
  cases ports with
  | none =>
    apply passes_of_ok
    exact ports_eq_ok_iff.mpr ⟨⟨opening, none, closing⟩, by simp [PortsTree.toList], rfl, rfl⟩
  | some p =>
    obtain ⟨first, others⟩ := p
    let q₁ := q.put (PortsTree.separated first others ++ [closing.token])
    have hfirst : q₁.Ahead (· ≠ .rightParen) := by
      simp [q₁, PortsTree.separated, PortTree.tokens, first.direction.kind_eq]
    have hqueue : q.put (PortsTree.tokens ⟨opening, some (first, others), closing⟩) = q₁.put [opening.token] := by
      simp [PortsTree.tokens, q₁]
    rw [hqueue]
    apply (passes_expect .portList opening).bind
    intro _
    apply Passes.after_ok (accept_eq_ok_iff.mpr (.inr ⟨rfl, rfl, hfirst⟩))
    exact passes_portRounds others first closing []

/-! ## Statements -/

/-- A reader of statements passes over every grouped statement. After one that could go on with
`else` there is none. -/
def PassesStmts (r : Reader Stmt) : Prop :=
  ∀ (x : StmtTree) (q : TokenQueue), x.Everywhere StmtTree.Grouped → (x.Open → q.Ahead (· ≠ .elseWord)) →
    Passes r (q.put x.tokens) q

theorem passes_no_alternative {r : Reader Stmt} (hq : q.Ahead (· ≠ .elseWord)) : Passes (alternative r) q q :=
  Passes.after_ok (accept_eq_ok_iff.mpr (.inr ⟨rfl, rfl, hq⟩)) (passes_pure none)

section
variable {r : Reader Stmt} (hr : PassesStmts r)
include hr

theorem passes_stmtRounds (hconsumes : Consumes r) (xs : List StmtTree)
    (hxs : StmtTree.EverywhereAll StmtTree.Grouped xs) (hq : q.Ahead (· = .rightBrace)) (read : List Stmt) :
    Passes (stmtRounds r read) (q.put (StmtTree.tokensAll xs)) q := by
  induction xs generalizing read with
  | nil =>
    obtain ⟨t, ht, hk⟩ := hq
    rw [stmtRounds_eq hconsumes]
    apply Passes.after_ok (nextIs_eq_ok_iff.mpr ⟨rfl, t, ht, rfl⟩)
    simp only [hk, beq_self_eq_true, if_true]
    exact passes_pure _
  | cons x xs ih =>
    obtain ⟨hx, hxs⟩ := hxs
    let q₁ := q.put (StmtTree.tokensAll xs)
    have hqueue : q.put (StmtTree.tokensAll (x :: xs)) = q₁.put x.tokens := by simp [StmtTree.tokensAll, q₁]
    have hnext : nextIs .rightBrace (q₁.put x.tokens) = .ok (false, q₁.put x.tokens) := by
      refine nextIs_eq_ok_iff.mpr ⟨rfl, ?_⟩
      exact StmtTree.ahead_put (by decide) q₁ x
    rw [stmtRounds_eq hconsumes, hqueue]
    apply Passes.after_ok hnext
    apply (hr x q₁ hx fun _ => StmtTree.ahead_put_tokensAll hq xs).bind
    intro s
    exact ih hxs (s :: read)

theorem passes_block (hconsumes : Consumes r) (opening : Word .leftBrace) {xs : List StmtTree}
    (hxs : StmtTree.EverywhereAll StmtTree.Grouped xs) (closing : Word .rightBrace) :
    Passes (block r) (q.put (StmtTree.block opening xs closing).tokens) q := by
  let q₁ := q.put [closing.token]
  have hqueue : q.put (StmtTree.block opening xs closing).tokens =
      (q₁.put (StmtTree.tokensAll xs)).put [opening.token] := by simp [StmtTree.tokens, q₁]
  rw [block_eq, hqueue]
  apply (passes_expect .block opening).bind
  intro _
  apply (passes_stmtRounds hr hconsumes xs hxs (by simp [q₁, closing.kind_eq]) []).bind
  intro _
  exact (passes_expect .block closing).bind fun _ => passes_pure _

theorem passes_alternative (other : Word .elseWord) {x : StmtTree} (hx : x.Everywhere StmtTree.Grouped)
    (hfollows : x.FollowsElse) (hopen : x.Open → q.Ahead (· ≠ .elseWord)) :
    Passes (alternative r) (q.put (other.token :: x.tokens)) q := by
  obtain ⟨t, ts, htokens, hfirst⟩ := x.head_tokens
  have haccept : accept .elseWord (q.put (other.token :: x.tokens)) = .ok (some other.token, q.put x.tokens) :=
    accept_eq_ok_iff.mpr (.inl ⟨other, rfl, by simp⟩)
  have hpeek : peek (q.put x.tokens) = .ok (t, q.put x.tokens) :=
    peek_eq_ok_iff.mpr ⟨rfl, by simp [htokens]⟩
  have hread : Passes (some <$> r) (q.put x.tokens) q := (hr x q hx hopen).bind fun _ => passes_pure _
  apply Passes.after_ok haccept
  apply Passes.after_ok hpeek
  rcases x.followsElse_iff.mp hfollows with hkind | hkind
  · rw [hfirst, hkind]
    exact hread
  · rw [hfirst, hkind]
    exact hread

theorem passes_conditional (word : Word .ifWord) {cond : Term} (hcond : cond.Proper) {body : StmtTree}
    (hbody : body.Everywhere StmtTree.Grouped) (hq₁ : body.Open → q₁.Ahead (· ≠ .elseWord))
    (halternative : Passes (alternative r) q₁ q) :
    Passes (conditional r) (q₁.put (word.token :: (cond.tokens ++ body.tokens))) q := by
  have hqueue : q₁.put (word.token :: (cond.tokens ++ body.tokens)) =
      ((q₁.put body.tokens).put cond.tokens).put [word.token] := by simp
  rw [hqueue]
  apply (passes_expect .conditional word).bind
  intro _
  apply (passes_expression hcond (body.endsBefore _)).bind
  intro _
  apply (hr body q₁ hbody hq₁).bind
  intro _
  exact halternative.bind fun _ => passes_pure _

end

theorem passes_assignment (target : Word .identifier) (symbol : Word .assign) {value : Term} (hvalue : value.Proper)
    (semicolon : Word .endOfStatement) :
    Passes assignment (q.put (StmtTree.assign target symbol value semicolon).tokens) q := by
  let q₁ := q.put [semicolon.token]
  have hqueue : q.put (StmtTree.assign target symbol value semicolon).tokens =
      ((q₁.put value.tokens).put [symbol.token]).put [target.token] := by simp [StmtTree.tokens, q₁]
  rw [hqueue]
  apply Passes.after_ok (ident_eq_ok_iff.mpr ⟨target, rfl, rfl⟩)
  apply (passes_expect .assignment symbol).bind
  intro _
  apply (passes_expression hvalue ⟨semicolon.token, rfl, by rw [semicolon.kind_eq]; rfl⟩).bind
  intro _
  exact (passes_expect .assignment semicolon).bind fun _ => passes_pure _

theorem passes_declaration (storage : Word .storage) (tail : TailTree) (semicolon : Word .endOfStatement) :
    Passes declaration (q.put (StmtTree.decl storage tail semicolon).tokens) q := by
  let q₁ := q.put [semicolon.token]
  have hqueue : q.put (StmtTree.decl storage tail semicolon).tokens =
      q₁.put (SignalTree.tokens ⟨some storage, tail⟩) := by
    simp [StmtTree.tokens, SignalTree.tokens, Word.optional, q₁]
  rw [hqueue]
  apply Passes.after_ok (peek_eq_ok_iff.mpr ⟨rfl, rfl⟩)
  apply (passes_signal .declaration ⟨some storage, tail⟩ fun _ => by simp [q₁, semicolon.kind_eq]).bind
  intro _
  exact (passes_expect .declaration semicolon).bind fun _ => passes_pure _

theorem passes_stmt (levels : Nat) : PassesStmts (stmt levels) := by
  induction levels with
  | zero =>
    intro x q _ _
    obtain ⟨t, ts, htokens, -⟩ := x.head_tokens
    apply Passes.after_ok (peek_eq_ok_iff.mpr ⟨rfl, by rw [TokenQueue.pending_put, htokens]; rfl⟩)
    exact .inr ⟨_, rfl, trivial⟩
  | succ levels ih =>
    intro x q hx hopen
    obtain ⟨t, ts, htokens, hfirst⟩ := x.head_tokens
    -- the first token chooses the reader of the form that the tree has
    apply Passes.after_ok (peek_eq_ok_iff.mpr ⟨rfl, by rw [TokenQueue.pending_put, htokens]; rfl⟩)
    rw [hfirst]
    cases x with
    | assign target symbol value semicolon => exact passes_assignment target symbol hx semicolon
    | conditional word cond body =>
      obtain ⟨hcond, hbody⟩ := hx
      exact passes_conditional ih word hcond hbody (fun _ => hopen trivial) (passes_no_alternative (hopen trivial))
    | choice word cond body other alternative =>
      obtain ⟨⟨hcond, hclosed, hfollows⟩, hbody, halternative⟩ := hx
      have hqueue : q.put (StmtTree.choice word cond body other alternative).tokens =
          (q.put (other.token :: alternative.tokens)).put (word.token :: (cond.tokens ++ body.tokens)) := by
        simp [StmtTree.tokens]
      rw [hqueue]
      exact passes_conditional ih word hcond hbody (fun h => absurd h hclosed)
        (passes_alternative ih other halternative hfollows hopen)
    | block opening stmts closing =>
      exact (passes_block ih (consumes_stmt levels) opening hx.2 closing).bind fun _ => passes_pure _
    | decl storage tail semicolon => exact passes_declaration storage tail semicolon
    | sequence clock inner =>
      have hclock : Reader.clock ((q.put inner.tokens).put clock.tokens) = .ok (clock.value, q.put inner.tokens) :=
        clock_eq_ok_iff.mpr ⟨clock, rfl, rfl⟩
      rw [TokenQueue.put_put] at hclock
      apply Passes.after_ok (peek_eq_ok_iff.mpr ⟨rfl, rfl⟩)
      apply Passes.after_ok hclock
      exact (ih inner q hx.2 hopen).bind fun _ => passes_pure _

theorem passes_module {x : ModuleTree} (hx : x.Grouped) : Passes module (q.put x.tokens) q := by
  let q₁ := q.put (StmtTree.block x.opening x.stmts x.closing).tokens
  have hqueue : q.put x.tokens = (q₁.put x.ports.tokens).put [x.name.token] := by simp [ModuleTree.tokens, q₁]
  rw [hqueue]
  apply Passes.after_ok (ident_eq_ok_iff.mpr ⟨x.name, rfl, rfl⟩)
  apply (passes_ports x.ports).bind
  intro _
  exact (passes_block (passes_stmt maxNesting) (consumes_stmt maxNesting) x.opening
    (StmtTree.everywhereAll_iff.mpr hx) x.closing).bind fun _ => passes_pure _

end Reader

open Grammar

/-- The tokens of a file are read as modules, or a limit is reported. -/
theorem TokenQueue.modules_of_isFile {ts : List Token} (h : IsFile ts) (stop : Position) :
    (∃ ms, modules ⟨ts, stop⟩ = .ok ms) ∨ ∃ e, modules ⟨ts, stop⟩ = .error e ∧ e.IsLimit := by
  obtain ⟨⟨xs⟩, hgrouped, rfl⟩ := isFile_iff.mp h
  clear h
  induction xs with
  | nil => exact .inl ⟨[], rfl⟩
  | cons x xs ih =>
    let q : TokenQueue := ⟨xs.flatMap ModuleTree.tokens, stop⟩
    have hpasses : Reader.Passes Reader.module (q.put x.tokens) q := Reader.passes_module (hgrouped x (by simp))
    show (∃ ms, (q.put x.tokens).modules = .ok ms) ∨ ∃ e, (q.put x.tokens).modules = .error e ∧ e.IsLimit
    rcases hpasses with ⟨m, hm⟩ | ⟨e, he, hlimit⟩
    · rw [modules_of_ok hm]
      rcases ih fun y hy => hgrouped y (List.mem_cons_of_mem x hy) with ⟨ms, hms⟩ | ⟨e, he, hlimit⟩
      · left
        exact ⟨m :: ms, by rw [show q.modules = .ok ms from hms]; rfl⟩
      · right
        exact ⟨e, by rw [show q.modules = .error e from he]; rfl, hlimit⟩
    · right
      exact ⟨e, modules_of_error (by simp [ModuleTree.tokens]) he, hlimit⟩

end Gateware

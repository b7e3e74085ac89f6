import Gateware.Proofs.Grammar.Signal
import Gateware.Syntax.Stmt

/- The grammar of statements.

   A `StmtTree` is a derivation of a statement: one constructor for each rule, holding the words
   and the parts in the order in which they are written. This file

   1. defines the trees, their tokens and the statements that they stand for;
   2. states what is asked everywhere in a tree: expressions are grouped by precedence and every
      `else` belongs to the nearest `if` (`Grouped`), and widths and heights of expressions are
      within their limits (`Bounded`); the limit on nesting is on `depth`. `Fits` is all of these
      together, with one lemma for each rule (`fits_assign` to `fits_sequence`);
   3. proves which tokens can begin a statement (`head_tokens`), so that expressions, `else` and
      closing braces are told apart by one token;
   4. gives one equivalence for each reader, with the reader of the inner statements as a parameter
      that is known to follow the grammar (`Reads`);
   5. concludes by induction on the levels that the reader of statements succeeds exactly on the
      tokens of the trees that fit (`Reader.stmt_reads`). -/
namespace Gateware

namespace Grammar

/-- A statement with the words it is made of. -/
inductive StmtTree where
  /-- `IDENT ('=' | '<-') expr ';'` -/
  | assign (target : Word .identifier) (symbol : Word .assign) (value : Term)
      (semicolon : Word .endOfStatement)
  /-- `'if' expr stmt` -/
  | conditional (word : Word .ifWord) (cond : Term) (body : StmtTree)
  /-- `'if' expr stmt 'else' stmt` -/
  | choice (word : Word .ifWord) (cond : Term) (body : StmtTree) (other : Word .elseWord)
      (alternative : StmtTree)
  /-- A block of statements between braces. -/
  | block (opening : Word .leftBrace) (stmts : List StmtTree) (closing : Word .rightBrace)
  /-- `STORAGE ('[' LITERAL ']')? IDENT clock? ';'` -/
  | decl (storage : Word .storage) (tail : TailTree) (semicolon : Word .endOfStatement)
  /-- `clock stmt` -/
  | sequence (clock : ClockTree) (inner : StmtTree)

namespace StmtTree

mutual

def tokens : StmtTree → List Token
  | .assign target symbol value semicolon =>
    target.token :: symbol.token :: (value.tokens ++ [semicolon.token])
  | .conditional word cond body => word.token :: (cond.tokens ++ body.tokens)
  | .choice word cond body other alternative =>
    word.token :: (cond.tokens ++ (body.tokens ++ other.token :: alternative.tokens))
  | .block opening stmts closing => opening.token :: (tokensAll stmts ++ [closing.token])
  | .decl storage tail semicolon => storage.token :: (tail.tokens ++ [semicolon.token])
  | .sequence clock inner => clock.tokens ++ inner.tokens

def tokensAll : List StmtTree → List Token
  | [] => []
  | x :: xs => x.tokens ++ tokensAll xs

end

/-- The way to assign that a symbol stands for. -/
def assignKind (symbol : Word .assign) : AssignKind :=
  if symbol.token.text = "<-" then .registered else .plain

mutual

/-- The statement that a tree stands for. A block stands between its braces, and every
other statement at its first token. -/
def value : StmtTree → Stmt
  | .assign target symbol value _ => .assign (assignKind symbol) target.ident value.toExpr target.token.pos
  | .conditional word cond body => .conditional cond.toExpr body.value none word.token.pos
  | .choice word cond body _ alternative =>
    .conditional cond.toExpr body.value (some alternative.value) word.token.pos
  | .block opening stmts closing => .block ⟨valueAll stmts, opening.token.pos, closing.token.pos⟩
  | .decl storage tail _ => .decl (.signal (tail.value (some storage))) storage.token.pos
  | .sequence clock inner => .sequence clock.value inner.value clock.mark.token.pos

def valueAll : List StmtTree → List Stmt
  | [] => []
  | x :: xs => x.value :: valueAll xs

end

mutual

/-- How deep statements are nested, this one counted. A block, a clocked statement and
a condition, for both of its branches, each add one. -/
def depth : StmtTree → Nat
  | .assign .. | .decl .. => 1
  | .conditional _ _ body => body.depth + 1
  | .choice _ _ body _ alternative => max body.depth alternative.depth + 1
  | .block _ stmts _ => depthAll stmts + 1
  | .sequence _ inner => inner.depth + 1

def depthAll : List StmtTree → Nat
  | [] => 0
  | x :: xs => max x.depth (depthAll xs)

end

mutual

/-- A property holds of a statement and of every statement in it. -/
def Everywhere (p : StmtTree → Prop) : StmtTree → Prop
  | .assign target symbol value semicolon => p (.assign target symbol value semicolon)
  | .conditional word cond body => p (.conditional word cond body) ∧ body.Everywhere p
  | .choice word cond body other alternative =>
    p (.choice word cond body other alternative) ∧ body.Everywhere p ∧ alternative.Everywhere p
  | .block opening stmts closing => p (.block opening stmts closing) ∧ EverywhereAll p stmts
  | .decl storage tail semicolon => p (.decl storage tail semicolon)
  | .sequence clock inner => p (.sequence clock inner) ∧ inner.Everywhere p

/-- A property holds of some statements and of every statement in them. -/
def EverywhereAll (p : StmtTree → Prop) : List StmtTree → Prop
  | [] => True
  | x :: xs => x.Everywhere p ∧ EverywhereAll p xs

end

/-- Whether an `else` after the statement would belong to it: it ends in an `if` that
has none. -/
def Open : StmtTree → Prop
  | .conditional .. => True
  | .choice _ _ _ _ alternative => alternative.Open
  | .sequence _ inner => inner.Open
  | .assign .. | .block .. | .decl .. => False

/-- Whether the statement may follow `else`: it is another `if` or a block. -/
def FollowsElse : StmtTree → Prop
  | .conditional .. | .choice .. | .block .. => True
  | .assign .. | .decl .. | .sequence .. => False

/-- Expressions are grouped by precedence, and an `else` belongs to the nearest `if`:
no `if` of the body before it is without one. -/
def Grouped : StmtTree → Prop
  | .assign _ _ value _ => value.Proper
  | .conditional _ cond _ => cond.Proper
  | .choice _ cond body _ alternative => cond.Proper ∧ ¬body.Open ∧ alternative.FollowsElse
  | .block .. | .decl .. | .sequence .. => True

/-- Expressions are not too high, and widths are decimal numbers below the bound. -/
def Bounded : StmtTree → Prop
  | .assign _ _ value _ => value.height ≤ 256
  | .conditional _ cond _ => cond.height ≤ 256
  | .choice _ cond _ _ _ => cond.height ≤ 256
  | .decl _ tail _ => tail.Within
  | .block .. | .sequence .. => True

/-! ## Lists of statements -/

theorem depthAll_le_iff {xs : List StmtTree} {n : Nat} : depthAll xs ≤ n ↔ ∀ x ∈ xs, x.depth ≤ n := by
  induction xs with
  | nil => simp [depthAll]
  | cons x xs ih => simp only [depthAll, Nat.max_le, ih, List.forall_mem_cons]

theorem everywhereAll_iff {p : StmtTree → Prop} {xs : List StmtTree} :
    EverywhereAll p xs ↔ ∀ x ∈ xs, x.Everywhere p := by
  induction xs with
  | nil => simp [EverywhereAll]
  | cons x xs ih => simp [EverywhereAll, ih]

/-! ## Where statements begin -/

/-- The kinds of token that begin a statement. -/
def starts : List Token.Kind := [.identifier, .ifWord, .leftBrace, .storage, .atMark]

def first : StmtTree → Token.Kind
  | .assign .. => .identifier
  | .conditional .. | .choice .. => .ifWord
  | .block .. => .leftBrace
  | .decl .. => .storage
  | .sequence .. => .atMark

theorem head_tokens (x : StmtTree) : ∃ t ts, x.tokens = t :: ts ∧ t.kind = x.first := by
  cases x with
  | assign target => exact ⟨target.token, _, rfl, target.kind_eq⟩
  | conditional word => exact ⟨word.token, _, rfl, word.kind_eq⟩
  | choice word => exact ⟨word.token, _, rfl, word.kind_eq⟩
  | block opening => exact ⟨opening.token, _, rfl, opening.kind_eq⟩
  | decl storage => exact ⟨storage.token, _, rfl, storage.kind_eq⟩
  | sequence clock => exact ⟨clock.mark.token, _, rfl, clock.mark.kind_eq⟩

theorem tokens_eq_cons (x : StmtTree) : ∃ t ts, x.tokens = t :: ts ∧ t.kind ∈ starts := by
  obtain ⟨t, ts, hx, hkind⟩ := x.head_tokens
  refine ⟨t, ts, hx, ?_⟩
  rw [hkind]
  cases x <;> simp [first, starts]

/-- A statement may follow `else` if it begins as an `if` or a block does. -/
theorem followsElse_iff (x : StmtTree) : x.FollowsElse ↔ x.first = .ifWord ∨ x.first = .leftBrace := by
  cases x <;> simp [FollowsElse, first]

/-- Every statement takes a token. -/
theorem length_le_tokensAll (xs : List StmtTree) : xs.length ≤ (tokensAll xs).length := by
  induction xs with
  | nil => exact Nat.le_refl 0
  | cons x xs ih =>
    obtain ⟨t, ts, hx, -⟩ := x.tokens_eq_cons
    rw [tokensAll, hx]
    simp only [List.length_cons, List.length_append]
    omega

/-- An expression ends before a statement. -/
theorem endsBefore (x : StmtTree) (rest : List Token) : EndsBefore (x.tokens ++ rest) := by
  obtain ⟨t, ts, hx, ht⟩ := x.tokens_eq_cons
  refine ⟨t, by rw [hx]; rfl, ?_⟩
  have hall : ∀ k ∈ starts, k.isOperator = false := by decide
  exact hall _ ht

/-- Before a statement stands what can stand before any of the tokens that begin one. -/
theorem ahead_put {p : Token.Kind → Prop} (hp : ∀ k ∈ starts, p k) (q : TokenQueue) (x : StmtTree) :
    (q.put x.tokens).Ahead p := by
  obtain ⟨t, ts, hx, ht⟩ := x.tokens_eq_cons
  rw [hx, TokenQueue.ahead_put_cons]
  exact hp _ ht

theorem ahead_put_tokensAll {q : TokenQueue} (hq : q.Ahead (· = .rightBrace)) (xs : List StmtTree) :
    (q.put (tokensAll xs)).Ahead (· ≠ .elseWord) := by
  cases xs with
  | nil =>
    obtain ⟨t, ht, hk⟩ := hq
    exact ⟨t, ht, by rw [hk]; decide⟩
  | cons x xs =>
    rw [tokensAll, ← TokenQueue.put_put]
    exact ahead_put (by decide) _ x

/-- The statement is grouped as it should be and within all limits, with at most the
given number of levels. -/
def Fits (levels : Nat) (x : StmtTree) : Prop :=
  x.Everywhere Grouped ∧ x.Everywhere Bounded ∧ x.depth ≤ levels

section
variable {levels : Nat}

theorem not_fits_zero (x : StmtTree) : ¬x.Fits 0 := by
  rintro ⟨-, -, hdepth⟩
  cases x <;> simp [depth] at hdepth

theorem fits_assign {target : Word .identifier} {symbol : Word .assign} {value : Term}
    {semicolon : Word .endOfStatement} : (StmtTree.assign target symbol value semicolon).Fits (levels + 1) ↔
      value.Proper ∧ value.height ≤ Rpn.maxHeight := by
  simp [Fits, Everywhere, Grouped, Bounded, depth, Rpn.maxHeight]

theorem fits_conditional {word : Word .ifWord} {cond : Term} {body : StmtTree} :
    (StmtTree.conditional word cond body).Fits (levels + 1) ↔
      cond.Proper ∧ cond.height ≤ Rpn.maxHeight ∧ body.Fits levels := by
  simp only [Fits, Everywhere, Grouped, Bounded, depth, Rpn.maxHeight, Nat.add_le_add_iff_right]
  exact ⟨fun ⟨⟨hc, hg⟩, ⟨hh, hb⟩, hd⟩ => ⟨hc, hh, hg, hb, hd⟩,
    fun ⟨hc, hh, hg, hb, hd⟩ => ⟨⟨hc, hg⟩, ⟨hh, hb⟩, hd⟩⟩

theorem fits_choice {word : Word .ifWord} {cond : Term} {body : StmtTree} {other : Word .elseWord}
    {alternative : StmtTree} : (StmtTree.choice word cond body other alternative).Fits (levels + 1) ↔
      cond.Proper ∧ cond.height ≤ Rpn.maxHeight ∧ body.Fits levels ∧ ¬body.Open ∧ alternative.Fits levels ∧
        alternative.FollowsElse := by
  simp only [Fits, Everywhere, Grouped, Bounded, depth, Rpn.maxHeight, Nat.add_le_add_iff_right, Nat.max_le]
  constructor
  · rintro ⟨⟨⟨hc, hclosed, hfollows⟩, hg, hg'⟩, ⟨hh, hb, hb'⟩, hd, hd'⟩
    exact ⟨hc, hh, ⟨hg, hb, hd⟩, hclosed, ⟨hg', hb', hd'⟩, hfollows⟩
  · rintro ⟨hc, hh, ⟨hg, hb, hd⟩, hclosed, ⟨hg', hb', hd'⟩, hfollows⟩
    exact ⟨⟨⟨hc, hclosed, hfollows⟩, hg, hg'⟩, ⟨hh, hb, hb'⟩, hd, hd'⟩

theorem fits_block {opening : Word .leftBrace} {stmts : List StmtTree} {closing : Word .rightBrace} :
    (StmtTree.block opening stmts closing).Fits (levels + 1) ↔ ∀ x ∈ stmts, x.Fits levels := by
  simp only [Fits, Everywhere, Grouped, Bounded, depth, Nat.add_le_add_iff_right, depthAll_le_iff,
    everywhereAll_iff, true_and, forall_and]

theorem fits_decl {storage : Word .storage} {tail : TailTree} {semicolon : Word .endOfStatement} :
    (StmtTree.decl storage tail semicolon).Fits (levels + 1) ↔ tail.Within := by
  simp [Fits, Everywhere, Grouped, Bounded, depth]

theorem fits_sequence {clock : ClockTree} {inner : StmtTree} :
    (StmtTree.sequence clock inner).Fits (levels + 1) ↔ inner.Fits levels := by
  simp [Fits, Everywhere, Grouped, Bounded, depth]

end

end StmtTree

end Grammar

/-! ## The readers -/

namespace Reader
open Grammar StmtTree
variable {q q' : TokenQueue}

/-- A reader succeeds exactly on the tokens of the trees with some property, and gives
what they stand for. After a statement that could go on with `else` there is none. -/
def Reads (r : Reader Stmt) (P : StmtTree → Prop) : Prop :=
  ∀ q s q', r q = .ok (s, q') ↔ ∃ x, P x ∧ q = q'.put x.tokens ∧ s = x.value ∧
    (x.Open → q'.Ahead (· ≠ .elseWord))

section
variable {r : Reader Stmt} {P : StmtTree → Prop} (hr : Reads r P)
include hr

/-- Each round reads one statement, and none begins with a brace that closes. -/
theorem stmtsUntilBrace_eq_ok_iff {budget : List Token} {read ss : List Stmt} :
    stmtsUntilBrace r budget read q = .ok (ss, q') ↔ ∃ xs : List StmtTree, xs.length ≤ budget.length ∧
      (∀ x ∈ xs, P x) ∧ q = q'.put (tokensAll xs) ∧ ss = read.reverse ++ valueAll xs ∧
      q'.Ahead (· = .rightBrace) := by
  induction budget generalizing q read with
  | nil =>
    unfold stmtsUntilBrace
    simp only [bind_eq_ok_iff, nextIs_eq_ok_iff]
    constructor
    · rintro ⟨b, q₁, ⟨rfl, hahead⟩, h⟩
      cases b with
      | false => exact absurd h refuse_ne_ok
      | true =>
        obtain ⟨rfl, rfl⟩ := pure_eq_ok_iff.mp h
        obtain ⟨t, ht, hk⟩ := hahead
        exact ⟨[], Nat.le_refl 0, by simp, rfl, by simp [valueAll], t, ht, by simpa using hk.symm⟩
    · rintro ⟨xs, hlen, hP, rfl, rfl, t, ht, hk⟩
      obtain rfl := List.length_eq_zero_iff.mp (Nat.le_zero.mp hlen)
      exact ⟨true, q', ⟨rfl, t, ht, by rw [hk]; rfl⟩, pure_eq_ok_iff.mpr ⟨by simp [valueAll], rfl⟩⟩
  | cons token budget ih =>
    unfold stmtsUntilBrace
    simp only [bind_eq_ok_iff, nextIs_eq_ok_iff]
    constructor
    · rintro ⟨b, q₁, ⟨rfl, hahead⟩, h⟩
      cases b with
      | false =>
        obtain ⟨s, q₂, hs, hrest⟩ := bind_eq_ok_iff.mp h
        obtain ⟨x, hx, rfl, rfl, -⟩ := (hr _ _ _).mp hs
        obtain ⟨xs, hlen, hxs, rfl, rfl, hbrace⟩ := ih.mp hrest
        refine ⟨x :: xs, Nat.succ_le_succ hlen, ?_, by rw [TokenQueue.put_put, tokensAll],
          by simp [valueAll], hbrace⟩
        intro y hy
        rcases List.mem_cons.mp hy with rfl | hy
        · exact hx
        · exact hxs y hy
      | true =>
        obtain ⟨rfl, rfl⟩ := pure_eq_ok_iff.mp h
        obtain ⟨t, ht, hk⟩ := hahead
        exact ⟨[], Nat.zero_le _, by simp, rfl, by simp [valueAll], t, ht, by simpa using hk.symm⟩
    · rintro ⟨xs, hlen, hP, rfl, rfl, hbrace⟩
      cases xs with
      | nil =>
        obtain ⟨t, ht, hk⟩ := hbrace
        exact ⟨true, _, ⟨rfl, t, ht, by rw [hk]; rfl⟩, pure_eq_ok_iff.mpr ⟨by simp [valueAll], rfl⟩⟩
      | cons x xs =>
        rw [tokensAll, ← TokenQueue.put_put]
        refine ⟨false, _, ⟨rfl, ahead_put (by decide) _ x⟩, ?_⟩
        refine bind_eq_ok_iff.mpr ⟨x.value, q'.put (tokensAll xs), (hr _ _ _).mpr ⟨x, hP x (by simp), rfl,
          rfl, fun _ => ahead_put_tokensAll hbrace xs⟩, ih.mpr ?_⟩
        exact ⟨xs, Nat.le_of_succ_le_succ hlen, fun y hy => hP y (by simp [hy]), rfl, by simp [valueAll],
          hbrace⟩

theorem block_eq_ok_iff {b : Block} :
    block r q = .ok (b, q') ↔ ∃ opening xs closing, (∀ x ∈ xs, P x) ∧
      q = q'.put (StmtTree.block opening xs closing).tokens ∧
      b = ⟨valueAll xs, opening.token.pos, closing.token.pos⟩ := by
  simp only [block, bind_eq_ok_iff, expect_eq_ok_iff, stmtsUntilBrace_eq_ok_iff hr]
  constructor
  · rintro ⟨_, q₁, ⟨opening, rfl, rfl⟩, budget, q₂, hpending, ss, q₃, ⟨xs, -, hxs, rfl, rfl, -⟩, _, q₄,
      ⟨closing, rfl, rfl⟩, h⟩
    obtain ⟨rfl, rfl⟩ := pure_eq_ok_iff.mp h
    cases hpending
    exact ⟨opening, xs, closing, hxs, by simp [tokens], by simp⟩
  · rintro ⟨opening, xs, closing, hxs, rfl, rfl⟩
    let q₃ := q'.put [closing.token]
    let q₁ := q₃.put (tokensAll xs)
    -- one token of the budget for each statement is enough
    have hbudget : xs.length ≤ q₁.pending.length := by
      have := length_le_tokensAll xs
      rw [TokenQueue.pending_put, List.length_append]
      omega
    refine ⟨_, q₁, ⟨opening, rfl, by simp [tokens, q₁, q₃]⟩, q₁.pending, q₁, rfl, _, q₃,
      ⟨xs, hbudget, hxs, rfl, rfl, ?_⟩, _, q', ⟨closing, rfl, rfl⟩, pure_eq_ok_iff.mpr ⟨by simp, rfl⟩⟩
    rw [TokenQueue.ahead_put_cons]
    exact closing.kind_eq

theorem alternative_eq_ok_iff {o : Option Stmt} :
    alternative r q = .ok (o, q') ↔
      (∃ (other : Word .elseWord) (x : StmtTree), P x ∧ x.FollowsElse ∧
        q = q'.put (other.token :: x.tokens) ∧ o = some x.value ∧ (x.Open → q'.Ahead (· ≠ .elseWord))) ∨
      (o = none ∧ q = q' ∧ q'.Ahead (· ≠ .elseWord)) := by
  simp only [alternative, bind_eq_ok_iff, accept_eq_ok_iff]
  constructor
  · rintro ⟨_, q₁, ⟨other, rfl, rfl⟩ | ⟨rfl, rfl, hahead⟩, h⟩
    · obtain ⟨t, q₂, hpeek, hread⟩ := bind_eq_ok_iff.mp h
      obtain ⟨rfl, ht⟩ := peek_eq_ok_iff.mp hpeek
      -- only these two kinds are read on
      have hkind : (some <$> r) q₂ = .ok (o, q') ∧ (t.kind = .ifWord ∨ t.kind = .leftBrace) := by
        cases hk : t.kind with
        | ifWord => rw [hk] at hread; exact ⟨hread, .inl rfl⟩
        | leftBrace => rw [hk] at hread; exact ⟨hread, .inr rfl⟩
        | _ => rw [hk] at hread; exact absurd hread refuse_ne_ok
      obtain ⟨hread, hkind⟩ := hkind
      obtain ⟨s, hs, rfl⟩ := map_eq_ok_iff.mp hread
      obtain ⟨x, hx, rfl, rfl, hopen⟩ := (hr _ _ _).mp hs
      refine .inl ⟨other, x, hx, ?_, by simp, rfl, hopen⟩
      obtain ⟨t', ts, hx', hfirst⟩ := x.head_tokens
      rw [TokenQueue.pending_put, hx', List.cons_append, List.head?_cons, Option.some.injEq] at ht
      rw [followsElse_iff, ← hfirst, ht]
      exact hkind
    · obtain ⟨rfl, rfl⟩ := pure_eq_ok_iff.mp h
      exact .inr ⟨rfl, rfl, hahead⟩
  · rintro (⟨other, x, hx, hfollows, rfl, rfl, hopen⟩ | ⟨rfl, rfl, hahead⟩)
    · refine ⟨_, q'.put x.tokens, .inl ⟨other, rfl, by simp⟩, ?_⟩
      have hs : (some <$> r) (q'.put x.tokens) = .ok (some x.value, q') :=
        map_eq_ok_iff.mpr ⟨x.value, (hr _ _ _).mpr ⟨x, hx, rfl, rfl, hopen⟩, rfl⟩
      obtain ⟨t, ts, hx', hfirst⟩ := x.head_tokens
      have hpeek : (q'.put x.tokens).pending.head? = some t := by
        rw [TokenQueue.pending_put, hx']
        rfl
      refine bind_eq_ok_iff.mpr ⟨t, _, peek_eq_ok_iff.mpr ⟨rfl, hpeek⟩, ?_⟩
      rcases x.followsElse_iff.mp hfollows with hkind | hkind
      · rw [hfirst, hkind]
        exact hs
      · rw [hfirst, hkind]
        exact hs
    · exact ⟨none, q, .inr ⟨rfl, rfl, hahead⟩, pure_eq_ok_iff.mpr ⟨rfl, rfl⟩⟩

/-- An `if` with or without an alternative. In the first case the body cannot end in an
`if` that lacks one, because the reader of the body would have taken it. -/
theorem conditional_eq_ok_iff {s : Stmt} :
    conditional r q = .ok (s, q') ↔
      (∃ word cond body other alternative, cond.Proper ∧ cond.height ≤ Rpn.maxHeight ∧ P body ∧
        ¬body.Open ∧ P alternative ∧ alternative.FollowsElse ∧
        q = q'.put (StmtTree.choice word cond body other alternative).tokens ∧
        s = (StmtTree.choice word cond body other alternative).value ∧
        (alternative.Open → q'.Ahead (· ≠ .elseWord))) ∨
      (∃ word cond body, cond.Proper ∧ cond.height ≤ Rpn.maxHeight ∧ P body ∧
        q = q'.put (StmtTree.conditional word cond body).tokens ∧
        s = (StmtTree.conditional word cond body).value ∧ q'.Ahead (· ≠ .elseWord)) := by
  simp only [conditional, bind_eq_ok_iff, expect_eq_ok_iff, expression_eq_ok_iff,
    alternative_eq_ok_iff hr, pure_eq_ok_iff, hr _ _ _]
  constructor
  · rintro ⟨_, q₁, ⟨word, rfl, rfl⟩, _, q₂, ⟨cond, hcond, hheight, -, rfl, rfl⟩, _, q₃,
      ⟨body, hbody, rfl, rfl, hopen⟩, o, q₄, halternative, rfl, rfl⟩
    rcases halternative with ⟨other, x, hx, hfollows, rfl, rfl, hx'⟩ | ⟨rfl, rfl, hahead⟩
    · refine .inl ⟨word, cond, body, other, x, hcond, hheight, hbody, ?_, hx, hfollows,
        by simp [tokens], rfl, hx'⟩
      intro hbody'
      -- an open body would have taken this `else`
      have hahead := hopen hbody'
      rw [TokenQueue.ahead_put_cons] at hahead
      exact hahead other.kind_eq
    · exact .inr ⟨word, cond, body, hcond, hheight, hbody, by simp [tokens], rfl, hahead⟩
  · rintro (⟨word, cond, body, other, x, hcond, hheight, hbody, hclosed, hx, hfollows, rfl, rfl, hopen⟩ |
      ⟨word, cond, body, hcond, hheight, hbody, rfl, rfl, hahead⟩)
    · let q₃ := q'.put (other.token :: x.tokens)
      let q₂ := q₃.put body.tokens
      exact ⟨_, q₂.put cond.tokens, ⟨word, rfl, by simp [tokens, q₂, q₃]⟩, _, q₂,
        ⟨cond, hcond, hheight, body.endsBefore _, rfl, rfl⟩, _, q₃,
        ⟨body, hbody, rfl, rfl, fun h => absurd h hclosed⟩, _, q',
        .inl ⟨other, x, hx, hfollows, rfl, rfl, hopen⟩, rfl, rfl⟩
    · let q₂ := q'.put body.tokens
      exact ⟨_, q₂.put cond.tokens, ⟨word, rfl, by simp [tokens, q₂]⟩, _, q₂,
        ⟨cond, hcond, hheight, body.endsBefore _, rfl, rfl⟩, _, q', ⟨body, hbody, rfl, rfl, fun _ => hahead⟩,
        none, q', .inr ⟨rfl, rfl, hahead⟩, rfl, rfl⟩

theorem sequence_eq_ok_iff {s : Stmt} :
    sequence r q = .ok (s, q') ↔ ∃ clock inner, P inner ∧
      q = q'.put (StmtTree.sequence clock inner).tokens ∧ s = (StmtTree.sequence clock inner).value ∧
      (inner.Open → q'.Ahead (· ≠ .elseWord)) := by
  simp only [sequence, bind_eq_ok_iff, peek_eq_ok_iff, clock_eq_ok_iff, pure_eq_ok_iff, hr _ _ _]
  constructor
  · rintro ⟨t, q₁, ⟨rfl, ht⟩, _, q₂, ⟨clock, rfl, rfl⟩, _, q₃, ⟨inner, hinner, rfl, rfl, hopen⟩, rfl, rfl⟩
    obtain rfl : clock.mark.token = t := by simpa [ClockTree.tokens] using ht
    exact ⟨clock, inner, hinner, by simp [tokens], rfl, hopen⟩
  · rintro ⟨clock, inner, hinner, rfl, rfl, hopen⟩
    exact ⟨clock.mark.token, _, ⟨rfl, rfl⟩, _, q'.put inner.tokens, ⟨clock, by simp [tokens], rfl⟩, _, q',
      ⟨inner, hinner, rfl, rfl, hopen⟩, rfl, rfl⟩

end

theorem assignment_eq_ok_iff {s : Stmt} :
    assignment q = .ok (s, q') ↔ ∃ target symbol value semicolon, value.Proper ∧
      value.height ≤ Rpn.maxHeight ∧ q = q'.put (StmtTree.assign target symbol value semicolon).tokens ∧
      s = (StmtTree.assign target symbol value semicolon).value := by
  simp only [assignment, bind_eq_ok_iff, ident_eq_ok_iff, expect_eq_ok_iff, expression_eq_ok_iff,
    pure_eq_ok_iff]
  constructor
  · rintro ⟨_, q₁, ⟨target, rfl, rfl⟩, _, q₂, ⟨symbol, rfl, rfl⟩, _, q₃, ⟨value, hvalue, hheight, -, rfl, rfl⟩,
      _, q₄, ⟨semicolon, rfl, rfl⟩, rfl, rfl⟩
    exact ⟨target, symbol, value, semicolon, hvalue, hheight, by simp [tokens], rfl⟩
  · rintro ⟨target, symbol, value, semicolon, hvalue, hheight, rfl, rfl⟩
    let q₃ := q'.put [semicolon.token]
    let q₂ := q₃.put value.tokens
    exact ⟨_, q₂.put [symbol.token], ⟨target, by simp [tokens, q₂, q₃], rfl⟩, _, q₂, ⟨symbol, rfl, rfl⟩, _, q₃,
      ⟨value, hvalue, hheight, ⟨semicolon.token, rfl, by rw [semicolon.kind_eq]; rfl⟩, rfl, rfl⟩, _, q',
      ⟨semicolon, rfl, rfl⟩, rfl, rfl⟩

/-- The reader of signals allows the storage to be left out, but here the first token
is known to be one. -/
theorem declaration_eq_ok_iff {s : Stmt} :
    (q.Ahead (· = .storage) ∧ declaration q = .ok (s, q')) ↔ ∃ storage tail semicolon, tail.Within ∧
      q = q'.put (StmtTree.decl storage tail semicolon).tokens ∧
      s = (StmtTree.decl storage tail semicolon).value := by
  simp only [declaration, bind_eq_ok_iff, peek_eq_ok_iff, signal_eq_ok_iff, expect_eq_ok_iff, pure_eq_ok_iff]
  constructor
  · rintro ⟨hfirst, t, q₁, ⟨rfl, ht⟩, _, q₂, ⟨⟨storage, tail⟩, hwithin, rfl, rfl, -⟩, _, q₃,
      ⟨semicolon, rfl, rfl⟩, rfl, rfl⟩
    cases storage with
    | some storage =>
      obtain rfl : storage.token = t := by simpa [SignalTree.tokens, Word.optional] using ht
      exact ⟨storage, tail, semicolon, hwithin, by simp [tokens, SignalTree.tokens, Word.optional], rfl⟩
    | none =>
      -- the signal would begin with its width or with its name
      exfalso
      obtain ⟨width, name, clock⟩ := tail
      cases width with
      | none =>
        simp [SignalTree.tokens, Word.optional, TailTree.tokens, name.kind_eq] at hfirst
      | some width =>
        simp [SignalTree.tokens, Word.optional, TailTree.tokens, WidthTree.tokens,
          width.opening.kind_eq] at hfirst
  · rintro ⟨storage, tail, semicolon, hwithin, rfl, rfl⟩
    refine ⟨by simp [tokens, storage.kind_eq], storage.token, _, ⟨rfl, rfl⟩, _, q'.put [semicolon.token],
      ⟨⟨some storage, tail⟩, hwithin, by simp [tokens, SignalTree.tokens, Word.optional], rfl, fun _ => ?_⟩,
      _, q', ⟨semicolon, rfl, rfl⟩, rfl, rfl⟩
    rw [TokenQueue.ahead_put_cons, semicolon.kind_eq]
    decide

/-- The reader of statements follows the grammar: it succeeds exactly on the trees that
fit into the number of levels. -/
theorem stmt_reads (levels : Nat) : Reads (stmt levels) (Fits levels) := by
  induction levels with
  | zero =>
    intro q s q'
    simp only [stmt, bind_eq_ok_iff, fail_ne_ok, and_false, exists_false, false_iff]
    rintro ⟨x, hx, -⟩
    exact x.not_fits_zero hx
  | succ levels ih =>
    intro q s q'
    simp only [stmt, bind_eq_ok_iff, peek_eq_ok_iff]
    constructor
    · -- the kind of the first token chooses the reader
      rintro ⟨t, q₁, ⟨rfl, ht⟩, h⟩
      cases hk : t.kind with
      | identifier =>
        rw [hk] at h
        obtain ⟨target, symbol, value, semicolon, hvalue, hheight, hq, hs⟩ := assignment_eq_ok_iff.mp h
        exact ⟨.assign target symbol value semicolon, fits_assign.mpr ⟨hvalue, hheight⟩, hq, hs, False.elim⟩
      | ifWord =>
        rw [hk] at h
        rcases (conditional_eq_ok_iff ih).mp h with
          ⟨word, cond, body, other, x, hcond, hheight, hbody, hclosed, hx, hfollows, hq, hs, hopen⟩ |
          ⟨word, cond, body, hcond, hheight, hbody, hq, hs, hahead⟩
        · exact ⟨.choice word cond body other x,
            fits_choice.mpr ⟨hcond, hheight, hbody, hclosed, hx, hfollows⟩, hq, hs, hopen⟩
        · exact ⟨.conditional word cond body, fits_conditional.mpr ⟨hcond, hheight, hbody⟩, hq, hs,
            fun _ => hahead⟩
      | leftBrace =>
        rw [hk] at h
        obtain ⟨b, hb, rfl⟩ := map_eq_ok_iff.mp h
        obtain ⟨opening, xs, closing, hxs, hq, rfl⟩ := (block_eq_ok_iff ih).mp hb
        exact ⟨.block opening xs closing, fits_block.mpr hxs, hq, rfl, False.elim⟩
      | storage =>
        rw [hk] at h
        obtain ⟨storage, tail, semicolon, hwithin, hq, hs⟩ := declaration_eq_ok_iff.mp ⟨⟨t, ht, hk⟩, h⟩
        exact ⟨.decl storage tail semicolon, fits_decl.mpr hwithin, hq, hs, False.elim⟩
      | atMark =>
        rw [hk] at h
        obtain ⟨clock, inner, hinner, hq, hs, hopen⟩ := (sequence_eq_ok_iff ih).mp h
        exact ⟨.sequence clock inner, fits_sequence.mpr hinner, hq, hs, hopen⟩
      | _ => rw [hk] at h; exact absurd h refuse_ne_ok
    · -- each form of tree begins with the kind that chooses its reader
      rintro ⟨x, hx, rfl, rfl, hopen⟩
      cases x with
      | assign target symbol value semicolon =>
        obtain ⟨hvalue, hheight⟩ := fits_assign.mp hx
        refine ⟨target.token, _, ⟨rfl, rfl⟩, ?_⟩
        rw [target.kind_eq]
        exact assignment_eq_ok_iff.mpr ⟨target, symbol, value, semicolon, hvalue, hheight, rfl, rfl⟩
      | conditional word cond body =>
        obtain ⟨hcond, hheight, hbody⟩ := fits_conditional.mp hx
        refine ⟨word.token, _, ⟨rfl, rfl⟩, ?_⟩
        rw [word.kind_eq]
        exact (conditional_eq_ok_iff ih).mpr
          (.inr ⟨word, cond, body, hcond, hheight, hbody, rfl, rfl, hopen trivial⟩)
      | choice word cond body other alternative =>
        obtain ⟨hcond, hheight, hbody, hclosed, halternative, hfollows⟩ := fits_choice.mp hx
        refine ⟨word.token, _, ⟨rfl, rfl⟩, ?_⟩
        rw [word.kind_eq]
        exact (conditional_eq_ok_iff ih).mpr (.inl ⟨word, cond, body, other, alternative, hcond, hheight,
          hbody, hclosed, halternative, hfollows, rfl, rfl, hopen⟩)
      | block opening stmts closing =>
        refine ⟨opening.token, _, ⟨rfl, rfl⟩, ?_⟩
        rw [opening.kind_eq]
        exact map_eq_ok_iff.mpr ⟨_, (block_eq_ok_iff ih).mpr ⟨opening, stmts, closing, fits_block.mp hx, rfl,
          rfl⟩, rfl⟩
      | decl storage tail semicolon =>
        refine ⟨storage.token, _, ⟨rfl, rfl⟩, ?_⟩
        rw [storage.kind_eq]
        exact (declaration_eq_ok_iff.mpr ⟨storage, tail, semicolon, fits_decl.mp hx, rfl, rfl⟩).2
      | sequence clock inner =>
        refine ⟨clock.mark.token, _, ⟨rfl, rfl⟩, ?_⟩
        rw [clock.mark.kind_eq]
        exact (sequence_eq_ok_iff ih).mpr ⟨clock, inner, fits_sequence.mp hx, rfl, rfl, hopen⟩

end Reader

end Gateware

import Gateware.Proofs.Grammar.Stmt
import Gateware.Syntax.Module

/- The grammar of modules and of whole source texts.

   This file

   1. defines the trees of port lists, modules and files (`PortsTree`, `ModuleTree`, `SourceTree`),
      with their tokens, values and limits;
   2. proves for the loop over ports and for the reader of modules that they succeed exactly on the
      tokens of such trees (`portsUntilParen_eq_ok_iff`, `module_eq_ok_iff`), and for the loop over
      modules that it does so without a budget (`Reading.ofQueue_eq_iff`);
   3. concludes that a source text is read exactly if its tokens are those of a file within the
      limits (`parse_eq_ok_iff`). -/
namespace Gateware

namespace Grammar

/-! ## Ports -/

/-- `'(' (param (',' param)*)? ')'` -/
@[ext] structure PortsTree where
  opening : Word .leftParen
  ports : Option (PortTree × List (Word .comma × PortTree))
  closing : Word .rightParen

namespace PortsTree

/-- The tokens of ports separated by commas. -/
def separated (first : PortTree) (others : List (Word .comma × PortTree)) : List Token :=
  first.tokens ++ others.flatMap fun x => x.1.token :: x.2.tokens

def tokens (x : PortsTree) : List Token :=
  x.opening.token :: ((x.ports.map fun p => separated p.1 p.2).getD [] ++ [x.closing.token])

def toList (x : PortsTree) : List PortTree :=
  (x.ports.map fun p => p.1 :: p.2.map (·.2)).getD []

def value (x : PortsTree) : List Port := x.toList.map PortTree.value

end PortsTree

/-! ## Modules and files -/

/-- `module := IDENT '(' (param (',' param)*)? ')' block` -/
@[ext] structure ModuleTree where
  name : Word .identifier
  ports : PortsTree
  opening : Word .leftBrace
  stmts : List StmtTree
  closing : Word .rightBrace

namespace ModuleTree

def tokens (x : ModuleTree) : List Token :=
  x.name.token :: (x.ports.tokens ++ (StmtTree.block x.opening x.stmts x.closing).tokens)

/-- The module that a tree stands for; the body stands between its braces. -/
def value (x : ModuleTree) : Module :=
  ⟨x.name.ident, x.ports.value, ⟨StmtTree.valueAll x.stmts, x.opening.token.pos, x.closing.token.pos⟩⟩

/-- All statements are grouped as they should be. -/
def Grouped (x : ModuleTree) : Prop := ∀ s ∈ x.stmts, s.Everywhere StmtTree.Grouped

/-- All widths, expressions and nestings are within the limits. -/
def Bounded (x : ModuleTree) : Prop :=
  (∀ p ∈ x.ports.toList, p.signal.tail.Within) ∧
    ∀ s ∈ x.stmts, s.Everywhere StmtTree.Bounded ∧ s.depth ≤ 256

theorem grouped_and_bounded_iff {x : ModuleTree} : x.Grouped ∧ x.Bounded ↔
    (∀ p ∈ x.ports.toList, p.signal.tail.Within) ∧ ∀ s ∈ x.stmts, s.Fits Reader.maxNesting :=
  ⟨fun ⟨hgrouped, hports, hstmts⟩ => ⟨hports, fun s hs => ⟨hgrouped s hs, hstmts s hs⟩⟩,
    fun ⟨hports, hstmts⟩ => ⟨fun s hs => (hstmts s hs).1, hports, fun s hs => (hstmts s hs).2⟩⟩

end ModuleTree

/-- `file := module*` -/
@[ext] structure SourceTree where
  modules : List ModuleTree

namespace SourceTree

def tokens (f : SourceTree) : List Token := f.modules.flatMap ModuleTree.tokens

def value (f : SourceTree) : List Module := f.modules.map ModuleTree.value

/-- All modules are within the limits. -/
def Bounded (f : SourceTree) : Prop := ∀ x ∈ f.modules, x.Bounded

/-- The tree derives the given tokens, and is grouped as it should be. -/
structure IsDerivationOf (f : SourceTree) (ts : List Token) : Prop where
  grouped : ∀ x ∈ f.modules, x.Grouped
  tokens_eq : f.tokens = ts

end SourceTree

end Grammar

/-! ## The readers -/

namespace Reader
open Grammar
variable {q q' : TokenQueue}

/-- After a port stands a comma or the parenthesis that closes, so no clock was left
out that could have been read. -/
theorem portsUntilParen_eq_ok_iff {budget : List Token} {read ps : List Port} :
    portsUntilParen budget read q = .ok (ps, q') ↔
      ∃ (first : PortTree) (others : List (Word .comma × PortTree)) (closing : Word .rightParen),
        others.length ≤ budget.length ∧ (∀ p ∈ first :: others.map (·.2), p.signal.tail.Within) ∧
        q = q'.put (PortsTree.separated first others ++ [closing.token]) ∧
        ps = read.reverse ++ (first :: others.map (·.2)).map PortTree.value := by
  induction budget generalizing q read with
  | nil =>
    unfold portsUntilParen
    simp only [bind_eq_ok_iff, port_eq_ok_iff, next_eq_ok_iff]
    constructor
    · rintro ⟨_, q₁, ⟨first, hfirst, rfl, rfl, -⟩, token, q₂, rfl, h⟩
      cases hk : token.kind with
      | rightParen =>
        rw [hk] at h
        obtain ⟨rfl, rfl⟩ := pure_eq_ok_iff.mp h
        exact ⟨first, [], ⟨token, hk⟩, Nat.le_refl 0, by simpa using hfirst, by simp [PortsTree.separated],
          by simp⟩
      | comma => rw [hk] at h; exact absurd h refuse_ne_ok
      | _ => rw [hk] at h; exact absurd h fail_ne_ok
    · rintro ⟨first, others, closing, hlen, hwithin, rfl, rfl⟩
      obtain rfl := List.length_eq_zero_iff.mp (Nat.le_zero.mp hlen)
      refine ⟨_, q'.put [closing.token], ⟨first, hwithin first (by simp), by simp [PortsTree.separated], rfl,
        fun _ => by simp [closing.kind_eq]⟩, closing.token, q', rfl, ?_⟩
      rw [closing.kind_eq]
      exact pure_eq_ok_iff.mpr ⟨by simp, rfl⟩
  | cons _ budget ih =>
    unfold portsUntilParen
    simp only [bind_eq_ok_iff, port_eq_ok_iff, next_eq_ok_iff]
    constructor
    · rintro ⟨_, q₁, ⟨first, hfirst, rfl, rfl, -⟩, token, q₂, rfl, h⟩
      cases hk : token.kind with
      | rightParen =>
        rw [hk] at h
        obtain ⟨rfl, rfl⟩ := pure_eq_ok_iff.mp h
        exact ⟨first, [], ⟨token, hk⟩, Nat.zero_le _, by simpa using hfirst, by simp [PortsTree.separated],
          by simp⟩
      | comma =>
        rw [hk] at h
        obtain ⟨second, others, closing, hlen, hwithin, rfl, rfl⟩ := ih.mp h
        refine ⟨first, (⟨token, hk⟩, second) :: others, closing, Nat.succ_le_succ hlen, ?_,
          by simp [PortsTree.separated], by simp⟩
        intro p hp
        rcases List.mem_cons.mp hp with rfl | hp
        · exact hfirst
        · exact hwithin p hp
      | _ => rw [hk] at h; exact absurd h fail_ne_ok
    · rintro ⟨first, others, closing, hlen, hwithin, rfl, rfl⟩
      cases others with
      | nil =>
        refine ⟨_, q'.put [closing.token], ⟨first, hwithin first (by simp), by simp [PortsTree.separated], rfl,
          fun _ => by simp [closing.kind_eq]⟩, closing.token, q', rfl, ?_⟩
        rw [closing.kind_eq]
        exact pure_eq_ok_iff.mpr ⟨by simp, rfl⟩
      | cons second others =>
        obtain ⟨comma, second⟩ := second
        let q₂ := q'.put (PortsTree.separated second others ++ [closing.token])
        refine ⟨_, q₂.put [comma.token], ⟨first, hwithin first (by simp),
          by simp [PortsTree.separated, q₂], rfl, fun _ => by simp [comma.kind_eq]⟩, comma.token, q₂, rfl, ?_⟩
        rw [comma.kind_eq]
        exact ih.mpr ⟨second, others, closing, Nat.le_of_succ_le_succ hlen,
          fun p hp => hwithin p (List.mem_cons_of_mem _ hp), rfl, by simp⟩

theorem length_le_separated (first : PortTree) (others : List (Word .comma × PortTree)) :
    others.length ≤ (PortsTree.separated first others).length := by
  induction others with
  | nil => exact Nat.zero_le _
  | cons x xs ih =>
    simp only [PortsTree.separated, List.flatMap_cons, List.length_append, List.length_cons] at ih ⊢
    omega

theorem ports_eq_ok_iff {ps : List Port} :
    ports q = .ok (ps, q') ↔ ∃ x : PortsTree, (∀ p ∈ x.toList, p.signal.tail.Within) ∧
      q = q'.put x.tokens ∧ ps = x.value := by
  simp only [ports, bind_eq_ok_iff, expect_eq_ok_iff, accept_eq_ok_iff]
  constructor
  · rintro ⟨_, q₁, ⟨opening, rfl, rfl⟩, _, q₂, ⟨closing, rfl, rfl⟩ | ⟨rfl, rfl, -⟩, h⟩
    · obtain ⟨rfl, rfl⟩ := pure_eq_ok_iff.mp h
      exact ⟨⟨opening, none, closing⟩, by simp [PortsTree.toList], by simp [PortsTree.tokens], rfl⟩
    · obtain ⟨budget, q₂, hpending, hports⟩ := bind_eq_ok_iff.mp h
      cases hpending
      obtain ⟨first, others, closing, -, hwithin, rfl, rfl⟩ := portsUntilParen_eq_ok_iff.mp hports
      exact ⟨⟨opening, some (first, others), closing⟩, hwithin, by simp [PortsTree.tokens], rfl⟩
  · rintro ⟨⟨opening, ports, closing⟩, hwithin, rfl, rfl⟩
    cases ports with
    | none =>
      exact ⟨_, q'.put [closing.token], ⟨opening, rfl, by simp [PortsTree.tokens]⟩, _, q',
        .inl ⟨closing, rfl, rfl⟩, pure_eq_ok_iff.mpr ⟨rfl, rfl⟩⟩
    | some ports =>
      obtain ⟨first, others⟩ := ports
      let q₁ := q'.put (PortsTree.separated first others ++ [closing.token])
      have hbudget : others.length ≤ q₁.pending.length := by
        have := length_le_separated first others
        simp only [q₁, TokenQueue.pending_put, List.length_append]
        omega
      -- a port begins with its direction, so the list is not taken for an empty one
      have hfirst : q₁.Ahead (· ≠ .rightParen) := by
        simp [q₁, PortsTree.separated, PortTree.tokens, first.direction.kind_eq]
      refine ⟨_, q₁, ⟨opening, rfl, by simp [PortsTree.tokens, q₁]⟩, _, q₁, .inr ⟨rfl, rfl, hfirst⟩, ?_⟩
      exact bind_eq_ok_iff.mpr ⟨q₁.pending, q₁, rfl,
        portsUntilParen_eq_ok_iff.mpr ⟨first, others, closing, hbudget, hwithin, rfl, rfl⟩⟩

theorem module_eq_ok_iff {m : Module} :
    module q = .ok (m, q') ↔ ∃ x : ModuleTree, (x.Grouped ∧ x.Bounded) ∧ q = q'.put x.tokens ∧
      m = x.value := by
  simp only [module, bind_eq_ok_iff, ident_eq_ok_iff, ports_eq_ok_iff, block_eq_ok_iff (stmt_reads maxNesting),
    pure_eq_ok_iff, ModuleTree.grouped_and_bounded_iff]
  constructor
  · rintro ⟨_, q₁, ⟨name, rfl, rfl⟩, _, q₂, ⟨ports, hports, rfl, rfl⟩, _, q₃,
      ⟨opening, xs, closing, hxs, rfl, rfl⟩, rfl, rfl⟩
    exact ⟨⟨name, ports, opening, xs, closing⟩, ⟨hports, hxs⟩, by simp [ModuleTree.tokens], rfl⟩
  · rintro ⟨⟨name, ports, opening, xs, closing⟩, ⟨hports, hxs⟩, rfl, rfl⟩
    let q₂ := q'.put (StmtTree.block opening xs closing).tokens
    exact ⟨_, q₂.put ports.tokens, ⟨name, by simp [ModuleTree.tokens, q₂], rfl⟩, _, q₂, ⟨ports, hports, rfl, rfl⟩,
      _, q', ⟨opening, xs, closing, hxs, rfl, rfl⟩, rfl, rfl⟩

end Reader

open Grammar

theorem Reading.result_eq_ok_iff {r : Reading} {ms : List Module} :
    r.result = .ok ms ↔ r = ⟨ms, none⟩ := by
  obtain ⟨modules, failure⟩ := r
  cases failure <;> simp [Reading.result]

/-- Every module takes a token. -/
theorem Grammar.ModuleTree.length_le_tokens (xs : List ModuleTree) :
    xs.length ≤ (xs.flatMap ModuleTree.tokens).length := by
  induction xs with
  | nil => exact Nat.zero_le _
  | cons x xs ih =>
    simp only [List.flatMap_cons, List.length_append, List.length_cons, ModuleTree.tokens]
    omega

/-- Reading modules one after another. The modules read so far stay in front. -/
theorem Reading.ofQueue_eq_iff {budget : List Token} {read ms : List Module} {q : TokenQueue} :
    ofQueue budget read q = ⟨ms, none⟩ ↔ ∃ xs : List ModuleTree, xs.length ≤ budget.length ∧
      (∀ x ∈ xs, x.Grouped ∧ x.Bounded) ∧ q.pending = xs.flatMap ModuleTree.tokens ∧
      ms = read.reverse ++ xs.map ModuleTree.value := by
  induction budget generalizing q read with
  | nil =>
    obtain ⟨pending, stop⟩ := q
    constructor
    · intro h
      cases pending with
      | cons t ts => simp [ofQueue] at h
      | nil =>
        simp only [ofQueue, Reading.mk.injEq, and_true] at h
        exact ⟨[], Nat.le_refl 0, by simp, rfl, by simp [h]⟩
    · rintro ⟨xs, hlen, -, hq, rfl⟩
      obtain rfl := List.length_eq_zero_iff.mp (Nat.le_zero.mp hlen)
      obtain rfl : pending = [] := by simpa using hq
      simp [ofQueue]
  | cons token budget ih =>
    obtain ⟨pending, stop⟩ := q
    cases pending with
    | nil =>
      simp only [ofQueue, Reading.mk.injEq, and_true]
      constructor
      · rintro rfl
        exact ⟨[], Nat.zero_le _, by simp, rfl, by simp⟩
      · rintro ⟨xs, -, -, hq, rfl⟩
        cases xs with
        | nil => simp
        | cons x xs => simp [ModuleTree.tokens] at hq
    | cons t ts =>
      simp only [ofQueue]
      constructor
      · intro h
        cases hm : Reader.module ⟨t :: ts, stop⟩ with
        | error e => rw [hm] at h; simp at h
        | ok result =>
          obtain ⟨m, q'⟩ := result
          rw [hm] at h
          obtain ⟨x, hx, hput, rfl⟩ := Reader.module_eq_ok_iff.mp hm
          obtain ⟨xs, hlen, hxs, hq, rfl⟩ := ih.mp h
          have hpending := congrArg TokenQueue.pending hput
          rw [TokenQueue.pending_put, hq] at hpending
          refine ⟨x :: xs, Nat.succ_le_succ hlen, ?_, by rw [List.flatMap_cons]; exact hpending, by simp⟩
          intro y hy
          rcases List.mem_cons.mp hy with rfl | hy
          · exact hx
          · exact hxs y hy
      · rintro ⟨xs, hlen, hxs, hq, rfl⟩
        cases xs with
        | nil => simp at hq
        | cons x xs =>
          -- the queue begins with the tokens of the first module
          have hm : Reader.module ⟨t :: ts, stop⟩ =
              .ok (x.value, ⟨xs.flatMap ModuleTree.tokens, stop⟩) := by
            refine Reader.module_eq_ok_iff.mpr ⟨x, hxs x (by simp), ?_, rfl⟩
            rw [TokenQueue.put, ← List.flatMap_cons, ← hq]
          rw [hm]
          exact ih.mpr ⟨xs, Nat.le_of_succ_le_succ hlen, fun y hy => hxs y (by simp [hy]), rfl, by simp⟩

/-- A source text is read exactly if its tokens are those of a file within the limits. -/
theorem parse_eq_ok_iff {source : String} {ms : List Module} :
    parse source = .ok ms ↔ ∃ f : SourceTree, f.IsDerivationOf (Lexer.ofSource source).tokens.1 ∧
      f.Bounded ∧ ms = f.value := by
  rw [parse, Reading.result_eq_ok_iff, Reading.ofSource, Reading.ofQueue_eq_iff]
  constructor
  · rintro ⟨xs, -, hxs, hq, rfl⟩
    exact ⟨⟨xs⟩, ⟨fun x hx => (hxs x hx).1, hq.symm⟩, fun x hx => (hxs x hx).2, rfl⟩
  · rintro ⟨⟨xs⟩, ⟨hgrouped, htokens⟩, hbounded, rfl⟩
    have hq : (TokenQueue.ofSource source).pending = xs.flatMap ModuleTree.tokens := htokens.symm
    refine ⟨xs, ?_, fun x hx => ⟨hgrouped x hx, hbounded x hx⟩, hq, rfl⟩
    rw [hq]
    exact ModuleTree.length_le_tokens xs

end Gateware

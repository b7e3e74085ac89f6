import Gateware.Proofs.Grammar.Module

/- The language of source texts, as the rules of the grammar generate it.

   The rules generate token lists, without trees and without limits. The rule for `if` is
   ambiguous, since an `else` may be given to any `if` before it that has none. This file

   1. states the rules as inductive predicates on token lists (`IsStmt`, `IsIf`, `IsBlock`,
      `IsStmts`, `IsFile`);
   2. proves that nothing is lost by giving an `else` to the nearest `if` that can take it
      (`exists_attach`), and from it that everything the rules generate has a derivation that is
      grouped in that way (`IsStmt.exists_grouped`);
   3. proves that what has a derivation is generated by the rules (`StmtTree.isStmt_tokens`);
   4. concludes that the two describe the same token lists (`isFile_iff`). -/
namespace Gateware.Grammar

mutual

/-- The token lists that are statements. -/
inductive IsStmt : List Token → Prop
  | assign (target : Word .identifier) (symbol : Word .assign) {u : List Token} (value : IsExpression u)
      (semicolon : Word .endOfStatement) :
      IsStmt (target.token :: symbol.token :: (u ++ [semicolon.token]))
  | conditional {u : List Token} (h : IsIf u) : IsStmt u
  | block {u : List Token} (h : IsBlock u) : IsStmt u
  | decl (storage : Word .storage) (tail : TailTree) (semicolon : Word .endOfStatement) :
      IsStmt (storage.token :: (tail.tokens ++ [semicolon.token]))
  | sequence (clock : ClockTree) {u : List Token} (inner : IsStmt u) : IsStmt (clock.tokens ++ u)

/-- The token lists that are conditions with their branches. -/
inductive IsIf : List Token → Prop
  | plain (word : Word .ifWord) {u v : List Token} (cond : IsExpression u) (body : IsStmt v) :
      IsIf (word.token :: (u ++ v))
  | elseIf (word : Word .ifWord) {u v w : List Token} (cond : IsExpression u) (body : IsStmt v)
      (other : Word .elseWord) (alternative : IsIf w) :
      IsIf (word.token :: (u ++ (v ++ other.token :: w)))
  | elseBlock (word : Word .ifWord) {u v w : List Token} (cond : IsExpression u) (body : IsStmt v)
      (other : Word .elseWord) (alternative : IsBlock w) :
      IsIf (word.token :: (u ++ (v ++ other.token :: w)))

/-- The token lists that are blocks. -/
inductive IsBlock : List Token → Prop
  | braces (opening : Word .leftBrace) {u : List Token} (stmts : IsStmts u) (closing : Word .rightBrace) :
      IsBlock (opening.token :: (u ++ [closing.token]))

/-- The token lists that are statements one after another. -/
inductive IsStmts : List Token → Prop
  | nil : IsStmts []
  | cons {u v : List Token} (first : IsStmt u) (others : IsStmts v) : IsStmts (u ++ v)

end

/-- The token lists that are source texts: modules one after another. -/
inductive IsFile : List Token → Prop
  | nil : IsFile []
  | cons (name : Word .identifier) (ports : PortsTree) {u v : List Token} (body : IsBlock u)
      (others : IsFile v) : IsFile (name.token :: (ports.tokens ++ u) ++ v)

/-! ## Derivations with the nearest `if` -/

namespace StmtTree

/-- An `else` goes to the nearest `if` of a statement that can take it. -/
theorem exists_attach (other : Word .elseWord) {a : StmtTree} (ha : a.Everywhere Grouped)
    (hfollows : a.FollowsElse) : ∀ x : StmtTree, x.Everywhere Grouped → x.Open →
      ∃ y : StmtTree, y.Everywhere Grouped ∧ y.tokens = x.tokens ++ other.token :: a.tokens ∧
        (x.FollowsElse → y.FollowsElse)
  | .conditional word cond body, hx, _ => by
    obtain ⟨hcond, hbody⟩ := hx
    -- an open `if` at the end of the body is nearer
    by_cases hopen : body.Open
    · obtain ⟨y, hy, htokens, -⟩ := exists_attach other ha hfollows body hbody hopen
      exact ⟨.conditional word cond y, ⟨hcond, hy⟩, by simp [tokens, htokens], fun _ => trivial⟩
    · exact ⟨.choice word cond body other a, ⟨⟨hcond, hopen, hfollows⟩, hbody, ha⟩, by simp [tokens],
        fun _ => trivial⟩
  | .choice word cond body other' alternative, hx, hopen => by
    obtain ⟨⟨hcond, hclosed, hfollows'⟩, hbody, halternative⟩ := hx
    obtain ⟨y, hy, htokens, hyfollows⟩ := exists_attach other ha hfollows alternative halternative hopen
    exact ⟨.choice word cond body other' y, ⟨⟨hcond, hclosed, hyfollows hfollows'⟩, hbody, hy⟩,
      by simp [tokens, htokens], fun _ => trivial⟩
  | .sequence clock inner, hx, hopen => by
    obtain ⟨y, hy, htokens, -⟩ := exists_attach other ha hfollows inner hx.2 hopen
    exact ⟨.sequence clock y, ⟨trivial, hy⟩, by simp [tokens, htokens], False.elim⟩

/-- An `if` with an alternative, whether or not the alternative is its own. -/
theorem exists_choice (word : Word .ifWord) {cond : Term} (hcond : cond.Proper) {body : StmtTree}
    (hbody : body.Everywhere Grouped) (other : Word .elseWord) {a : StmtTree} (ha : a.Everywhere Grouped)
    (hfollows : a.FollowsElse) : ∃ x : StmtTree, x.Everywhere Grouped ∧ x.FollowsElse ∧
      x.tokens = word.token :: (cond.tokens ++ (body.tokens ++ other.token :: a.tokens)) := by
  -- without its alternative the `if` is open, so the `else` can be attached to it
  obtain ⟨y, hy, htokens, hyfollows⟩ := exists_attach other ha hfollows (.conditional word cond body)
    ⟨hcond, hbody⟩ trivial
  refine ⟨y, hy, hyfollows trivial, ?_⟩
  rw [htokens]
  simp [tokens]

end StmtTree

mutual

theorem IsStmt.exists_grouped {u : List Token} : IsStmt u →
    ∃ x : StmtTree, x.Everywhere StmtTree.Grouped ∧ x.tokens = u
  | .assign target symbol value semicolon => by
    obtain ⟨t, ht⟩ := value.exists_proper
    exact ⟨.assign target symbol t semicolon, ht.proper, by rw [StmtTree.tokens, ht.tokens_eq]⟩
  | .conditional h => by
    obtain ⟨x, hx, -, htokens⟩ := h.exists_grouped
    exact ⟨x, hx, htokens⟩
  | .block h => by
    obtain ⟨opening, xs, closing, hxs, htokens⟩ := h.exists_grouped
    exact ⟨.block opening xs closing, ⟨trivial, hxs⟩, htokens⟩
  | .decl storage tail semicolon => ⟨.decl storage tail semicolon, trivial, rfl⟩
  | .sequence clock inner => by
    obtain ⟨x, hx, htokens⟩ := inner.exists_grouped
    exact ⟨.sequence clock x, ⟨trivial, hx⟩, by rw [StmtTree.tokens, htokens]⟩

theorem IsIf.exists_grouped {u : List Token} : IsIf u →
    ∃ x : StmtTree, x.Everywhere StmtTree.Grouped ∧ x.FollowsElse ∧ x.tokens = u
  | .plain word cond body => by
    obtain ⟨t, ht⟩ := cond.exists_proper
    obtain ⟨x, hx, htokens⟩ := body.exists_grouped
    exact ⟨.conditional word t x, ⟨ht.proper, hx⟩, trivial, by rw [StmtTree.tokens, ht.tokens_eq, htokens]⟩
  | .elseIf word cond body other alternative => by
    obtain ⟨t, ht⟩ := cond.exists_proper
    obtain ⟨x, hx, rfl⟩ := body.exists_grouped
    obtain ⟨a, ha, hfollows, rfl⟩ := alternative.exists_grouped
    rw [← ht.tokens_eq]
    exact StmtTree.exists_choice word ht.proper hx other ha hfollows
  | .elseBlock word cond body other alternative => by
    obtain ⟨t, ht⟩ := cond.exists_proper
    obtain ⟨x, hx, rfl⟩ := body.exists_grouped
    obtain ⟨opening, xs, closing, hxs, rfl⟩ := alternative.exists_grouped
    rw [← ht.tokens_eq]
    exact StmtTree.exists_choice word ht.proper hx other ⟨trivial, hxs⟩ trivial

theorem IsBlock.exists_grouped {u : List Token} : IsBlock u → ∃ opening xs closing,
    StmtTree.EverywhereAll StmtTree.Grouped xs ∧ (StmtTree.block opening xs closing).tokens = u
  | .braces opening stmts closing => by
    obtain ⟨xs, hxs, htokens⟩ := stmts.exists_grouped
    exact ⟨opening, xs, closing, hxs, by rw [StmtTree.tokens, htokens]⟩

theorem IsStmts.exists_grouped {u : List Token} : IsStmts u →
    ∃ xs, StmtTree.EverywhereAll StmtTree.Grouped xs ∧ StmtTree.tokensAll xs = u
  | .nil => ⟨[], trivial, rfl⟩
  | .cons first others => by
    obtain ⟨x, hx, htokens⟩ := first.exists_grouped
    obtain ⟨xs, hxs, htokens'⟩ := others.exists_grouped
    exact ⟨x :: xs, ⟨hx, hxs⟩, by rw [StmtTree.tokensAll, htokens, htokens']⟩

end

/-! ## What is derived is in the language -/

mutual

/-- A statement that may follow `else` is generated by one of the two rules for that. -/
theorem StmtTree.isStmt_tokens : ∀ x : StmtTree, x.Everywhere Grouped →
    IsStmt x.tokens ∧ (x.FollowsElse → IsIf x.tokens ∨ IsBlock x.tokens)
  | .assign target symbol value semicolon, _ =>
    ⟨.assign target symbol value.isExpression_tokens semicolon, False.elim⟩
  | .conditional word cond body, hx => by
    have h := IsIf.plain word cond.isExpression_tokens (isStmt_tokens body hx.2).1
    exact ⟨.conditional h, fun _ => .inl h⟩
  | .choice word cond body other alternative, hx => by
    obtain ⟨⟨-, -, hfollows⟩, hbody, halternative⟩ := hx
    have hbody := (isStmt_tokens body hbody).1
    have h : IsIf (StmtTree.choice word cond body other alternative).tokens := by
      rcases (isStmt_tokens alternative halternative).2 hfollows with h | h
      · exact .elseIf word cond.isExpression_tokens hbody other h
      · exact .elseBlock word cond.isExpression_tokens hbody other h
    exact ⟨.conditional h, fun _ => .inl h⟩
  | .block opening stmts closing, hx => by
    have h := IsBlock.braces opening (isStmts_tokensAll stmts hx.2) closing
    exact ⟨.block h, fun _ => .inr h⟩
  | .decl storage tail semicolon, _ => ⟨.decl storage tail semicolon, False.elim⟩
  | .sequence clock inner, hx => ⟨.sequence clock (isStmt_tokens inner hx.2).1, False.elim⟩

theorem StmtTree.isStmts_tokensAll : ∀ xs : List StmtTree, EverywhereAll Grouped xs →
    IsStmts (tokensAll xs)
  | [], _ => .nil
  | x :: xs, hxs => .cons (isStmt_tokens x hxs.1).1 (isStmts_tokensAll xs hxs.2)

end

/-- The rules generate exactly the token lists that have a derivation with every `else`
at the nearest `if`. -/
theorem isFile_iff {ts : List Token} : IsFile ts ↔ ∃ f : SourceTree, f.IsDerivationOf ts := by
  constructor
  · intro h
    induction h with
    | nil => exact ⟨⟨[]⟩, by simp, rfl⟩
    | cons name ports body _ ih =>
      obtain ⟨opening, xs, closing, hxs, htokens⟩ := body.exists_grouped
      obtain ⟨⟨ms⟩, hgrouped, htokens'⟩ := ih
      refine ⟨⟨⟨name, ports, opening, xs, closing⟩ :: ms⟩, ?_, ?_⟩
      · intro x hx
        rcases List.mem_cons.mp hx with rfl | hx
        · exact StmtTree.everywhereAll_iff.mp hxs
        · exact hgrouped x hx
      · simp only [SourceTree.tokens, List.flatMap_cons, ModuleTree.tokens] at htokens' ⊢
        rw [htokens, htokens']
  · rintro ⟨⟨ms⟩, hgrouped, rfl⟩
    induction ms with
    | nil => exact .nil
    | cons x ms ih =>
      have hbody := IsBlock.braces x.opening (StmtTree.isStmts_tokensAll x.stmts
        (StmtTree.everywhereAll_iff.mpr (hgrouped x (by simp)))) x.closing
      exact .cons x.name x.ports hbody (ih fun y hy => hgrouped y (by simp [hy]))

end Gateware.Grammar

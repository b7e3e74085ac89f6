import Gateware.Proofs.Grammar.Scan

/- Reading an expression: its tokens in reverse Polish order, and the tree made from them.

   The second half of the reader is a stack machine with a limit on the height of what it makes.
   This file

   1. proves that the machine makes the tree of any term whose height is within the limit
      (`build_rpn`), and otherwise stops at the first operator in post-order that joins a part
      which is too high (`build_rpn_tooDeep`);
   2. puts this together with what a scan takes: the reader gives the tree of a proper term within
      the limit (`expression_tokens`), refuses one above it (`expression_tooDeep`), and takes
      nothing else (`expression_sound`);
   3. concludes that reading an expression follows the grammar (`expression_eq_tree_of_grammar`). -/
namespace Gateware.Grammar

namespace Term

/-- The operand that the stack machine makes of a term. -/
def operand (t : Term) : Rpn.Operand := ⟨t.toExpr, t.lead, t.height⟩

theorem joints_le_height (t : Term) : ∀ j ∈ t.joints, j.2 ≤ t.height := by
  induction t with
  | name | number => simp [joints]
  | group opening inner closing ih => exact ih
  | join lhs sign rhs ihl ihr =>
    intro j hj
    simp only [joints, List.mem_append, List.mem_singleton] at hj
    simp only [height]
    rcases hj with hj | hj | rfl
    · have := ihl j hj; omega
    · have := ihr j hj; omega
    · exact Nat.le_refl _

theorem find?_joints_of_height_lt {t : Term} {n : Nat} (h : t.height < n) :
    t.joints.find? (fun j => j.2 == n) = none := by
  rw [List.find?_eq_none]
  intro j hj
  have := t.joints_le_height j hj
  simp only [beq_iff_eq]
  omega

/-- The stack machine makes the tree of a term that is not too high. -/
theorem build_rpn (pos : Position) {t : Term} (ht : t.height ≤ Rpn.maxHeight)
    (stack : List Rpn.Operand) (items : List Rpn) :
    Rpn.build pos stack (t.rpn ++ items) = Rpn.build pos (t.operand :: stack) items := by
  induction t generalizing stack items with
  | name w => simp only [rpn, List.cons_append, List.nil_append, Rpn.build]; rfl
  | number w => simp only [rpn, List.cons_append, List.nil_append, Rpn.build]; rfl
  | group opening inner closing ih =>
    simp only [rpn, List.append_assoc, List.cons_append, List.nil_append]
    rw [ih ht]
    simp only [Rpn.build]
    rfl
  | join lhs sign rhs ihl ihr =>
    simp only [height] at ht
    simp only [rpn, List.append_assoc, List.cons_append, List.nil_append]
    rw [ihl (by omega), ihr (by omega)]
    rw [Rpn.build]
    exact if_neg (Nat.not_lt_of_le ht)

/-- It stops at the first part that is one too high; the parts before it are not too
high, so nothing is higher before it. -/
theorem build_rpn_tooDeep (pos : Position) {t : Term} (ht : Rpn.maxHeight < t.height)
    (stack : List Rpn.Operand) (items : List Rpn) :
    ∃ sign, t.firstOfHeight (Rpn.maxHeight + 1) = some sign ∧
      Rpn.build pos stack (t.rpn ++ items) = .error (.tooDeep sign.token.pos) := by
  induction t generalizing stack items with
  | name | number => simp [height] at ht
  | group opening inner closing ih =>
    simp only [rpn, List.append_assoc]
    exact ih ht stack _
  | join lhs sign rhs ihl ihr =>
    simp only [rpn, List.append_assoc]
    by_cases hl : Rpn.maxHeight < lhs.height
    · obtain ⟨s, hs, hbuild⟩ := ihl hl stack (rhs.rpn ++ ([.operator sign.op sign.token] ++ items))
      refine ⟨s, ?_, hbuild⟩
      obtain ⟨j, hj, rfl⟩ := Option.map_eq_some_iff.mp hs
      simp only [firstOfHeight, joints, List.find?_append, hj, Option.some_or, Option.map_some]
    · have hnl := find?_joints_of_height_lt (t := lhs) (n := Rpn.maxHeight + 1) (by omega)
      rw [build_rpn pos (by omega)]
      by_cases hr : Rpn.maxHeight < rhs.height
      · obtain ⟨s, hs, hbuild⟩ := ihr hr (lhs.operand :: stack) ([.operator sign.op sign.token] ++ items)
        refine ⟨s, ?_, hbuild⟩
        obtain ⟨j, hj, rfl⟩ := Option.map_eq_some_iff.mp hs
        simp only [firstOfHeight, joints, List.find?_append, hnl, hj, Option.none_or, Option.some_or,
          Option.map_some]
      · -- both operands are within the limit, so this operator is the first one beyond it
        have hnr := find?_joints_of_height_lt (t := rhs) (n := Rpn.maxHeight + 1) (by omega)
        have hjoint : max lhs.height rhs.height + 1 = Rpn.maxHeight + 1 := by
          simp only [height] at ht; omega
        refine ⟨sign, ?_, ?_⟩
        · simp only [firstOfHeight, joints, List.find?_append, hnl, hnr, hjoint, Option.none_or,
            List.find?_cons, beq_self_eq_true, Option.map_some]
        · rw [build_rpn pos (by omega)]
          simp only [List.cons_append, List.nil_append, Rpn.build, operand, hjoint]
          exact if_pos (Nat.lt_succ_self _)

theorem toExpr_rpn {t : Term} (ht : t.height ≤ Rpn.maxHeight) : Rpn.toExpr t.rpn = .ok t.toExpr := by
  have h := build_rpn ((t.rpn.head?.map fun item => item.token.pos).getD Position.start) ht [] []
  rw [List.append_nil] at h
  exact h

theorem toExpr_rpn_tooDeep {t : Term} (ht : Rpn.maxHeight < t.height) :
    ∃ sign, t.firstOfHeight (Rpn.maxHeight + 1) = some sign ∧
      Rpn.toExpr t.rpn = .error (.tooDeep sign.token.pos) := by
  obtain ⟨sign, hs, h⟩ := build_rpn_tooDeep
    ((t.rpn.head?.map fun item => item.token.pos).getD Position.start) ht [] []
  rw [List.append_nil] at h
  exact ⟨sign, hs, h⟩

end Term

/-! ## The reader of expressions -/

theorem expression_apply (ts : List Token) (stop : Position) :
    Reader.expression ⟨ts, stop⟩ =
      match Rpn.scan stop true 0 [] [] ts with
      | .error e => .error e
      | .ok (items, r) => (Rpn.toExpr items).map (fun e => (e, ⟨r, stop⟩)) := by
  simp only [Reader.expression, bind, StateT.bind, Rpn.read]
  cases Rpn.scan stop true 0 [] [] ts with
  | error e => rfl
  | ok x =>
    simp only [Except.bind, liftM, monadLift, MonadLift.monadLift, StateT.lift]
    cases Rpn.toExpr x.1 <;> rfl

/-- The reader takes a proper term within the limit and gives its tree. -/
theorem expression_tokens {t : Term} (ht : t.Proper) (hheight : t.height ≤ Rpn.maxHeight)
    {r : List Token} (hr : EndsBefore r) (stop : Position) :
    Reader.expression ⟨t.tokens ++ r, stop⟩ = .ok (t.toExpr, ⟨r, stop⟩) := by
  rw [expression_apply, Waiting.scan_tokens stop ht hr]
  simp only [Term.toExpr_rpn hheight]
  rfl

theorem expression_tooDeep {t : Term} (ht : t.Proper) (hheight : Rpn.maxHeight < t.height)
    {r : List Token} (hr : EndsBefore r) (stop : Position) :
    ∃ sign, t.firstOfHeight (Rpn.maxHeight + 1) = some sign ∧
      Reader.expression ⟨t.tokens ++ r, stop⟩ = .error (.tooDeep sign.token.pos) := by
  obtain ⟨sign, hs, h⟩ := Term.toExpr_rpn_tooDeep hheight
  refine ⟨sign, hs, ?_⟩
  rw [expression_apply, Waiting.scan_tokens stop ht hr]
  simp only [h]
  rfl

/-- What the reader takes is a proper term within the limit, and it gives its tree. -/
theorem expression_sound {q q' : TokenQueue} {e : Expr} (h : Reader.expression q = .ok (e, q')) :
    ∃ t : Term, t.Proper ∧ t.height ≤ Rpn.maxHeight ∧ q.pending = t.tokens ++ q'.pending ∧
      EndsBefore q'.pending ∧ q'.stop = q.stop ∧ e = t.toExpr := by
  obtain ⟨ts, stop⟩ := q
  rw [expression_apply] at h
  cases hscan : Rpn.scan stop true 0 [] [] ts with
  | error e => rw [hscan] at h; simp at h
  | ok x =>
    obtain ⟨items, r⟩ := x
    obtain ⟨t, ht, rfl, hend, rfl⟩ := scan_eq_ok_iff.mp hscan
    rw [hscan] at h
    by_cases hheight : t.height ≤ Rpn.maxHeight
    · simp only [Term.toExpr_rpn hheight, Except.map, Except.ok.injEq, Prod.mk.injEq] at h
      obtain ⟨rfl, rfl⟩ := h
      exact ⟨t, ht, hheight, rfl, hend, rfl, rfl⟩
    · obtain ⟨sign, -, herror⟩ := Term.toExpr_rpn_tooDeep (Nat.lt_of_not_le hheight)
      simp [herror, Except.map] at h

/-- Reading an expression follows the grammar. Every expression has exactly one tree;
reading succeeds exactly if an expression within the limit on heights stands before
what is left unread, and gives its tree; and an expression beyond the limit is refused
at the operator of the first part, in post-order, that is too high. -/
theorem expression_eq_tree_of_grammar (ts : List Token) (stop : Position) :
    (∀ u, IsExpression u → ∃ t : Term, t.IsTreeOf u ∧ ∀ t' : Term, t'.IsTreeOf u → t' = t) ∧
    (∀ e q, Reader.expression ⟨ts, stop⟩ = .ok (e, q) ↔ q.stop = stop ∧
      ∃ u, ts = u ++ q.pending ∧ IsExpression u ∧ EndsBefore q.pending ∧
        ∃ t : Term, t.IsTreeOf u ∧ t.height ≤ 256 ∧ e = t.toExpr) ∧
    (∀ u r (t : Term), ts = u ++ r → IsExpression u → EndsBefore r → t.IsTreeOf u →
      256 < t.height → ∃ sign, t.firstOfHeight 257 = some sign ∧
        Reader.expression ⟨ts, stop⟩ = .error (.tooDeep sign.token.pos)) := by
  refine ⟨fun u hu => ?_, fun e q => ⟨fun h => ?_, ?_⟩, ?_⟩
  · obtain ⟨t, ht⟩ := hu.exists_proper
    exact ⟨t, ht, fun t' ht' => ht'.unique ht⟩
  · obtain ⟨t, ht, hheight, hts, hend, hstop, he⟩ := expression_sound h
    exact ⟨hstop, t.tokens, hts, t.isExpression_tokens, hend, t, ⟨ht, rfl⟩, hheight, he⟩
  · rintro ⟨rfl, u, rfl, -, hend, t, ht, hheight, rfl⟩
    rw [← ht.tokens_eq]
    exact expression_tokens ht.proper hheight hend q.stop
  · rintro u r t rfl - hend ht hheight
    rw [← ht.tokens_eq]
    exact expression_tooDeep ht.proper hheight hend stop

/-- A name that stands in a given column. -/
def Term.letter (column : Nat) : Term :=
  .name ⟨⟨"a", ⟨1, column⟩⟩, show Token.Kind.ofText "a" = .identifier by decide⟩

/-- A sum with the given number of operators, all on the left side. -/
def Term.sum : Nat → Term
  | 0 => letter 1
  | n + 1 => .join (sum n) ⟨⟨"+", ⟨1, 2 * n + 2⟩⟩, .add, 3, by simp [Sign.table]⟩ (letter (2 * n + 3))

theorem Term.proper_sum (n : Nat) : (Term.sum n).Proper ∧ 3 ≤ (Term.sum n).rank := by
  induction n with
  | zero => exact ⟨trivial, by decide⟩
  | succ n ih => exact ⟨⟨ih.1, trivial, ih.2, Nat.lt_succ_of_lt (Nat.lt_succ_self 3)⟩, Nat.le_refl 3⟩

theorem Term.height_sum (n : Nat) : (Term.sum n).height = n := by
  induction n with
  | zero => rfl
  | succ n ih => simp [Term.sum, Term.letter, Term.height, ih]

/-- A sum of 258 names is one operator too high. -/
theorem expression_sum_tooDeep : 256 < (Term.sum 257).height ∧
    ∃ sign, (Term.sum 257).firstOfHeight 257 = some sign ∧
      Reader.expression ⟨(Term.sum 257).tokens ++ [⟨";", ⟨1, 516⟩⟩], ⟨1, 517⟩⟩ =
        .error (.tooDeep sign.token.pos) := by
  have hheight : 256 < (Term.sum 257).height := by rw [Term.height_sum]; decide
  refine ⟨hheight, ?_⟩
  exact (expression_eq_tree_of_grammar _ _).2.2 _ _ (Term.sum 257) rfl
    (Term.isExpression_tokens _) ⟨_, rfl, rfl⟩ ⟨(Term.proper_sum 257).1, rfl⟩ hheight

end Gateware.Grammar

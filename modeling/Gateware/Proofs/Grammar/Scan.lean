import Gateware.Proofs.Grammar.Term

/- Reading an expression into reverse Polish order.

   The scan keeps operators on a stack and puts operands out. A state of it is explained by what
   is waiting on the stack: each operator there has its left operand complete, each opening
   parenthesis has none, and between parentheses the operators bind tighter towards the top. This
   file

   1. defines such states (`Waiting`, `Waiting.Proper`) and how waiting operators that do not bind
      more loosely than an incoming one are joined (`settle`);
   2. proves for each kind of token what a step of the scan does to a state (`scan_name` to
      `scan_end`);
   3. proves by induction on a proper term that the scan takes its tokens and puts out its items
      in post-order (`scan_tokens`);
   4. proves by induction on the tokens that it takes nothing else (`run_sound`), and that a scan
      which fails with tokens left refuses one of them, whatever follows it (`run_refused`);
   5. concludes when a scan succeeds and when it fails (`scan_eq_ok_iff`, `scan_eq_error`), and,
      since the items decide the term, that no expression has two trees (`Term.IsTreeOf.unique`). -/
namespace Gateware.Grammar

/-- The items of a term in reverse Polish order: its post-order, with a mark after
each group. -/
def Term.rpn : Term → List Rpn
  | .name w => [.ident w.token]
  | .number w => [.literal w.token]
  | .group opening inner _ => inner.rpn ++ [.group opening.token]
  | .join lhs sign rhs => lhs.rpn ++ (rhs.rpn ++ [.operator sign.op sign.token])

/-- The latest item first, in front of earlier output. -/
def Term.onto (t : Term) (out : List Rpn) : List Rpn := t.rpn.reverse ++ out

@[simp] theorem Term.onto_join (lhs : Term) (sign : Sign) (rhs : Term) (out : List Rpn) :
    (Term.join lhs sign rhs).onto out = .operator sign.op sign.token :: rhs.onto (lhs.onto out) := by
  simp [Term.onto, Term.rpn]

@[simp] theorem Term.onto_group (opening : Word .leftParen) (inner : Term)
    (closing : Word .rightParen) (out : List Rpn) :
    (Term.group opening inner closing).onto out = .group opening.token :: inner.onto out := by
  simp [Term.onto, Term.rpn]

/-! ## Waiting operators -/

/-- What waits on the operator stack: an open parenthesis, or an operator with its
left operand. -/
inductive Waiting where
  | group (opening : Word .leftParen)
  | operator (lhs : Term) (sign : Sign)

namespace Waiting

/-- The items that wait, the latest first. -/
def ops : List Waiting → List Rpn
  | [] => []
  | .group opening :: s => .group opening.token :: ops s
  | .operator _ sign :: s => .operator sign.op sign.token :: ops s

/-- The output that was made, the latest item first: the left operands. -/
def out : List Waiting → List Rpn
  | [] => []
  | .group _ :: s => out s
  | .operator lhs _ :: s => lhs.onto (out s)

def tokens : List Waiting → List Token
  | [] => []
  | .group opening :: s => tokens s ++ [opening.token]
  | .operator lhs sign :: s => tokens s ++ (lhs.tokens ++ [sign.token])

/-- How tightly the operator on top binds, if there is one above the last open
parenthesis. -/
def floor : List Waiting → Nat
  | .operator _ sign :: _ => sign.rank
  | _ => 0

/-- Between parentheses, operators bind tighter towards the top, and their left
operands are proper and bind no more loosely than they do. -/
def Proper : List Waiting → Prop
  | [] => True
  | .group _ :: s => Proper s
  | .operator lhs sign :: s => lhs.Proper ∧ sign.rank ≤ lhs.rank ∧ floor s < sign.rank ∧ Proper s

/-- Joins a complete operand to the waiting operators that bind at least as tightly
as `rank`, up to an open parenthesis. -/
def settle (rank : Nat) : List Waiting → Term → List Waiting × Term
  | .operator lhs sign :: s, t =>
    if sign.rank < rank then (.operator lhs sign :: s, t) else settle rank s (.join lhs sign t)
  | s, t => (s, t)

def groups : List Waiting → Nat
  | [] => 0
  | .group _ :: s => groups s + 1
  | .operator _ _ :: s => groups s

/-- A stack with the operators on the right side of a term pushed onto it, and the
operand at the end of that side. -/
def spine : Term → List Waiting → List Waiting × Term
  | .join lhs sign rhs, s => spine rhs (.operator lhs sign :: s)
  | t, s => (s, t)

theorem floor_lt_bracket (s : List Waiting) : floor s < Operator.bracket.precedence := by
  cases s with
  | nil => exact Nat.zero_lt_succ 4
  | cons w s =>
    cases w with
    | group => exact Nat.zero_lt_succ 4
    | operator lhs sign => exact sign.rank_bounds.2

theorem settle_of_floor_lt {rank : Nat} {s : List Waiting} (t : Term) (h : floor s < rank) :
    settle rank s t = (s, t) := by
  cases s with
  | nil => rfl
  | cons w s =>
    cases w with
    | group => rfl
    | operator lhs sign => exact if_pos h

/-- Settling the right side of a term gives the term back. -/
theorem settle_spine {rank : Nat} {t : Term} (ht : t.Proper) (h : rank ≤ t.rank)
    (s : List Waiting) : settle rank (spine t s).1 (spine t s).2 = settle rank s t := by
  induction t generalizing s with
  | name | number | group => rfl
  | join lhs sign rhs _ ihr =>
    obtain ⟨-, hr, -, hlt⟩ := ht
    have hle : rank ≤ sign.rank := h
    show settle rank (spine rhs (.operator lhs sign :: s)).1 _ = _
    rw [spine, ihr hr (by omega)]
    exact if_neg (by omega)

/-- Settling keeps a state proper and takes no token away. -/
theorem settle_proper (rank : Nat) : ∀ {s : List Waiting} {t : Term}, Proper s → t.Proper →
    floor s < t.rank → Proper (settle rank s t).1 ∧ (settle rank s t).2.Proper ∧
      floor (settle rank s t).1 < (settle rank s t).2.rank ∧
      tokens (settle rank s t).1 ++ (settle rank s t).2.tokens = tokens s ++ t.tokens
  | [], t, hs, ht, hlt => ⟨hs, ht, hlt, rfl⟩
  | .group _ :: s, t, hs, ht, hlt => ⟨hs, ht, hlt, rfl⟩
  | .operator lhs sign :: s, t, hs, ht, hlt => by
    unfold settle
    split
    · exact ⟨hs, ht, hlt, rfl⟩
    · obtain ⟨hl, hle, hfloor, hs⟩ := hs
      have hjoin : (Term.join lhs sign t).Proper := ⟨hl, ht, hle, hlt⟩
      obtain ⟨h1, h2, h3, h4⟩ := settle_proper rank hs hjoin hfloor
      refine ⟨h1, h2, h3, ?_⟩
      rw [h4]
      simp [tokens, Term.tokens]

theorem floor_settle_lt {rank : Nat} : ∀ (s : List Waiting) (t : Term), 0 < rank →
    floor (settle rank s t).1 < rank
  | [], _, h => h
  | .group _ :: _, _, h => h
  | .operator lhs sign :: s, t, h => by
    unfold settle
    split
    · assumption
    · exact floor_settle_lt s _ h

theorem le_rank_settle {rank : Nat} : ∀ (s : List Waiting) {t : Term}, rank ≤ t.rank →
    rank ≤ (settle rank s t).2.rank
  | [], _, h => h
  | .group _ :: _, _, h => h
  | .operator lhs sign :: s, t, h => by
    unfold settle
    split
    · exact h
    · exact le_rank_settle s (Nat.le_of_not_lt (by assumption))

/-- With nothing too loose to join, settling stops at a parenthesis or not at all. -/
theorem settle_zero_cases : ∀ (s : List Waiting) (t : Term),
    (settle 0 s t).1 = [] ∨ ∃ opening s', (settle 0 s t).1 = .group opening :: s'
  | [], _ => .inl rfl
  | .group opening :: s, _ => .inr ⟨opening, s, rfl⟩
  | .operator lhs sign :: s, t => settle_zero_cases s (.join lhs sign t)

/-- Settling closes no parenthesis. -/
theorem groups_settle (rank : Nat) : ∀ (s : List Waiting) (t : Term), groups (settle rank s t).1 = groups s
  | [], _ => rfl
  | .group _ :: _, _ => rfl
  | .operator lhs sign :: s, t => by
    unfold settle
    split
    · rfl
    · exact groups_settle rank s _

/-! ## The steps of a scan -/

theorem yield_ops (rank : Nat) : ∀ (s : List Waiting) (t : Term),
    Rpn.yield rank (ops s) (t.onto (out s)) =
      (ops (settle rank s t).1, (settle rank s t).2.onto (out (settle rank s t).1))
  | [], t => rfl
  | .group _ :: s, t => rfl
  | .operator lhs sign :: s, t => by
    have ih := yield_ops rank s (.join lhs sign t)
    rw [Term.onto_join] at ih
    simp only [ops, out, Rpn.yield, settle, sign.precedence_op] at ih ⊢
    by_cases h : sign.rank < rank
    · simp only [h, if_true, ops, out]
    · simp only [h, if_false]; exact ih

/-- Closing a group settles what is in it. -/
theorem close_ops (pos : Position) : ∀ (s : List Waiting) (t : Term),
    Rpn.close pos (ops s) (t.onto (out s)) =
      match settle 0 s t with
      | (.group opening :: s', t') => .ok (ops s', .group opening.token :: t'.onto (out s'))
      | _ => .error (.malformedExpression pos)
  | [], t => rfl
  | .group _ :: s, t => rfl
  | .operator lhs sign :: s, t => by
    have ih := close_ops pos s (.join lhs sign t)
    rw [Term.onto_join] at ih
    exact ih

/-- The end of an expression settles everything; an open group is left over. -/
theorem finish_ops (received : Token) : ∀ (s : List Waiting) (t : Term),
    Rpn.finish received (ops s) (t.onto (out s)) =
      match settle 0 s t with
      | ([], t') => .ok t'.rpn
      | _ => .error (.unexpected .group received [.rightParen])
  | [], t => by simp [ops, out, settle, Rpn.finish, Term.onto]
  | .group _ :: s, t => rfl
  | .operator lhs sign :: s, t => by
    have ih := finish_ops received s (.join lhs sign t)
    rw [Term.onto_join] at ih
    exact ih

section Steps
variable (stop : Position) (depth : Nat) (s : List Waiting) (t : Term) (rest : List Token)

theorem scan_name (w : Word .identifier) :
    Rpn.scan stop true depth (ops s) (out s) (w.token :: rest) =
      Rpn.scan stop false depth (ops s) ((Term.name w).onto (out s)) rest := by
  simp only [Rpn.scan, w.kind_eq, if_true]
  rfl

theorem scan_number (w : Word .literal) :
    Rpn.scan stop true depth (ops s) (out s) (w.token :: rest) =
      Rpn.scan stop false depth (ops s) ((Term.number w).onto (out s)) rest := by
  simp only [Rpn.scan, w.kind_eq, if_true]
  rfl

theorem scan_open (w : Word .leftParen) :
    Rpn.scan stop true depth (ops s) (out s) (w.token :: rest) =
      Rpn.scan stop true (depth + 1) (ops (.group w :: s)) (out (.group w :: s)) rest := by
  simp only [Rpn.scan, w.kind_eq, if_true]
  rfl

/-- An operator settles what binds at least as tightly, and waits. -/
theorem scan_sign (sign : Sign) :
    Rpn.scan stop false depth (ops s) (t.onto (out s)) (sign.token :: rest) =
      Rpn.scan stop true depth
        (ops (.operator (settle sign.rank s t).2 sign :: (settle sign.rank s t).1))
        (out (.operator (settle sign.rank s t).2 sign :: (settle sign.rank s t).1)) rest := by
  have h := yield_ops sign.rank s t
  simp only [Rpn.scan, sign.isOperator, sign.symbol_eq, sign.precedence_op, Bool.false_eq_true, if_false,
    if_true]
  rw [h]
  rfl

/-- A closing parenthesis settles its group, which is then an operand. -/
theorem scan_close {s' : List Waiting} {t' : Term} {opening : Word .leftParen}
    (h : settle 0 s t = (.group opening :: s', t')) (closing : Word .rightParen) :
    Rpn.scan stop false (depth + 1) (ops s) (t.onto (out s)) (closing.token :: rest) =
      Rpn.scan stop false depth (ops s') ((Term.group opening t' closing).onto (out s')) rest := by
  have hc := close_ops closing.token.pos s t
  rw [h] at hc
  simp only [Rpn.scan, closing.kind_eq, Token.Kind.isOperator, Bool.false_eq_true, if_false,
    Nat.zero_lt_succ, and_self, if_true, hc, Term.onto_group]
  rfl

/-- Any other token ends the expression. -/
theorem scan_end {token : Token} (hop : token.kind.isOperator = false)
    (hclose : ¬(token.kind = .rightParen ∧ 0 < depth)) :
    Rpn.scan stop false depth (ops s) (t.onto (out s)) (token :: rest) =
      match settle 0 s t with
      | ([], t') => .ok (t'.rpn, token :: rest)
      | _ => .error (.unexpected .group token [.rightParen]) := by
  simp only [Rpn.scan, hop, hclose, Bool.false_eq_true, if_false, finish_ops]
  split <;> rename_i h <;> split at h <;> simp_all

end Steps

/-! ## A scan takes exactly the tokens of a proper term -/

/-- Scanning the tokens of a proper term leaves its right side waiting. -/
theorem scan_spine (stop : Position) {t : Term} (ht : t.Proper) (depth : Nat) (s : List Waiting)
    (hfloor : floor s < t.rank) (rest : List Token) :
    Rpn.scan stop true depth (ops s) (out s) (t.tokens ++ rest) =
      Rpn.scan stop false depth (ops (spine t s).1) ((spine t s).2.onto (out (spine t s).1)) rest := by
  induction t generalizing depth s rest with
  | name w => exact scan_name stop depth s rest w
  | number w => exact scan_number stop depth s rest w
  | group opening inner closing ih =>
    have hinner : inner.Proper := ht
    have hclose := settle_spine hinner (Nat.zero_le _) (.group opening :: s)
    simp only [Term.tokens, List.cons_append, List.append_assoc, List.nil_append]
    rw [scan_open, ih hinner (depth + 1) (.group opening :: s) inner.rank_pos,
      scan_close stop depth _ _ rest hclose]
    rfl
  | join lhs sign rhs ihl ihr =>
    -- the sign settles the left operand's side and nothing below it
    obtain ⟨hl, hr, hle, hlt⟩ := ht
    have hfloor' : floor s < sign.rank := hfloor
    have hsettle := settle_spine hl hle s
    rw [settle_of_floor_lt lhs hfloor'] at hsettle
    simp only [Term.tokens, List.append_assoc, List.cons_append]
    rw [ihl hl depth s (by omega), scan_sign, hsettle, ihr hr depth (.operator lhs sign :: s) hlt]
    rfl

/-- A scan puts a proper term into reverse Polish order if no operator follows. -/
theorem scan_tokens (stop : Position) {t : Term} (ht : t.Proper) {rest : List Token}
    (hrest : EndsBefore rest) : Rpn.scan stop true 0 [] [] (t.tokens ++ rest) = .ok (t.rpn, rest) := by
  obtain ⟨token, hhead, hop⟩ := hrest
  cases rest with
  | nil => simp at hhead
  | cons first rest =>
    obtain rfl : first = token := Option.some.inj hhead
    have hscan := scan_spine stop ht 0 [] t.rank_pos (first :: rest)
    rw [scan_end stop 0 _ _ rest hop (by simp), settle_spine ht (Nat.zero_le _) []] at hscan
    exact hscan

end Waiting

/-- The state of a scan: what waits, and the operand that was read last, unless one
has to come next. -/
structure Progress where
  waiting : List Waiting
  operand : Option Term

namespace Progress
open Waiting

def tokens (p : Progress) : List Token :=
  match p.operand with
  | none => Waiting.tokens p.waiting
  | some t => Waiting.tokens p.waiting ++ t.tokens

def run (p : Progress) (stop : Position) (depth : Nat) (rest : List Token) :
    Except SyntaxError (List Rpn × List Token) :=
  match p.operand with
  | none => Rpn.scan stop true depth (ops p.waiting) (out p.waiting) rest
  | some t => Rpn.scan stop false depth (ops p.waiting) (t.onto (out p.waiting)) rest

/-- What waits is proper, and so is the operand, which no operator joins outside of
parentheses. -/
def Proper (p : Progress) : Prop :=
  Waiting.Proper p.waiting ∧ ∀ t ∈ p.operand, t.Proper ∧ t.rank = Operator.bracket.precedence

theorem proper_start : Proper ⟨[], none⟩ := ⟨trivial, by simp⟩

/-- How a scan refuses a token. -/
inductive Refuses (p : Progress) (token : Token) : SyntaxError → Prop
  /-- An operand has to come, and the token begins none. -/
  | noOperand (hoperand : p.operand = none) :
      Refuses p token (.unexpected .expression token [.identifier, .literal, .leftParen])
  /-- A group is open, and the token neither goes on with it nor closes it. -/
  | unclosed (hoperand : p.operand ≠ none) (hopen : 0 < groups p.waiting) :
      Refuses p token (.unexpected .group token [.rightParen])

/-- What a scan does at a token, whatever follows: refuse it, take it, or end before it
with the items of a proper term. It counts the parentheses that are open. -/
inductive AtToken (p : Progress) (token : Token) : Prop
  | refused {e : SyntaxError} (he : p.Refuses token e)
      (h : ∀ stop rest, p.run stop (groups p.waiting) (token :: rest) = .error e)
  | taken (p' : Progress) (hp' : p'.Proper) (htokens : p'.tokens = p.tokens ++ [token])
      (h : ∀ stop rest, p.run stop (groups p.waiting) (token :: rest) = p'.run stop (groups p'.waiting) rest)
  | ended (t : Term) (ht : t.IsTreeOf p.tokens) (hop : token.kind.isOperator = false)
      (h : ∀ stop rest, p.run stop (groups p.waiting) (token :: rest) = .ok (t.rpn, token :: rest))

theorem atToken {p : Progress} (hp : p.Proper) (token : Token) : p.AtToken token := by
  obtain ⟨s, operand⟩ := p
  obtain ⟨hs, hoperand⟩ := hp
  cases operand with
  | none =>
    -- an operand is wanted: the kind of the token decides
    cases hk : token.kind with
    | identifier =>
      refine .taken ⟨s, some (.name ⟨token, hk⟩)⟩ ⟨hs, ?_⟩ rfl ?_
      · simp [Term.Proper, Term.rank]
      · intro stop rest
        exact scan_name stop (groups s) s rest ⟨token, hk⟩
    | literal =>
      refine .taken ⟨s, some (.number ⟨token, hk⟩)⟩ ⟨hs, ?_⟩ rfl ?_
      · simp [Term.Proper, Term.rank]
      · intro stop rest
        exact scan_number stop (groups s) s rest ⟨token, hk⟩
    | leftParen =>
      refine .taken ⟨.group ⟨token, hk⟩ :: s, none⟩ ⟨hs, by simp⟩ rfl ?_
      intro stop rest
      exact scan_open stop (groups s) s rest ⟨token, hk⟩
    | _ =>
      refine .refused (.noOperand rfl) ?_
      intro stop rest
      simp only [run, Rpn.scan, hk, if_true]
  | some x =>
    -- an operand was read: an operator goes on, and anything else ends a group or the scan
    obtain ⟨hx, hatom⟩ := hoperand x rfl
    have hlt : floor s < x.rank := by rw [hatom]; exact floor_lt_bracket s
    by_cases hop : token.kind.isOperator = true
    · obtain ⟨sign, rfl⟩ := Sign.exists_token_eq hop
      obtain ⟨h1, h2, h3, h4⟩ := settle_proper sign.rank hs hx hlt
      have hle : sign.rank ≤ (settle sign.rank s x).2.rank :=
        le_rank_settle s (by rw [hatom]; exact Nat.le_of_lt sign.rank_bounds.2)
      refine .taken ⟨.operator (settle sign.rank s x).2 sign :: (settle sign.rank s x).1, none⟩
        ⟨⟨h2, hle, floor_settle_lt s x sign.rank_bounds.1, h1⟩, by simp⟩ ?_ ?_
      · simp only [tokens, Waiting.tokens, ← h4, List.append_assoc]
      · intro stop rest
        show _ = Rpn.scan stop true (groups (settle sign.rank s x).1) _ _ rest
        rw [groups_settle]
        exact scan_sign stop (groups s) s x rest sign
    · have hop : token.kind.isOperator = false := by simpa using hop
      obtain ⟨h1, h2, h3, h4⟩ := settle_proper 0 hs hx hlt
      have hgroups := groups_settle 0 s x
      have hsettle : settle 0 s x = ((settle 0 s x).1, (settle 0 s x).2) := rfl
      rcases settle_zero_cases s x with hnil | ⟨opening, s', hgroup⟩
      · -- no group is open, so the expression ends even before a closing parenthesis
        rw [hnil] at h4 hsettle hgroups
        have hclose : ¬(token.kind = .rightParen ∧ 0 < groups s) := by
          rw [← hgroups]
          exact fun h => Nat.lt_irrefl 0 h.2
        refine .ended (settle 0 s x).2 ⟨h2, h4⟩ hop ?_
        intro stop rest
        have hend := scan_end stop (groups s) s x rest hop hclose
        rw [hsettle] at hend
        exact hend
      · rw [hgroup] at h1 h4 hsettle hgroups
        by_cases hk : token.kind = .rightParen
        · refine .taken ⟨s', some (.group opening (settle 0 s x).2 ⟨token, hk⟩)⟩ ⟨h1, ?_⟩ ?_ ?_
          · simpa [Term.Proper, Term.rank] using h2
          · simpa [tokens, Term.tokens, Waiting.tokens] using congrArg (· ++ [token]) h4
          · intro stop rest
            have hclose := scan_close stop (groups s') s x rest hsettle ⟨token, hk⟩
            change Rpn.scan stop false (groups s) _ _ _ = _
            rw [← hgroups]
            exact hclose
        · have hopen : 0 < groups s := by
            rw [← hgroups]
            exact Nat.zero_lt_succ _
          refine .refused (.unclosed (by simp) hopen) ?_
          intro stop rest
          have hend := scan_end stop (groups s) s x rest hop (fun h => hk h.1)
          rw [hsettle] at hend
          exact hend

/-- What a scan has taken when it ends is the token list of a proper term, and what
it puts out are the items of that term. -/
theorem run_sound (stop : Position) {items : List Rpn} {r : List Token} :
    ∀ (rest : List Token) {p : Progress}, p.Proper → p.run stop (groups p.waiting) rest = .ok (items, r) →
      ∃ t : Term, t.Proper ∧ p.tokens ++ rest = t.tokens ++ r ∧ EndsBefore r ∧ items = t.rpn
  | [], ⟨s, operand⟩, _, h => by
    cases operand <;> simp [run, Rpn.scan] at h
  | token :: rest, p, hp, h => by
    cases atToken hp token with
    | refused _ hrun => rw [hrun] at h; simp at h
    | taken p' hp' htokens hrun =>
      rw [hrun] at h
      obtain ⟨t, ht, heq, hend, hitems⟩ := run_sound stop rest hp' h
      refine ⟨t, ht, ?_, hend, hitems⟩
      rw [← heq, htokens, List.append_assoc]
      rfl
    | ended t ht hop hrun =>
      rw [hrun] at h
      simp only [Except.ok.injEq, Prod.mk.injEq] at h
      obtain ⟨rfl, rfl⟩ := h
      exact ⟨t, ht.proper, by rw [ht.tokens_eq], ⟨token, rfl, hop⟩, rfl⟩

/-- A scan that fails has run out of tokens or refuses one, and then it does so whatever
follows that token. -/
theorem run_refused (stop : Position) {e : SyntaxError} :
    ∀ (ts : List Token) {p : Progress}, p.Proper → p.run stop (groups p.waiting) ts = .error e →
      e = .endOfInput ⟨stop⟩ ∨ ∃ (u : List Token) (token : Token) (rest : List Token) (p' : Progress),
        ts = u ++ token :: rest ∧ p'.tokens = p.tokens ++ u ∧ p'.Refuses token e ∧
        ∀ stop' rest', p.run stop' (groups p.waiting) (u ++ token :: rest') = .error e
  | [], ⟨s, operand⟩, _, h => by
    left
    cases operand <;> simpa [run, Rpn.scan] using h.symm
  | token :: ts, p, hp, h => by
    cases atToken hp token with
    | refused he hrun =>
      rw [hrun] at h
      obtain rfl := Except.error.inj h
      exact .inr ⟨[], token, ts, p, rfl, by simp, he, hrun⟩
    | taken p' hp' htokens hrun =>
      rw [hrun] at h
      rcases run_refused stop ts hp' h with heof | ⟨u, t, rest, p₁, rfl, htokens₁, he, hrun₁⟩
      · exact .inl heof
      · refine .inr ⟨token :: u, t, rest, p₁, rfl, ?_, he, ?_⟩
        · rw [htokens₁, htokens, List.append_assoc]
          rfl
        · intro stop' rest'
          exact (hrun stop' _).trans (hrun₁ stop' rest')
    | ended t ht hop hrun => rw [hrun] at h; simp at h

end Progress

/-- A scan succeeds exactly on the tokens of a proper term with no operator after
them. -/
theorem scan_eq_ok_iff {stop : Position} {ts r : List Token} {items : List Rpn} :
    Rpn.scan stop true 0 [] [] ts = .ok (items, r) ↔
      ∃ t : Term, t.Proper ∧ ts = t.tokens ++ r ∧ EndsBefore r ∧ items = t.rpn := by
  refine ⟨fun h => ?_, ?_⟩
  · exact Progress.run_sound stop ts Progress.proper_start h
  · rintro ⟨t, ht, rfl, hend, rfl⟩
    exact Waiting.scan_tokens stop ht hend

theorem scan_eq_error {stop : Position} {ts : List Token} {e : SyntaxError}
    (h : Rpn.scan stop true 0 [] [] ts = .error e) :
    e = .endOfInput ⟨stop⟩ ∨ ∃ (u : List Token) (token : Token) (rest : List Token) (p : Progress),
      ts = u ++ token :: rest ∧ p.tokens = u ∧ p.Refuses token e ∧
      ∀ stop' rest', Rpn.scan stop' true 0 [] [] (u ++ token :: rest') = .error e :=
  Progress.run_refused stop ts Progress.proper_start h

/-! ## A token list has at most one proper term -/

/-- Terms with the same items and the same tokens, both read from the end, are equal. -/
theorem Term.eq_of_rpn_eq {t t' : Term} {x x' : List Rpn} {y y' : List Token}
    (hrpn : t.rpn.reverse ++ x = t'.rpn.reverse ++ x')
    (htokens : t.tokens.reverse ++ y = t'.tokens.reverse ++ y') : t = t' ∧ x = x' ∧ y = y' := by
  -- read from the end, the last item tells the constructor, and the tokens its words
  induction t generalizing t' x x' y y' with
  | name w =>
    cases t' <;> simp_all [Term.rpn, Term.tokens, Word.ext_iff]
  | number w =>
    cases t' <;> simp_all [Term.rpn, Term.tokens, Word.ext_iff]
  | group opening inner closing ih =>
    cases t' with
    | group opening' inner' closing' =>
      simp only [Term.rpn, Term.tokens, List.reverse_append, List.reverse_cons, List.reverse_nil,
        List.nil_append, List.cons_append, List.append_assoc, List.cons.injEq, Rpn.group.injEq]
        at hrpn htokens
      obtain ⟨ho, hrpn⟩ := hrpn
      obtain ⟨hc, htokens⟩ := htokens
      obtain ⟨rfl, rfl, hy⟩ := ih hrpn htokens
      simp only [List.cons.injEq] at hy
      exact ⟨by rw [Word.ext ho, Word.ext hc], rfl, hy.2⟩
    | _ => simp [Term.rpn] at hrpn
  | join lhs sign rhs ihl ihr =>
    cases t' with
    | join lhs' sign' rhs' =>
      simp only [Term.rpn, Term.tokens, List.reverse_append, List.reverse_cons, List.reverse_nil,
        List.nil_append, List.cons_append, List.append_assoc, List.cons.injEq] at hrpn htokens
      obtain ⟨rfl, hrpn, htokens⟩ := ihr hrpn.2 htokens
      simp only [List.cons.injEq] at htokens
      obtain ⟨rfl, rfl, rfl⟩ := ihl hrpn htokens.2
      exact ⟨by rw [Sign.eq_of_token_eq htokens.1], rfl, rfl⟩
    | _ => simp [Term.rpn] at hrpn

/-- Proper terms that begin the same tokens, with no operator after them, are equal. -/
theorem Term.eq_of_tokens_append {t t' : Term} {r r' : List Token} (ht : t.Proper) (ht' : t'.Proper)
    (hr : EndsBefore r) (hr' : EndsBefore r') (h : t.tokens ++ r = t'.tokens ++ r') : t = t' ∧ r = r' := by
  have hscan := Waiting.scan_tokens Position.start ht hr
  rw [h, Waiting.scan_tokens Position.start ht' hr'] at hscan
  simp only [Except.ok.injEq, Prod.mk.injEq] at hscan
  obtain ⟨hrpn, rfl⟩ := hscan
  have htokens : t.tokens = t'.tokens := List.append_cancel_right h
  exact ⟨(Term.eq_of_rpn_eq (x := []) (y := []) (by rw [hrpn]) (by rw [htokens])).1, rfl⟩

/-- No expression has two trees. -/
theorem Term.IsTreeOf.unique {t t' : Term} {u : List Token} (h : t.IsTreeOf u)
    (h' : t'.IsTreeOf u) : t = t' := by
  have hend : EndsBefore [⟨";", Position.start⟩] := ⟨_, rfl, rfl⟩
  have htokens := h.tokens_eq.trans h'.tokens_eq.symm
  exact (Term.eq_of_tokens_append h.proper h'.proper hend hend (by rw [htokens])).1

end Gateware.Grammar

import Gateware.Syntax.Rpn

/- Expressions as they are written.

   An expression is a list of tokens: operands joined by operators, an operand being a name, a
   number or an expression in parentheses. Its tree depends on how it is grouped. This file

   1. carries the kind of a token in its type (`Word`) and lists the operators that join operands,
      with how tightly each binds (`Sign.table`, `Sign`);
   2. states the grammar of the token lists that are expressions, without grouping
      (`IsExpression`), and where an expression ends (`EndsBefore`);
   3. defines a token list with its grouping (`Term`): its tokens, its tree, which forgets the
      parentheses (`toExpr`), where its first token stands (`lead`), and the operators on its
      longest path (`height`); a term is `Proper` if the grouping is the one that the precedences
      ask for, operators of one precedence grouping to the left;
   4. proves that every expression is the token list of a proper term
      (`IsExpression.exists_proper`), by adding one operator and operand after another (`extend`).

   That there is only one such term is proved with the scan (`Term.IsTreeOf.unique`). -/
namespace Gateware.Grammar

/-! ## Words -/

/-- A token of a given kind. -/
@[ext] structure Word (kind : Token.Kind) where
  token : Token
  kind_eq : token.kind = kind
  deriving DecidableEq

/-- The operators that join two operands: how each is written and how tightly it binds.
Comparisons bind most loosely, then shifts, sums and products. -/
def Sign.table : List (String × Operator × Nat) :=
  [("==", .equals, 1), (">=", .greaterEq, 1), ("<=", .lessEq, 1), (">", .greater, 1), ("<", .less, 1),
   ("<<", .leftShift, 2), (">>", .rightShift, 2), ("+", .add, 3), ("-", .sub, 3), ("*", .mul, 4),
   ("/", .div, 4)]

/-- A token that joins two operands, the operator it stands for and how tightly that
binds. -/
@[ext] structure Sign where
  token : Token
  op : Operator
  rank : Nat
  listed : (token.text, op, rank) ∈ Sign.table
  deriving DecidableEq

/-- The keywords and symbols, each with its kind. -/
def reserved : List (String × Token.Kind) :=
  [("in", .direction), ("out", .direction), ("inout", .direction), ("wire", .storage), ("reg", .storage),
   ("if", .ifWord), ("else", .elseWord), ("switch", .switchWord), ("default", .defaultWord),
   (";", .endOfStatement), ("(", .leftParen), (")", .rightParen), ("\x7b", .leftBrace), ("\x7d", .rightBrace),
   ("[", .leftBracket), ("]", .rightBracket), ("@", .atMark), ("!", .bang), (",", .comma), (":", .colon),
   ("+", .arithmetic), ("-", .arithmetic), ("*", .arithmetic), ("/", .arithmetic), ("<<", .arithmetic),
   (">>", .arithmetic), ("=", .assign), ("<-", .assign), ("==", .comparison), (">=", .comparison),
   ("<=", .comparison), (">", .comparison), ("<", .comparison)]

/-- The kind of a text is in the table, or else given by its first character. -/
theorem ofText_cases (text : String) : (text, Token.Kind.ofText text) ∈ reserved ∨
    Token.Kind.ofText text = Token.Kind.ofFirst text.toList := by
  unfold Token.Kind.ofText
  split
  all_goals first
    | exact .inl (by decide)
    | exact .inr rfl

/-- A text that is no keyword and no symbol is a name, a number or nothing known. -/
theorem ofFirst_cases (cs : List Char) : Token.Kind.ofFirst cs = .identifier ∨
    Token.Kind.ofFirst cs = .literal ∨ Token.Kind.ofFirst cs = .unknown := by
  unfold Token.Kind.ofFirst
  split
  · exact .inr (.inr rfl)
  · split
    · exact .inl rfl
    · split
      · exact .inr (.inl rfl)
      · exact .inr (.inr rfl)

namespace Sign

theorem table_spec : ∀ row ∈ table, (Token.Kind.ofText row.1).isOperator = true ∧
    Operator.ofSymbol? row.1 = some row.2.1 ∧ row.2.1.precedence = row.2.2 ∧
    0 < row.2.2 ∧ row.2.2 < Operator.bracket.precedence := by
  decide

theorem isOperator (s : Sign) : s.token.kind.isOperator = true := (table_spec _ s.listed).1

theorem symbol_eq (s : Sign) : Operator.ofSymbol? s.token.text = some s.op := (table_spec _ s.listed).2.1

theorem precedence_op (s : Sign) : s.op.precedence = s.rank := (table_spec _ s.listed).2.2.1

theorem rank_bounds (s : Sign) : 0 < s.rank ∧ s.rank < Operator.bracket.precedence :=
  (table_spec _ s.listed).2.2.2

theorem mem_table_of_isOperator {text : String} (h : (Token.Kind.ofText text).isOperator = true) :
    ∃ op rank, (text, op, rank) ∈ table := by
  have hall : ∀ p ∈ reserved, p.2.isOperator = true → ∃ row ∈ table, row.1 = p.1 := by decide
  rcases ofText_cases text with hreserved | hfirst
  · obtain ⟨⟨_, op, rank⟩, hrow, rfl⟩ := hall _ hreserved h
    exact ⟨op, rank, hrow⟩
  · rw [hfirst] at h
    rcases ofFirst_cases text.toList with hk | hk | hk <;> rw [hk] at h <;> cases h

/-- Every token of an operator kind is a sign. -/
theorem exists_token_eq {token : Token} (h : token.kind.isOperator = true) : ∃ s : Sign, s.token = token := by
  obtain ⟨op, rank, hmem⟩ := mem_table_of_isOperator h
  exact ⟨⟨token, op, rank, hmem⟩, rfl⟩

/-- Signs with one token are equal, since the text decides the operator. -/
theorem eq_of_token_eq {s s' : Sign} (h : s.token = s'.token) : s = s' := by
  have hop : s.op = s'.op := by
    have hs := s.symbol_eq
    rw [h, s'.symbol_eq] at hs
    exact (Option.some.inj hs).symm
  refine Sign.ext h hop ?_
  rw [← s.precedence_op, hop, s'.precedence_op]

end Sign

/-! ## The grammar of expressions -/

mutual

/-- The token lists that are operands. -/
inductive IsOperand : List Token → Prop
  | name (w : Word .identifier) : IsOperand [w.token]
  | number (w : Word .literal) : IsOperand [w.token]
  | group (opening : Word .leftParen) {u : List Token} (inner : IsExpression u)
      (closing : Word .rightParen) : IsOperand (opening.token :: (u ++ [closing.token]))

/-- The token lists that are expressions: operands with operators between them. -/
inductive IsExpression : List Token → Prop
  | operand {u : List Token} (h : IsOperand u) : IsExpression u
  | chain {u v : List Token} (h : IsExpression u) {t : Token} (ht : t.kind.isOperator = true)
      (hv : IsOperand v) : IsExpression (u ++ t :: v)

end

/-- Expressions joined by an operator are an expression. -/
theorem IsExpression.join {u v : List Token} (hu : IsExpression u) {t : Token}
    (ht : t.kind.isOperator = true) : IsExpression v → IsExpression (u ++ t :: v)
  | .operand hv => .chain hu ht hv
  | .chain hv ht' hw => by
    have h := IsExpression.chain (IsExpression.join hu ht hv) ht' hw
    simpa using h

/-- Where an expression ends: a token follows it, and it is no operator. -/
def EndsBefore (rest : List Token) : Prop :=
  ∃ t, rest.head? = some t ∧ t.kind.isOperator = false

/-! ## Terms -/

/-- An expression with its grouping. -/
inductive Term where
  | name (w : Word .identifier)
  | number (w : Word .literal)
  | group (opening : Word .leftParen) (inner : Term) (closing : Word .rightParen)
  | join (lhs : Term) (sign : Sign) (rhs : Term)
  deriving DecidableEq

namespace Term

/-- The tokens of a term, in the order in which they are written. -/
def tokens : Term → List Token
  | .name w => [w.token]
  | .number w => [w.token]
  | .group opening inner closing => opening.token :: (inner.tokens ++ [closing.token])
  | .join lhs sign rhs => lhs.tokens ++ sign.token :: rhs.tokens

/-- How tightly a term holds together: as its outermost operator binds, and
tightest if there is none outside of parentheses. -/
def rank : Term → Nat
  | .join _ sign _ => sign.rank
  | _ => Operator.bracket.precedence

/-- Whether the grouping follows the precedences: no operand of an operator is
joined by one that binds more loosely, nor, on the right, by one that binds just as
tightly. -/
def Proper : Term → Prop
  | .name _ | .number _ => True
  | .group _ inner _ => inner.Proper
  | .join lhs sign rhs => lhs.Proper ∧ rhs.Proper ∧ sign.rank ≤ lhs.rank ∧ sign.rank < rhs.rank

/-- Where the first token of a term stands. -/
def lead : Term → Position
  | .name w => w.token.pos
  | .number w => w.token.pos
  | .group opening _ _ => opening.token.pos
  | .join lhs _ _ => lhs.lead

/-- The tree of a term. Parentheses leave no node; a node of an operator stands where
its left operand begins. -/
def toExpr : Term → Expr
  | .name w => .ident ⟨w.token.text, w.token.pos⟩
  | .number w => .literal ⟨w.token.text, w.token.pos⟩
  | .group _ inner _ => inner.toExpr
  | .join lhs sign rhs => .binary sign.op lhs.toExpr rhs.toExpr lhs.lead

/-- The most operators on a path from the root to a leaf. -/
def height : Term → Nat
  | .name _ | .number _ => 0
  | .group _ inner _ => inner.height
  | .join lhs _ rhs => max lhs.height rhs.height + 1

/-- The signs of a term in post-order, each with the height of the part that it
joins. -/
def joints : Term → List (Sign × Nat)
  | .name _ | .number _ => []
  | .group _ inner _ => inner.joints
  | .join lhs sign rhs =>
    lhs.joints ++ (rhs.joints ++ [(sign, max lhs.height rhs.height + 1)])

/-- The sign that joins the first part, in post-order, of the given height. -/
def firstOfHeight (n : Nat) (t : Term) : Option Sign :=
  (t.joints.find? (fun j => j.2 == n)).map (·.1)

/-- The term groups the given tokens, and as the precedences ask. -/
structure IsTreeOf (t : Term) (u : List Token) : Prop where
  proper : t.Proper
  tokens_eq : t.tokens = u

theorem rank_pos (t : Term) : 0 < t.rank := by
  cases t with
  | join _ sign _ => exact sign.rank_bounds.1
  | name | number | group => exact Nat.zero_lt_succ 4

/-- The lead of a term is the position of its first token. -/
theorem head_tokens (t : Term) : t.tokens.head?.map (·.pos) = some t.lead := by
  induction t with
  | name | number | group => rfl
  | join lhs sign rhs ihl ihr =>
    simp only [tokens, lead]
    cases h : lhs.tokens with
    | nil => rw [h] at ihl; simp at ihl
    | cons t ts => rw [h] at ihl; simpa using ihl

theorem tokens_ne_nil (t : Term) : t.tokens ≠ [] := by
  intro hnil
  have hlead := t.head_tokens
  rw [hnil] at hlead
  cases hlead

/-! ## Every expression is the token list of one proper term -/

/-- Any term, proper or not, is written as an expression. -/
theorem isExpression_tokens (t : Term) : IsExpression t.tokens := by
  induction t with
  | name w => exact .operand (.name w)
  | number w => exact .operand (.number w)
  | group opening inner closing ih => exact .operand (.group opening ih closing)
  | join lhs sign rhs ihl ihr => exact ihl.join sign.isOperator ihr

/-- A term with one more operator and operand after it, which go down its right side
to where the operator finds only tighter ones below. -/
def extend : Term → Sign → Term → Term
  | .join lhs sign rhs, s, x =>
    if sign.rank < s.rank then .join lhs sign (rhs.extend s x) else .join (.join lhs sign rhs) s x
  | t, s, x => .join t s x

theorem tokens_extend (t : Term) (s : Sign) (x : Term) :
    (t.extend s x).tokens = t.tokens ++ s.token :: x.tokens := by
  induction t with
  | name | number | group => rfl
  | join lhs sign rhs _ ihr =>
    unfold extend
    split
    · simp [tokens, ihr]
    · rfl

theorem rank_extend (t : Term) (s : Sign) (x : Term) : min t.rank s.rank ≤ (t.extend s x).rank := by
  cases t with
  | name | number | group => exact Nat.min_le_right _ _
  | join lhs sign rhs =>
    unfold extend
    split
    · exact Nat.min_le_left _ _
    · exact Nat.min_le_right _ _

theorem proper_extend {t : Term} (s : Sign) {x : Term} (ht : t.Proper) (hx : x.Proper)
    (hs : s.rank < x.rank) : (t.extend s x).Proper := by
  have hb := s.rank_bounds.2
  induction t with
  | name | number | group => exact ⟨ht, hx, Nat.le_of_lt hb, hs⟩
  | join lhs sign rhs _ ihr =>
    unfold extend
    split
    · rename_i hlt
      obtain ⟨hl, hr, hll, hrr⟩ := ht
      have := rank_extend rhs s x
      exact ⟨hl, ihr hr, hll, by omega⟩
    · rename_i hge
      exact ⟨ht, hx, Nat.le_of_not_lt hge, hs⟩

end Term

mutual

theorem IsOperand.exists_proper {u : List Token} : IsOperand u →
    ∃ t : Term, t.IsTreeOf u ∧ t.rank = Operator.bracket.precedence
  | .name w => ⟨.name w, ⟨trivial, rfl⟩, rfl⟩
  | .number w => ⟨.number w, ⟨trivial, rfl⟩, rfl⟩
  | .group opening inner closing => by
    obtain ⟨t, ht⟩ := inner.exists_proper
    exact ⟨.group opening t closing, ⟨ht.proper, by simp [Term.tokens, ht.tokens_eq]⟩, rfl⟩

theorem IsExpression.exists_proper {u : List Token} : IsExpression u → ∃ t : Term, t.IsTreeOf u
  | .operand h => by
    obtain ⟨t, ht, -⟩ := h.exists_proper
    exact ⟨t, ht⟩
  | .chain (t := token) hu htoken hv => by
    obtain ⟨t, ht⟩ := hu.exists_proper
    obtain ⟨x, hx, hrank⟩ := hv.exists_proper
    obtain ⟨sign, rfl⟩ := Sign.exists_token_eq htoken
    refine ⟨t.extend sign x, Term.proper_extend sign ht.proper hx.proper ?_, ?_⟩
    · rw [hrank]; exact sign.rank_bounds.2
    · rw [Term.tokens_extend, ht.tokens_eq, hx.tokens_eq]

end

end Gateware.Grammar

import Gateware.Proofs.Naming.Occurrence
import Gateware.Proofs.Printing.Words

/- How Verilog groups a printed expression.

   In Verilog equality binds more loosely than the order relations. Parentheses are printed by
   precedences that have all comparisons on one level, so of an expression like `a == b < c` the
   tree changes: the relation takes only what is on the right of the equality. This file

   1. states the grammar of Verilog expressions on words (`Groups`);
   2. proves that it gives words at most one tree (`Groups.unique`), since a reader with a stack finds
      that tree (`read_eq_of_groups`);
   3. defines what becomes of a tree (`regrouped`) and proves that it is the tree which Verilog gives
      to the printed words (`Expr.Spelled.opened`);
   4. compares with the tree of the source (`Mirrors`): the tree stays as it is exactly if no
      relation in it has an equality as its left operand (`Mirrors.regrouped_eq_iff`);
   5. concludes for expressions that were read from a source text (`verilog_reading_of_expression`). -/
namespace Gateware

namespace Verilog

/-- How tightly an operator binds in Verilog. -/
def BinaryOp.level : BinaryOp → Nat
  | .equals => 0
  | .greaterEq | .lessEq | .greater | .less => 1
  | .leftShift | .rightShift => 2
  | .add | .sub => 3
  | .mul | .div => 4

/-- The words of an expression and its tree, by the grammar of Verilog. Operators group to
the left, and parentheses leave no node. Outside of parentheses stand only operators
of level `n` or more. -/
inductive Groups : Nat → List String → Expr → Prop
  | name {n : Nat} {text : String} (h : Token.Kind.ofText text = .identifier) : Groups n [text] (.name text)
  | literal {n : Nat} {text : String} (h : Token.Kind.ofText text = .literal) : Groups n [text] (.literal text)
  | paren {n : Nat} {ws : List String} {e : Expr} (h : Groups 0 ws e) : Groups n ("(" :: (ws ++ [")"])) e
  | binary {n : Nat} {op : BinaryOp} {u w : List String} {l r : Expr} (hn : n ≤ op.level)
      (hl : Groups op.level u l) (hr : Groups (op.level + 1) w r) : Groups n (u ++ op.symbol :: w) (.binary op l r)

/-! ## A reader -/

/-- What waits for the rest of an expression: an open parenthesis, or an operator with its
left operand. -/
inductive Waiting where
  | paren
  | operator (lhs : Expr) (op : BinaryOp)

/-- Joins an expression with what waits for it, down to an operator below the given level. -/
def settle (n : Nat) : Expr → List Waiting → Expr × List Waiting
  | e, .operator lhs op :: stack =>
    if n ≤ op.level then settle n (.binary op lhs e) stack else (e, .operator lhs op :: stack)
  | e, stack => (e, stack)

def BinaryOp.ofSymbol? (symbol : String) : Option BinaryOp :=
  [.add, .sub, .mul, .div, .leftShift, .rightShift, .equals, .greaterEq, .lessEq, .greater, .less].find?
    (·.symbol == symbol)

/-- The expression that is a single word. -/
def leaf? (word : String) : Option Expr :=
  match Token.Kind.ofText word with
  | .identifier => some (.name word)
  | .literal => some (.literal word)
  | _ => none

mutual

/-- Reads on where an operand begins. -/
def readOperand (stack : List Waiting) : List String → Option Expr
  | [] => none
  | w :: ws =>
    if w = "(" then readOperand (.paren :: stack) ws else (leaf? w).bind fun e => readOperator e stack ws

/-- Reads on after an operand. -/
def readOperator (e : Expr) (stack : List Waiting) : List String → Option Expr
  | [] =>
    match settle 0 e stack with
    | (e, []) => some e
    | _ => none
  | w :: ws =>
    if w = ")" then
      match settle 0 e stack with
      | (e, .paren :: stack) => readOperator e stack ws
      | _ => none
    else (BinaryOp.ofSymbol? w).bind fun op =>
      readOperand (.operator (settle op.level e stack).1 op :: (settle op.level e stack).2) ws

end

/-- Nothing that waits next is an operator of level `n` or more. -/
def Fits (n : Nat) : List Waiting → Prop
  | .operator _ op :: _ => op.level < n
  | _ => True

theorem settle_of_fits {n : Nat} {stack : List Waiting} (h : Fits n stack) (e : Expr) :
    settle n e stack = (e, stack) := by
  match stack with
  | [] => rfl
  | .paren :: stack => rfl
  | .operator lhs op :: stack => rw [settle, if_neg (Nat.not_le_of_lt h)]

theorem fits_of_le {m n : Nat} {stack : List Waiting} (h : Fits n stack) (hle : n ≤ m) : Fits m stack := by
  match stack with
  | [] => trivial
  | .paren :: stack => trivial
  | .operator lhs op :: stack => exact Nat.lt_of_lt_of_le h hle

theorem ofSymbol?_symbol (op : BinaryOp) : BinaryOp.ofSymbol? op.symbol = some op ∧ op.symbol ≠ ")" := by
  cases op <;> decide

theorem readOperand_word {text : String} {e : Expr} (h : leaf? text = some e) (stack : List Waiting)
    (ws : List String) : readOperand stack (text :: ws) = readOperator e stack ws := by
  have hne : text ≠ "(" := by
    rintro rfl
    cases (show leaf? "(" = none from rfl).symm.trans h
  rw [readOperand, if_neg hne, h]
  rfl

theorem readOperator_symbol (op : BinaryOp) (e : Expr) (stack : List Waiting) (ws : List String) :
    readOperator e stack (op.symbol :: ws) =
      readOperand (.operator (settle op.level e stack).1 op :: (settle op.level e stack).2) ws := by
  obtain ⟨hop, hne⟩ := ofSymbol?_symbol op
  rw [readOperator, if_neg hne, hop]
  rfl

/-- After the words of an expression the reader holds its parts, which settle to it. -/
theorem Groups.readOperand_append {n : Nat} {ws : List String} {e : Expr} (h : Groups n ws e) :
    ∀ (stack : List Waiting) (rest : List String), Fits n stack → ∃ e' stack',
      readOperand stack (ws ++ rest) = readOperator e' stack' rest ∧
        ∀ m ≤ n, settle m e' stack' = settle m e stack := by
  induction h with
  | name h =>
    intro stack rest _
    exact ⟨_, stack, readOperand_word (by rw [leaf?, h]) stack rest, fun _ _ => rfl⟩
  | literal h =>
    intro stack rest _
    exact ⟨_, stack, readOperand_word (by rw [leaf?, h]) stack rest, fun _ _ => rfl⟩
  | @paren n ws e _ ih =>
    intro stack rest _
    obtain ⟨e', stack', hread, hsettle⟩ := ih (.paren :: stack) (")" :: rest) trivial
    have hclosed : settle 0 e' stack' = (e, .paren :: stack) := hsettle 0 (Nat.le_refl 0)
    refine ⟨e, stack, ?_, fun _ _ => rfl⟩
    calc readOperand stack ("(" :: (ws ++ [")"]) ++ rest)
        = readOperand (.paren :: stack) (ws ++ ")" :: rest) := by simp [readOperand]
      _ = readOperator e' stack' (")" :: rest) := hread
      _ = readOperator e stack rest := by simp only [readOperator, hclosed, if_true]
  | @binary n op u w l r hn _ _ ihl ihr =>
    intro stack rest hfits
    have hfits' := fits_of_le hfits hn
    obtain ⟨l', stackL, hreadL, hsettleL⟩ := ihl stack (op.symbol :: (w ++ rest)) hfits'
    have hleft : settle op.level l' stackL = (l, stack) :=
      (hsettleL _ (Nat.le_refl _)).trans (settle_of_fits hfits' l)
    obtain ⟨r', stackR, hreadR, hsettleR⟩ := ihr (.operator l op :: stack) rest (Nat.lt_succ_self _)
    refine ⟨r', stackR, ?_, ?_⟩
    · calc readOperand stack (u ++ op.symbol :: w ++ rest)
          = readOperand stack (u ++ op.symbol :: (w ++ rest)) := by simp
        _ = readOperator l' stackL (op.symbol :: (w ++ rest)) := hreadL
        _ = readOperand (.operator l op :: stack) (w ++ rest) := by rw [readOperator_symbol, hleft]
        _ = readOperator r' stackR rest := hreadR
    · intro m hm
      rw [hsettleR m (by omega), settle, if_pos (by omega)]

theorem read_eq_of_groups {ws : List String} {e : Expr} (h : Groups 0 ws e) : readOperand [] ws = some e := by
  obtain ⟨e', stack', hread, hsettle⟩ := h.readOperand_append [] [] trivial
  have hsettled : settle 0 e' stack' = (e, []) := hsettle 0 (Nat.le_refl 0)
  rw [List.append_nil] at hread
  rw [hread, readOperator, hsettled]

/-- Words have at most one tree. -/
theorem Groups.unique {ws : List String} {e e' : Expr} (h : Groups 0 ws e) (h' : Groups 0 ws e') : e = e' := by
  have hread := read_eq_of_groups h
  rw [read_eq_of_groups h'] at hread
  exact (Option.some.inj hread).symm

/-! ## Regrouping -/

namespace Expr

/-- An operator with its operands, where the left one stands without parentheses. A
relation after an equality takes only what is on the right of it. -/
def joined (op : BinaryOp) (lhs rhs : Expr) : Expr :=
  match lhs with
  | .binary .equals x y => if op.level = 1 then .binary .equals x (.binary op y rhs) else .binary op lhs rhs
  | _ => .binary op lhs rhs

/-- The tree that the text of a tree has in Verilog. -/
def regrouped : Expr → Expr
  | .binary op lhs rhs => joined op lhs.regrouped rhs.regrouped
  | e => e

/-- The level of the outermost operator. -/
def level : Expr → Nat
  | .binary op _ _ => op.level
  | _ => Operator.bracket.precedence

theorem joined_of_ne {op : BinaryOp} {l : Expr} (r : Expr) (h : op.level = 1 → l.level ≠ 0) :
    joined op l r = .binary op l r := by
  unfold joined
  split
  · rw [if_neg]
    intro hop
    exact h hop rfl
  · rfl

theorem joined_equals {op : BinaryOp} (hop : op.level = 1) (x y r : Expr) :
    joined op (.binary .equals x y) r = .binary .equals x (.binary op y r) := if_pos hop

/-- Only an equality has level zero. -/
theorem eq_equals_of_level {e : Expr} (h : e.level = 0) : ∃ x y, e = .binary .equals x y := by
  cases e with
  | binary op x y =>
    cases op with
    | equals => exact ⟨x, y, rfl⟩
    | _ => cases h
  | _ => cases h

end Expr

/-- The two scales differ only in comparisons. -/
theorem level_cases (op : BinaryOp) :
    (op.precedence = 1 ∧ op.level ≤ 1) ∨ (2 ≤ op.precedence ∧ op.level = op.precedence) := by
  cases op <;> decide

theorem level_regrouped {e : Expr} (h : 2 ≤ e.rank) : e.regrouped.level = e.rank := by
  cases e with
  | binary op l r =>
    have hop : 2 ≤ op.precedence := h
    have hlevel := level_cases op
    rw [Expr.regrouped, Expr.joined_of_ne _ (by omega)]
    change op.level = op.precedence
    omega
  | _ => rfl

/-- Words are grouped as a tree, with its outermost operator outside of parentheses. -/
def Opened (ws : List String) : Expr → Prop
  | .binary op x y => ∃ u w, ws = u ++ op.symbol :: w ∧ Groups op.level u x ∧ Groups (op.level + 1) w y
  | e => ∀ n, Groups n ws e

theorem Opened.groups {ws : List String} {e : Expr} (h : Opened ws e) {n : Nat} (hn : n ≤ e.level) :
    Groups n ws e := by
  cases e with
  | binary op x y =>
    obtain ⟨u, w, rfl, hx, hy⟩ := h
    exact .binary hn hx hy
  | _ => exact h n

/-- An operand on the right of an operator, in the parentheses that are printed for it. -/
theorem Opened.right {e : Expr} {ws : List String} (h : Opened ws e.regrouped) (op : BinaryOp) :
    Groups (op.level + 1) (Expr.parenthesized (e.needsParens op true) ws) e.regrouped := by
  cases hparens : e.needsParens op true with
  | true => exact .paren (h.groups (Nat.zero_le _))
  | false =>
    obtain ⟨-, hlt⟩ := precedence_of_needsParens hparens
    have hlt := hlt rfl
    have hlevel := level_cases op
    refine h.groups ?_
    rw [level_regrouped (by omega)]
    omega

/-- An operator between two operands, the left one in the parentheses that are printed for
it. -/
theorem Opened.joined {e r : Expr} {u w : List String} (h : Opened u e.regrouped) {op : BinaryOp}
    (hr : Groups (op.level + 1) w r) :
    Opened (Expr.parenthesized (e.needsParens op false) u ++ op.symbol :: w) (Expr.joined op e.regrouped r) := by
  have hlevel := level_cases op
  cases hparens : e.needsParens op false with
  | true =>
    -- only an operator that binds more tightly than comparisons has parentheses on its left
    have hop : op.level ≠ 1 := by
      cases e with
      | binary op' x y =>
        have hlevel' := level_cases op'
        simp [Expr.needsParens] at hparens
        omega
      | _ => cases hparens
    rw [Expr.joined_of_ne r (fun h => absurd h hop)]
    exact ⟨_, w, rfl, .paren (h.groups (Nat.zero_le _)), hr⟩
  | false =>
    obtain ⟨hle, -⟩ := precedence_of_needsParens hparens
    by_cases hequality : op.level = 1 ∧ e.regrouped.level = 0
    · -- the relation goes to the right of the equality
      obtain ⟨hop, hzero⟩ := hequality
      obtain ⟨x, y, heq⟩ := Expr.eq_equals_of_level hzero
      rw [heq] at h ⊢
      obtain ⟨a, b, rfl, hx, hy⟩ := h
      rw [Expr.joined_equals hop]
      have hy' : Groups op.level b y := by rw [hop]; exact hy
      exact ⟨a, b ++ op.symbol :: w, by simp [Expr.parenthesized], hx, .binary (Nat.le_of_eq hop.symm) hy' hr⟩
    · rw [Expr.joined_of_ne r (fun hop hzero => hequality ⟨hop, hzero⟩)]
      refine ⟨u, w, rfl, h.groups ?_, hr⟩
      by_cases hrank : 2 ≤ e.rank
      · rw [level_regrouped hrank]
        omega
      · omega

/-- The printed words of a tree are grouped as the regrouped tree. -/
theorem Expr.Spelled.opened {e : Expr} {ws : List String} (h : e.Spelled ws) : Opened ws e.regrouped := by
  induction h with
  | name h => exact fun _ => .name h.2
  | literal h => exact fun _ => .literal h.2
  | binary op _ _ ihl ihr => exact ihl.joined (ihr.right op)

end Verilog

/-! ## Trees of the source -/

namespace Expr

/-- The second tree is the first one in Verilog: names are the emitted ones of the scope,
and each operator is written with its own symbol. -/
inductive Mirrors (scope : Scope) : Expr → Verilog.Expr → Prop
  | ident {id : Ident} {b : Binding} (hb : scope.lookup id.name = some b) :
      Mirrors scope (.ident id) (.name b.emitted)
  | literal (lit : Literal) : Mirrors scope (.literal lit) (.literal lit.value)
  | binary {op : Operator} {op' : Verilog.BinaryOp} {lhs rhs : Expr} {l r : Verilog.Expr} {pos : Position}
      (hop : Operator.ofSymbol? op'.symbol = some op) (hl : Mirrors scope lhs l) (hr : Mirrors scope rhs r) :
      Mirrors scope (.binary op lhs rhs pos) (.binary op' l r)

def isEquality : Expr → Bool
  | .binary .equals _ _ _ => true
  | _ => false

/-- Whether a relation has an equality as its left operand, anywhere in a tree of names,
numbers and operators. -/
def mixes : Expr → Bool
  | .binary op lhs rhs _ =>
    (op ∈ [.greaterEq, .lessEq, .greater, .less] && lhs.isEquality) || lhs.mixes || rhs.mixes
  | _ => false

theorem toVerilog?_eq_some_iff {op : Operator} {op' : Verilog.BinaryOp} :
    op.toVerilog? = some op' ↔ Operator.ofSymbol? op'.symbol = some op := by
  constructor
  · intro h
    cases op <;> cases h <;> rfl
  · intro h
    cases op' <;> cases h <;> rfl

section
variable {scope : Scope} {e : Expr} {v : Verilog.Expr}

theorem Mirrors.lower (h : e.Mirrors scope v) : e.lower scope = .ok v := by
  induction h with
  | ident hb => exact Lowering.lower_ident.mpr ⟨_, hb, rfl⟩
  | literal lit => exact Lowering.lower_literal.mpr rfl
  | binary hop _ _ ihl ihr =>
    exact Lowering.lower_binary.mpr ⟨_, toVerilog?_eq_some_iff.mpr hop, _, ihl, _, ihr, rfl⟩

theorem Mirrors.unique {v' : Verilog.Expr} (h : e.Mirrors scope v) (h' : e.Mirrors scope v') : v = v' := by
  have hlower := h.lower
  rw [h'.lower] at hlower
  exact (Except.ok.inj hlower).symm

theorem Mirrors.isEquality_iff (h : e.Mirrors scope v) : e.isEquality = true ↔ v.level = 0 := by
  cases h with
  | ident | literal => simp [isEquality, Verilog.Expr.level, Operator.precedence]
  | @binary _ op' _ _ _ _ _ hop =>
    cases op' <;> cases hop <;> simp [isEquality, Verilog.Expr.level, Verilog.BinaryOp.level]

theorem isRelation_iff {op : Operator} {op' : Verilog.BinaryOp} (h : Operator.ofSymbol? op'.symbol = some op) :
    op ∈ [Operator.greaterEq, .lessEq, .greater, .less] ↔ op'.level = 1 := by
  cases op' <;> cases h <;> decide

/-- A tree keeps its shape in Verilog exactly if no relation in it has an equality as its
left operand. -/
theorem Mirrors.regrouped_eq_iff (h : e.Mirrors scope v) : v.regrouped = v ↔ e.mixes = false := by
  induction h with
  | ident | literal => simp [Verilog.Expr.regrouped, mixes]
  | @binary op op' lhs rhs l r pos hop hl hr ihl ihr =>
    have hmixes : (Expr.binary op lhs rhs pos).mixes = false ↔
        ¬(op'.level = 1 ∧ l.level = 0) ∧ l.regrouped = l ∧ r.regrouped = r := by
      rw [ihl, ihr, ← isRelation_iff hop, ← hl.isEquality_iff]
      simp [mixes, and_assoc]
    rw [hmixes, Verilog.Expr.regrouped]
    constructor
    · intro heq
      by_cases hequality : op'.level = 1 ∧ l.regrouped.level = 0
      · -- the equality would be on top, where the relation is
        obtain ⟨hlevel, hzero⟩ := hequality
        obtain ⟨x, y, hl'⟩ := Verilog.Expr.eq_equals_of_level hzero
        rw [hl', Verilog.Expr.joined_equals hlevel] at heq
        rw [← (Verilog.Expr.binary.inj heq).1] at hlevel
        cases hlevel
      · rw [Verilog.Expr.joined_of_ne _ (fun hlevel hzero => hequality ⟨hlevel, hzero⟩)] at heq
        simp only [Verilog.Expr.binary.injEq, true_and] at heq
        rw [heq.1] at hequality
        exact ⟨hequality, heq⟩
    · intro hunmixed
      obtain ⟨hequality, hl', hr'⟩ := hunmixed
      rw [hl', hr']
      exact Verilog.Expr.joined_of_ne r (fun hlevel hzero => hequality ⟨hlevel, hzero⟩)

end

end Expr

/-- The tree of a term whose tokens stand in a source text has a Verilog form, in a scope
that has its names. -/
theorem Grammar.Term.exists_mirrors {scope : Scope} : ∀ {t : Grammar.Term}, AllRead t.tokens →
    (∀ id ∈ t.toExpr.operands, ∃ b, scope.lookup id.name = some b ∧ IsLexeme .identifier b.emitted) →
    ∃ v ws, t.toExpr.Mirrors scope v ∧ v.Spelled ws
  | .name w, _, hscope => by
    obtain ⟨b, hb, hlexeme⟩ := hscope ⟨w.token.text, w.token.pos⟩ (by simp [Term.toExpr, Expr.operands])
    exact ⟨.name b.emitted, _, .ident hb, .name (hlexeme.isWordOf (.inl rfl))⟩
  | .number w, htokens, _ => by
    exact ⟨.literal w.token.text, _, .literal _, .literal (htokens.isWordOf w (by simp [Term.tokens]) (.inr rfl))⟩
  | .group opening inner closing, htokens, hscope => by
    have hinner : AllRead inner.tokens := by
      intro token htoken
      exact htokens token (by simp [Term.tokens, htoken])
    exact Term.exists_mirrors (t := inner) hinner hscope
  | .join lhs sign rhs, htokens, hscope => by
    simp only [AllRead, Term.tokens, Term.toExpr, Expr.operands, List.mem_append, List.mem_cons] at htokens hscope
    obtain ⟨l, u, hl, hu⟩ :=
      Term.exists_mirrors (fun token h => htokens token (.inl h)) (fun id h => hscope id (.inl h))
    obtain ⟨r, w, hr, hw⟩ :=
      Term.exists_mirrors (fun token h => htokens token (.inr (.inr h))) (fun id h => hscope id (.inr h))
    obtain ⟨op, hop, -⟩ := exists_toVerilog? (List.mem_map.mpr ⟨_, sign.listed, rfl⟩)
    exact ⟨.binary op l r, _, .binary (Expr.toVerilog?_eq_some_iff.mp hop) hl hr, .binary op hu hw⟩

/-- The text of an expression that was read from a source has one tree in Verilog, the
regrouped one. It is the tree of the source exactly if no relation there has an
equality as its left operand. -/
theorem verilog_reading_of_expression {source : String} {q q' : TokenQueue} {e : Expr} {scope : Scope}
    (hsource : q.pending <:+ (Lexer.ofSource source).tokens.1) (hread : Reader.expression q = .ok (e, q'))
    (hscope : ∀ id ∈ e.operands, ∃ b, scope.lookup id.name = some b ∧ IsLexeme .identifier b.emitted) :
    ∃ v, e.lower scope = .ok v ∧ e.Mirrors scope v ∧
      (∀ t, Verilog.Groups 0 (words v.text) t ↔ t = v.regrouped) ∧
      (e.Mirrors scope v.regrouped ↔ e.mixes = false) := by
  obtain ⟨t, -, -, htokens, -, -, rfl⟩ := Grammar.expression_sound hread
  have hlexed : Grammar.AllRead t.tokens := by
    intro token htoken
    exact ⟨source, hsource.subset (by rw [htokens]; exact List.mem_append_left _ htoken)⟩
  obtain ⟨v, ws, hmirrors, hspelled⟩ := Grammar.Term.exists_mirrors hlexed hscope
  have hgroups : Verilog.Groups 0 (words v.text) v.regrouped := by
    rw [hspelled.words_text]
    exact hspelled.opened.groups (Nat.zero_le _)
  refine ⟨v, hmirrors.lower, hmirrors, ?_, ?_⟩
  · intro t'
    constructor
    · intro h
      exact h.unique hgroups
    · rintro rfl
      exact hgroups
  · rw [← hmirrors.regrouped_eq_iff]
    constructor
    · intro h
      exact h.unique hmirrors
    · intro h
      rw [h]
      exact hmirrors

/-- A scope in which three names are emitted as they are. -/
def plainScope : Scope :=
  let binding (name : String) : Binding := ⟨⟨⟨name, ⟨1, 1⟩⟩, 1, .wire, none⟩, name⟩
  ⟨[binding "a", binding "b", binding "c"], []⟩

/-- A relation with an equality as its left operand. -/
def mixedComparison : Expr :=
  .binary .less (.binary .equals (.ident ⟨"a", ⟨1, 1⟩⟩) (.ident ⟨"b", ⟨1, 6⟩⟩) ⟨1, 1⟩) (.ident ⟨"c", ⟨1, 10⟩⟩) ⟨1, 1⟩

theorem mixedComparison_regrouped :
    (∃ v, mixedComparison.lower plainScope = .ok v ∧ v.text = "a == b < c" ∧ v.regrouped.text = "a == (b < c)") ∧
    mixedComparison.mixes = true ∧
    ∃ v, mixedComparison.lower plainScope = .ok v ∧ mixedComparison.Mirrors plainScope v ∧
      (∀ t, Verilog.Groups 0 (words v.text) t ↔ t = v.regrouped) ∧
      (mixedComparison.Mirrors plainScope v.regrouped ↔ mixedComparison.mixes = false) := by
  have hsource : (TokenQueue.ofSource "a == b < c;").pending <:+ (Lexer.ofSource "a == b < c;").tokens.1 :=
    List.suffix_rfl
  have hread : Reader.expression (TokenQueue.ofSource "a == b < c;") =
      .ok (mixedComparison, ⟨[⟨";", ⟨1, 11⟩⟩], ⟨1, 12⟩⟩) := rfl
  have hscope : ∀ id ∈ mixedComparison.operands,
      ∃ b, plainScope.lookup id.name = some b ∧ IsLexeme .identifier b.emitted := by
    intro id hid
    simp only [mixedComparison, Expr.operands, List.cons_append, List.nil_append, List.mem_cons, List.not_mem_nil,
      or_false] at hid
    rcases hid with rfl | rfl | rfl
    · exact ⟨_, rfl, "a", ⟨"a", Position.start⟩, by decide +kernel, rfl, rfl⟩
    · exact ⟨_, rfl, "b", ⟨"b", Position.start⟩, by decide +kernel, rfl, rfl⟩
    · exact ⟨_, rfl, "c", ⟨"c", Position.start⟩, by decide +kernel, rfl, rfl⟩
  exact ⟨⟨_, rfl, by decide +kernel, by decide +kernel⟩, by decide,
    verilog_reading_of_expression hsource hread hscope⟩

end Gateware

import Gateware.Proofs.Grammar.Expression
import Gateware.Proofs.Lowering.Steps
import Gateware.Proofs.Token.Spacing

/- Reading back the text of an expression.

   Parentheses are printed where the precedences would group otherwise, so the text of a Verilog
   expression is split into the tokens of a proper term with the shape of the tree that was
   printed. This file

   1. says which texts are single tokens (`IsLexeme`, `IsMark`), which expressions can be printed in
      a scope (`Renderable`), and when one tree is another one with parentheses taken out and with
      emitted names (`RendersAs`);
   2. says of a text that at every place where the next character is no part of a word it is read as
      a term of some rank and height (`ReadsBack`);
   3. proves this of names and numbers (`readsBack_name`, `readsBack_number`), and that it is kept by
      parentheses and by operators (`ReadsBack.paren`, `ReadsBack.binary`, `ReadsBack.operand`);
   4. concludes that a printed expression is read back as the tree that was printed
      (`expression_reads_back`). -/
namespace Gateware

/-- A text that the lexer gives as one token of some kind. -/
def IsLexeme (kind : Token.Kind) (text : String) : Prop :=
  ∃ source, ∃ t ∈ (Lexer.ofSource source).tokens.1, t.text = text ∧ t.kind = kind

namespace Expr

/-- An expression of names, numbers, parentheses and the operators that join operands,
in a scope that has all its names. Numbers and emitted names are single tokens. -/
def Renderable (scope : Scope) : Expr → Prop
  | .ident id => ∃ b, scope.lookup id.name = some b ∧ IsLexeme .identifier b.emitted
  | .literal lit => IsLexeme .literal lit.value
  | .paren inner _ _ => inner.Renderable scope
  | .binary op lhs rhs _ =>
    op ∈ Grammar.Sign.table.map (·.2.1) ∧ lhs.Renderable scope ∧ rhs.Renderable scope
  | .malformed _ | .call .. => False

/-- The most operators on a path from the root to a leaf. -/
def height : Expr → Nat
  | .paren inner _ _ => inner.height
  | .binary _ lhs rhs _ => max lhs.height rhs.height + 1
  | .malformed _ | .ident _ | .literal _ | .call .. => 0

/-- The second tree is the first one with parentheses taken out and with emitted names,
whatever its positions. -/
inductive RendersAs (scope : Scope) : Expr → Expr → Prop
  | ident {id id' : Ident} {b : Binding} (hb : scope.lookup id.name = some b) (hname : id'.name = b.emitted) :
      RendersAs scope (.ident id) (.ident id')
  | literal {lit lit' : Literal} (hvalue : lit'.value = lit.value) :
      RendersAs scope (.literal lit) (.literal lit')
  | paren {inner e : Expr} {start stop : Position} (h : RendersAs scope inner e) :
      RendersAs scope (.paren inner start stop) e
  | binary {op : Operator} {lhs rhs lhs' rhs' : Expr} {pos pos' : Position} (hl : RendersAs scope lhs lhs')
      (hr : RendersAs scope rhs rhs') : RendersAs scope (.binary op lhs rhs pos) (.binary op lhs' rhs' pos')

end Expr

/-! ## Words -/

theorem ofFirst_of_ofText {text : String} {kind : Token.Kind} (hkind : kind = .identifier ∨ kind = .literal)
    (h : Token.Kind.ofText text = kind) : Token.Kind.ofFirst text.toList = kind := by
  have hall : ∀ p ∈ Grammar.reserved, p.2 ≠ .identifier ∧ p.2 ≠ .literal := by decide
  rcases Grammar.ofText_cases text with hreserved | hfirst
  · rw [h] at hreserved
    obtain ⟨hidentifier, hliteral⟩ := hall _ hreserved
    rcases hkind with rfl | rfl
    · exact absurd rfl hidentifier
    · exact absurd rfl hliteral
  · rw [← hfirst]
    exact h

theorem isWordChar_of_ofFirst {c : Char} {cs : List Char} {kind : Token.Kind}
    (hkind : kind = .identifier ∨ kind = .literal) (h : Token.Kind.ofFirst (c :: cs) = kind) :
    isWordChar c = true := by
  simp only [Token.Kind.ofFirst] at h
  split at h
  · rename_i hfirst
    rcases Bool.or_eq_true_iff.mp hfirst with hc | hc
    · simp [isWordChar, Char.isAlphanum, hc]
    · simp [isWordChar, hc]
  · split at h
    · rename_i hdigit
      simp [isWordChar, Char.isAlphanum, hdigit]
    · subst h
      exact absurd hkind (by decide)

theorem continues_of_isWordChar {c : Char} (hc : isWordChar c = true) (d : Char) :
    continues c d = isWordChar d := by
  have hne : ∀ x : Char, isWordChar x = false → (c == x) = false := by
    intro x hx
    rw [beq_eq_false_iff_ne]
    rintro rfl
    rw [hc] at hx
    cases hx
  simp [continues, hc, isRelationChar, hne '<' (by decide), hne '=' (by decide), hne '>' (by decide)]

/-- A chain that begins with a word character has no other ones. -/
theorem isWordChar_of_mem_chain {c : Char} {cs : List Char} (hc : isWordChar c = true) (hchain : IsChain (c :: cs)) :
    ∀ d ∈ c :: cs, isWordChar d = true := by
  induction cs generalizing c with
  | nil =>
    intro d hd
    rw [List.mem_singleton.mp hd]
    exact hc
  | cons b cs ih =>
    obtain ⟨hb, hchain⟩ := List.isChain_cons_cons.mp hchain
    rw [continues_of_isWordChar hc] at hb
    intro d hd
    rcases List.mem_cons.mp hd with rfl | hd
    · exact hc
    · exact ih hb hchain d hd

theorem IsLexeme.isTokenText {kind : Token.Kind} {text : String} (h : IsLexeme kind text) :
    IsTokenText text.toList := by
  obtain ⟨source, t, ht, rfl, -⟩ := h
  exact isTokenText_of_mem_tokens ht

theorem IsLexeme.isWordChar {kind : Token.Kind} {text : String} (h : IsLexeme kind text)
    (hkind : kind = .identifier ∨ kind = .literal) : ∀ c ∈ text.toList, isWordChar c = true := by
  have htext := h.isTokenText
  obtain ⟨c, cs, hcs⟩ := List.exists_cons_of_ne_nil htext.ne_nil
  obtain ⟨source, t, -, rfl, hk⟩ := h
  have hfirst := ofFirst_of_ofText hkind hk
  rw [hcs] at hfirst ⊢
  exact isWordChar_of_mem_chain (isWordChar_of_ofFirst hkind hfirst) (hcs ▸ htext.chain)

/-- The text does not go on with a word character. -/
def EndsWord (rest : List Char) : Prop := ∀ c, rest.head? = some c → isWordChar c = false

theorem endsWord_cons {c : Char} (hc : isWordChar c = false) (rest : List Char) : EndsWord (c :: rest) := by
  intro d hd
  obtain rfl := Option.some.inj hd
  exact hc

theorem endsToken_of_endsWord {w rest : List Char} (hw : ∀ c ∈ w, isWordChar c = true) (hrest : EndsWord rest) :
    EndsToken w rest := by
  constructor
  · intro last hlast c hc
    rw [continues_of_isWordChar (hw last (List.mem_of_getLast? hlast))]
    exact hrest c hc
  · rintro rfl
    exact absurd (hw '/' List.mem_cons_self) (by decide)

/-- A word is read as one token. -/
theorem reads_word {kind : Token.Kind} (hkind : kind = .identifier ∨ kind = .literal) {text : String}
    (h : IsLexeme kind text) {rest : List Char} (hrest : EndsWord rest) (pos : Position) :
    ∃ pos', Lexer.Reads ⟨pos, text.toList ++ rest⟩ [⟨text, pos⟩] ⟨pos', rest⟩ := by
  have hnext := Lexer.next?_tokenText h.isTokenText (endsToken_of_endsWord (h.isWordChar hkind) hrest) pos
  rw [String.ofList_toList] at hnext
  exact ⟨_, .cons hnext (.nil _)⟩

/-! ## Symbols -/

/-- An operator that joins operands is printed with its symbol and its precedence. -/
theorem exists_toVerilog? {op : Operator} (h : op ∈ Grammar.Sign.table.map (·.2.1)) :
    ∃ op', op.toVerilog? = some op' ∧ (op'.symbol, op, op'.precedence) ∈ Grammar.Sign.table := by
  simp only [Grammar.Sign.table, List.map_cons, List.map_nil, List.mem_cons, List.not_mem_nil, or_false] at h
  rcases h with rfl | rfl | rfl | rfl | rfl | rfl | rfl | rfl | rfl | rfl | rfl <;> exact ⟨_, rfl, by decide⟩

/-- A character that is a token of its own wherever it stands. -/
def IsMark (c : Char) : Prop :=
  isWordChar c = false ∧ isRelationChar c = false ∧ Text.isBlank c = false ∧ c ≠ '/'

instance (c : Char) : Decidable (IsMark c) := inferInstanceAs (Decidable (_ ∧ _))

theorem IsMark.isTokenText {c : Char} (h : IsMark c) : IsTokenText [c] :=
  ⟨List.cons_ne_nil c [], List.forall_mem_singleton.mpr h.2.2.1, List.isChain_singleton c⟩

theorem IsMark.endsToken {c : Char} (h : IsMark c) (rest : List Char) : EndsToken [c] rest := by
  obtain ⟨hword, hrelation, -, hslash⟩ := h
  have hless : (c == '<') = false := by
    rw [beq_eq_false_iff_ne]
    rintro rfl
    exact absurd hrelation (by decide)
  constructor
  · intro last hlast d _
    obtain rfl : c = last := Option.some.inj hlast
    simp [continues, hword, hrelation, hless]
  · intro hc
    exact absurd (List.cons.inj hc).1 hslash

theorem next?_mark {c : Char} (h : IsMark c) (rest : List Char) (pos : Position) :
    Lexer.next? ⟨pos, c :: rest⟩ = some (⟨String.ofList [c], pos⟩, ⟨pos.advance c, rest⟩) :=
  Lexer.next?_tokenText h.isTokenText (h.endsToken rest) pos

theorem isTokenText_symbol (op : Verilog.BinaryOp) : IsTokenText op.symbol.toList := by
  have hblank : op.symbol.toList.all (fun c => !Text.isBlank c) = true := by cases op <;> decide
  refine ⟨by cases op <;> decide, fun c hc => ?_, by cases op <;> decide⟩
  simpa using List.all_eq_true.mp hblank c hc

/-! ## Terms -/

open Grammar (Term Sign)
open Lowering (lower_ident lower_literal lower_paren lower_binary)

/-- The text is read as a term of some rank and height and with a tree of some sort,
wherever it stands before the end of a word. -/
def ReadsBack (text : String) (rank height : Nat) (tree : Expr → Prop) : Prop :=
  ∀ pos rest, EndsWord rest → ∃ (t : Term) (pos' : Position), t.Proper ∧ t.rank = rank ∧ t.height = height ∧
    tree t.toExpr ∧ Lexer.Reads ⟨pos, text.toList ++ rest⟩ t.tokens ⟨pos', rest⟩

theorem readsBack_name {text : String} (h : IsLexeme .identifier text) {tree : Expr → Prop}
    (htree : ∀ pos, tree (.ident ⟨text, pos⟩)) : ReadsBack text Operator.bracket.precedence 0 tree := by
  intro pos rest hrest
  obtain ⟨pos', hreads⟩ := reads_word (.inl rfl) h hrest pos
  obtain ⟨_, t, _, rfl, hkind⟩ := h
  exact ⟨.name ⟨⟨t.text, pos⟩, hkind⟩, pos', trivial, rfl, rfl, htree pos, hreads⟩

theorem readsBack_number {text : String} (h : IsLexeme .literal text) {tree : Expr → Prop}
    (htree : ∀ pos, tree (.literal ⟨text, pos⟩)) : ReadsBack text Operator.bracket.precedence 0 tree := by
  intro pos rest hrest
  obtain ⟨pos', hreads⟩ := reads_word (.inr rfl) h hrest pos
  obtain ⟨_, t, _, rfl, hkind⟩ := h
  exact ⟨.number ⟨⟨t.text, pos⟩, hkind⟩, pos', trivial, rfl, rfl, htree pos, hreads⟩

/-- Parentheses keep the tree and hold it together. -/
theorem ReadsBack.paren {text : String} {rank height : Nat} {tree : Expr → Prop}
    (h : ReadsBack text rank height tree) :
    ReadsBack (Verilog.Expr.enclose true text) Operator.bracket.precedence height tree := by
  intro pos rest _
  have hopening := next?_mark (c := '(') (by decide) (text.toList ++ ')' :: rest) pos
  obtain ⟨t, pos', hproper, _, hheight, htree, hreads⟩ := h (pos.advance '(') (')' :: rest)
    (endsWord_cons (by decide) rest)
  have hclosing := next?_mark (c := ')') (by decide) rest pos'
  refine ⟨.group ⟨⟨"(", pos⟩, rfl⟩ t ⟨⟨")", pos'⟩, rfl⟩, pos'.advance ')', hproper, rfl, hheight, htree, ?_⟩
  have htext : (Verilog.Expr.enclose true text).toList ++ rest = '(' :: (text.toList ++ ')' :: rest) := by
    simp [Verilog.Expr.enclose]
  rw [htext]
  exact .cons hopening (hreads.append (.cons hclosing (.nil _)))

/-- An operator between operands that bind at least as tightly on the left, and more
tightly on the right, joins their trees. -/
theorem ReadsBack.binary {op : Operator} {op' : Verilog.BinaryOp}
    (hlisted : (op'.symbol, op, op'.precedence) ∈ Sign.table) {left right : String}
    {rankL rankR heightL heightR : Nat} {treeL treeR tree : Expr → Prop}
    (hl : ReadsBack left rankL heightL treeL) (hr : ReadsBack right rankR heightR treeR)
    (hrankL : op'.precedence ≤ rankL) (hrankR : op'.precedence < rankR)
    (htree : ∀ x y pos, treeL x → treeR y → tree (.binary op x y pos)) :
    ReadsBack (left ++ " " ++ op'.symbol ++ " " ++ right) op'.precedence (max heightL heightR + 1) tree := by
  intro pos rest hrest
  have hsplit : (left ++ " " ++ op'.symbol ++ " " ++ right).toList ++ rest =
      left.toList ++ ' ' :: (op'.symbol.toList ++ ' ' :: (right.toList ++ rest)) := by simp
  obtain ⟨l, pos₁, hproperL, rfl, rfl, htreeL, hreadsL⟩ :=
    hl pos (' ' :: (op'.symbol.toList ++ ' ' :: (right.toList ++ rest))) (endsWord_cons (by decide) _)
  have hsign := Lexer.next?_tokenText (isTokenText_symbol op')
    (endsToken_blank _ (c := ' ') (by decide) (right.toList ++ rest)) (pos₁.advance ' ')
  rw [String.ofList_toList, ← Lexer.next?_blank (by decide)] at hsign
  obtain ⟨r, pos₃, hproperR, rfl, rfl, htreeR, hreadsR⟩ := hr (Position.advance _ ' ') rest hrest
  refine ⟨.join l ⟨⟨op'.symbol, pos₁.advance ' '⟩, op, op'.precedence, hlisted⟩ r, pos₃,
    ⟨hproperL, hproperR, hrankL, hrankR⟩, rfl, rfl, htree _ _ _ htreeL htreeR, ?_⟩
  rw [hsplit]
  exact hreadsL.append (.cons hsign (hreadsR.blank (by decide) r.tokens_ne_nil))

/-! ## Printed operands -/

/-- How tightly a printed expression holds together. -/
def Verilog.Expr.rank : Verilog.Expr → Nat
  | .binary op _ _ => op.precedence
  | _ => Operator.bracket.precedence

theorem precedence_lt_bracket (op : Verilog.BinaryOp) : op.precedence < Operator.bracket.precedence := by
  cases op <;> decide

/-- Without parentheses stand the operands that need none to be grouped as they are. -/
theorem precedence_of_needsParens {v : Verilog.Expr} {op : Verilog.BinaryOp} {right : Bool}
    (h : v.needsParens op right = false) :
    op.precedence ≤ v.rank ∧ (right = true → op.precedence < v.rank) := by
  cases v with
  | binary op' _ _ =>
    simp only [Verilog.Expr.needsParens, Bool.or_eq_false_iff, decide_eq_false_iff_not, Bool.and_eq_false_iff,
      beq_eq_false_iff_ne] at h
    obtain ⟨hle, hne⟩ := h
    refine ⟨Nat.le_of_not_lt hle, ?_⟩
    rintro rfl
    simp only [Bool.true_eq_false, false_or] at hne
    change op.precedence < op'.precedence
    omega
  | name | literal | paren | call =>
    have hlt := precedence_lt_bracket op
    exact ⟨Nat.le_of_lt hlt, fun _ => hlt⟩

/-- An operand is printed so that it binds tightly enough for its side. -/
theorem ReadsBack.operand {v : Verilog.Expr} {height : Nat} {tree : Expr → Prop}
    (h : ReadsBack v.text v.rank height tree) (op : Verilog.BinaryOp) (right : Bool) :
    ∃ rank, op.precedence ≤ rank ∧ (right = true → op.precedence < rank) ∧
      ReadsBack (Verilog.Expr.enclose (v.needsParens op right) v.text) rank height tree := by
  cases hparens : v.needsParens op right with
  | false =>
    obtain ⟨hle, hlt⟩ := precedence_of_needsParens hparens
    exact ⟨v.rank, hle, hlt, h⟩
  | true =>
    have hlt := precedence_lt_bracket op
    exact ⟨Operator.bracket.precedence, Nat.le_of_lt hlt, fun _ => hlt, h.paren⟩

/-- What an expression is printed as is read back as its tree, with the operator on top
that the printed expression has on top. -/
theorem Expr.Renderable.readsBack {scope : Scope} : {e : Expr} → e.Renderable scope →
    ∃ v, e.lower scope = .ok v ∧ ReadsBack v.text v.rank e.height (RendersAs scope e)
  | .ident id, h => by
    obtain ⟨b, hb, hlexeme⟩ := h
    exact ⟨.name b.emitted, lower_ident.mpr ⟨b, hb, rfl⟩, readsBack_name hlexeme (fun _ => .ident hb rfl)⟩
  | .literal lit, h =>
    ⟨.literal lit.value, lower_literal.mpr rfl, readsBack_number h (fun _ => .literal rfl)⟩
  | .paren inner start stop, h => by
    obtain ⟨v, hv, hback⟩ := Expr.Renderable.readsBack (e := inner) h
    refine ⟨.paren v, lower_paren.mpr ⟨v, hv, rfl⟩, ?_⟩
    intro pos rest hrest
    obtain ⟨t, pos', hproper, hrank, hheight, htree, hreads⟩ := hback.paren pos rest hrest
    exact ⟨t, pos', hproper, hrank, hheight, .paren htree, hreads⟩
  | .binary op lhs rhs pos, h => by
    obtain ⟨hop, hl, hr⟩ := h
    obtain ⟨op', hop', hlisted⟩ := exists_toVerilog? hop
    obtain ⟨l, hlowerL, hbackL⟩ := Expr.Renderable.readsBack hl
    obtain ⟨r, hlowerR, hbackR⟩ := Expr.Renderable.readsBack hr
    -- each operand is printed for its side of the operator
    obtain ⟨rankL, hrankL, _, hopL⟩ := hbackL.operand op' false
    obtain ⟨rankR, _, hrankR, hopR⟩ := hbackR.operand op' true
    refine ⟨.binary op' l r, lower_binary.mpr ⟨op', hop', l, hlowerL, r, hlowerR, rfl⟩, ?_⟩
    rw [Verilog.Expr.text, Verilog.Expr.rank]
    exact .binary hlisted hopL hopR hrankL (hrankR rfl) (fun _ _ _ hx hy => .binary hx hy)

/-- A printed expression with ` ;` after it is read back up to the semicolon, as the tree
that was printed: parentheses leave no node, and names are the emitted ones. -/
theorem expression_reads_back {scope : Scope} {e : Expr} (h : e.Renderable scope) (hheight : e.height ≤ 256) :
    ∃ v, e.lower scope = .ok v ∧ ∃ e' semicolon stop,
      Reader.expression (TokenQueue.ofSource (v.text ++ " ;")) = .ok (e', ⟨[semicolon], stop⟩) ∧
      semicolon.text = ";" ∧ e.RendersAs scope e' := by
  obtain ⟨v, hv, hback⟩ := h.readsBack
  obtain ⟨t, pos, hproper, _, hheight', htree, hreads⟩ :=
    hback Position.start [' ', ';'] (endsWord_cons (by decide) _)
  have hsemicolon : Lexer.next? ⟨pos, [' ', ';']⟩ =
      some (⟨";", pos.advance ' '⟩, ⟨(pos.advance ' ').advance ';', []⟩) := by
    rw [Lexer.next?_blank (by decide)]
    exact next?_mark (c := ';') (by decide) [] _
  have htokens := Lexer.tokens_eq_of_reads (hreads.append (.cons hsemicolon (.nil _))) rfl
  have hsource : Lexer.ofSource (v.text ++ " ;") = ⟨Position.start, v.text.toList ++ [' ', ';']⟩ := by
    simp [Lexer.ofSource]
  refine ⟨v, hv, t.toExpr, ⟨";", pos.advance ' '⟩, (pos.advance ' ').advance ';', ?_, rfl, htree⟩
  rw [TokenQueue.ofSource, hsource, htokens]
  exact Grammar.expression_tokens hproper (hheight' ▸ hheight) ⟨_, rfl, rfl⟩ _

/-- A scope in which a name is emitted under another one. -/
def renamedScope : Scope :=
  ⟨[⟨⟨⟨"a", ⟨1, 1⟩⟩, 1, .wire, none⟩, "a_1"⟩], []⟩

/-- A difference on the right of another, with parentheses where none are needed. -/
def nestedDifference : Expr :=
  let a (column : Nat) : Expr := .ident ⟨"a", ⟨1, column⟩⟩
  .binary .sub (a 1) (.binary .sub (.paren (a 7) ⟨1, 6⟩ ⟨1, 8⟩) (.literal ⟨"2", ⟨1, 12⟩⟩) ⟨1, 6⟩) ⟨1, 1⟩

theorem nestedDifference_reads_back :
    (∃ v, nestedDifference.lower renamedScope = .ok v ∧ v.text = "a_1 - ((a_1) - 2)") ∧
    ∃ v, nestedDifference.lower renamedScope = .ok v ∧ ∃ e' semicolon stop,
      Reader.expression (TokenQueue.ofSource (v.text ++ " ;")) = .ok (e', ⟨[semicolon], stop⟩) ∧
      semicolon.text = ";" ∧ nestedDifference.RendersAs renamedScope e' := by
  have hname : IsLexeme .identifier "a_1" := ⟨"a_1", ⟨"a_1", Position.start⟩, by decide +kernel, rfl, rfl⟩
  have hnumber : IsLexeme .literal "2" := ⟨"2", ⟨"2", Position.start⟩, by decide +kernel, rfl, rfl⟩
  have hrenderable : nestedDifference.Renderable renamedScope :=
    ⟨by decide, ⟨_, rfl, hname⟩, by decide, ⟨_, rfl, hname⟩, hnumber⟩
  exact ⟨⟨_, rfl, by decide +kernel⟩, expression_reads_back hrenderable (by decide)⟩

end Gateware

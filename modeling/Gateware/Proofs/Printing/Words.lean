import Gateware.Proofs.Printing.Reparse

/- The words of a printed text.

   A text that is put together from words and marks has these as its words. This file

   1. says which texts are words, and words of which kind (`IsWord`, `IsWordOf`);
   2. proves that a word and a mark can be put before a text whose words are known (`Lexes.word`,
      `Lexes.mark`); a word needs a text that does not go on with one;
   3. proves that the names and numbers of tokens are words (`AllRead.isWordOf`);
   4. gives expressions of names, numbers and operators the words that they are printed with
      (`Spelled`), and proves that these are the words of their texts (`Spelled.words_text`). -/
namespace Gateware

/-- A text of the characters that names, numbers and keywords have. -/
def IsWord (text : String) : Prop := text.toList ≠ [] ∧ ∀ c ∈ text.toList, isWordChar c = true

-- over the characters of the text, and not over all characters that there are
instance (text : String) : Decidable (IsWord text) :=
  @instDecidableAnd _ _ inferInstance (List.decidableBAll _ text.toList)

/-- A word that is read as a token of some kind. -/
def IsWordOf (kind : Token.Kind) (text : String) : Prop := IsWord text ∧ Token.Kind.ofText text = kind

instance (kind : Token.Kind) (text : String) : Decidable (IsWordOf kind text) :=
  inferInstanceAs (Decidable (_ ∧ _))

/-! ## Pieces of a text -/

section
variable {rest : List Char} {ws : List String}

theorem Lexes.space (h : Lexes rest ws) : Lexes (' ' :: rest) ws := h.blank (by decide)

/-- Word characters in a row are a chain. -/
theorem isChain_of_isWordChar {cs : List Char} (h : ∀ c ∈ cs, isWordChar c = true) : IsChain cs := by
  induction cs with
  | nil => exact List.isChain_nil
  | cons c cs ih =>
    have hcs := ih fun d hd => h d (List.mem_cons_of_mem _ hd)
    cases cs with
    | nil => exact List.isChain_singleton c
    | cons d cs =>
      refine List.isChain_cons_cons.mpr ⟨?_, hcs⟩
      rw [continues_of_isWordChar (h c List.mem_cons_self)]
      exact h d (by simp)

theorem Lexes.word (h : Lexes rest ws) {text : String} (hword : IsWord text) (hrest : EndsWord rest) :
    Lexes (text.toList ++ rest) (text :: ws) := by
  obtain ⟨hne, hall⟩ := hword
  have htext : IsTokenText text.toList :=
    ⟨hne, fun c hc => isBlank_of_isWordChar (hall c hc), isChain_of_isWordChar hall⟩
  have hlexes := h.tokenText htext (endsToken_of_endsWord hall hrest)
  rwa [String.ofList_toList] at hlexes

theorem Lexes.mark (h : Lexes rest ws) {c : Char} (hmark : IsMark c) :
    Lexes (c :: rest) (String.ofList [c] :: ws) :=
  h.tokenText hmark.isTokenText (hmark.endsToken rest)

end

/-! ## Names and numbers -/

theorem IsLexeme.isWordOf {kind : Token.Kind} {text : String} (hkind : kind = .identifier ∨ kind = .literal)
    (h : IsLexeme kind text) : IsWordOf kind text := by
  have hword : IsWord text := ⟨h.isTokenText.ne_nil, h.isWordChar hkind⟩
  obtain ⟨source, t, -, rfl, hk⟩ := h
  exact ⟨hword, hk⟩

theorem isWord_toString (n : Nat) : IsWord (toString n) := by
  refine ⟨?_, ?_⟩
  · rw [Nat.toString_eq_repr, Nat.toList_repr]
    exact Nat.toDigits_ne_nil
  · intro c hc
    rw [Nat.toString_eq_repr, Nat.toList_repr] at hc
    simp [isWordChar, Char.isAlphanum, Nat.isDigit_of_mem_toDigits (by decide) (by decide) hc]

namespace Grammar

/-- Tokens that were read from source texts. -/
def AllRead (ts : List Token) : Prop := ∀ t ∈ ts, ∃ source, t ∈ (Lexer.ofSource source).tokens.1

theorem AllRead.isWordOf {ts : List Token} (h : AllRead ts) {kind : Token.Kind} (w : Word kind)
    (hmem : w.token ∈ ts) (hkind : kind = .identifier ∨ kind = .literal) : IsWordOf kind w.token.text := by
  obtain ⟨source, hsource⟩ := h w.token hmem
  exact IsLexeme.isWordOf hkind ⟨source, w.token, hsource, rfl, w.kind_eq⟩

end Grammar

/-! ## Expressions -/

namespace Verilog.Expr

/-- Words, in parentheses if asked for. -/
def parenthesized (parens : Bool) (ws : List String) : List String :=
  if parens then "(" :: (ws ++ [")"]) else ws

/-- The words of an expression of names, numbers and operators. -/
inductive Spelled : Expr → List String → Prop
  | name {text : String} (h : IsWordOf .identifier text) : Spelled (.name text) [text]
  | literal {text : String} (h : IsWordOf .literal text) : Spelled (.literal text) [text]
  | binary (op : BinaryOp) {l r : Expr} {u w : List String} (hl : Spelled l u) (hr : Spelled r w) :
      Spelled (.binary op l r)
        (parenthesized (l.needsParens op false) u ++ op.symbol :: parenthesized (r.needsParens op true) w)

theorem lexes_enclose {text : String} {u : List String}
    (h : ∀ {rest : List Char} {ws : List String}, EndsWord rest → Lexes rest ws →
      Lexes (text.toList ++ rest) (u ++ ws)) (parens : Bool) {rest : List Char} {ws : List String}
    (hrest : EndsWord rest) (hlexes : Lexes rest ws) :
    Lexes ((enclose parens text).toList ++ rest) (parenthesized parens u ++ ws) := by
  cases parens with
  | false => exact h hrest hlexes
  | true =>
    have hclosing : Lexes (')' :: rest) (")" :: ws) := hlexes.mark (by decide)
    have hinner : Lexes ('(' :: (text.toList ++ ')' :: rest)) ("(" :: (u ++ ")" :: ws)) :=
      (h (endsWord_cons (by decide) rest) hclosing).mark (by decide)
    simpa [enclose, parenthesized] using hinner

/-- The text of an expression may stand before anything that does not go on with a
word. -/
theorem Spelled.lexes {e : Expr} {u : List String} (h : e.Spelled u) :
    ∀ {rest : List Char} {ws : List String}, EndsWord rest → Lexes rest ws →
      Lexes (e.text.toList ++ rest) (u ++ ws) := by
  induction h with
  | name h =>
    intro rest ws hrest hlexes
    exact hlexes.word h.1 hrest
  | literal h =>
    intro rest ws hrest hlexes
    exact hlexes.word h.1 hrest
  | binary op hl hr ihl ihr =>
    rename_i l r u w
    intro rest ws hrest hlexes
    have hright := lexes_enclose ihr (r.needsParens op true) hrest hlexes
    have hsign := (hright.space.tokenText (isTokenText_symbol op) (endsToken_blank _ (by decide) _)).space
    rw [String.ofList_toList] at hsign
    have hleft := lexes_enclose ihl (l.needsParens op false) (endsWord_cons (by decide) _) hsign
    simpa [text] using hleft

theorem Spelled.words_text {e : Expr} {u : List String} (h : e.Spelled u) : words e.text = u := by
  have hend : EndsWord [] := by
    intro c hc
    cases hc
  have hlexes := h.lexes hend lexes_nil
  rw [List.append_nil, List.append_nil] at hlexes
  exact words_eq_of_lexes hlexes

end Verilog.Expr

end Gateware

import Gateware.Proofs.Token.Spacing

/- Texts that are cut after a token, and texts put together with a line feed between them.

   What stands behind a token has a part in it only if it could continue the token. This file

   1. says where a token ends a text (`Token.EndsText`), and that a line feed behind the text
      changes nothing about it (`EndsToken.append_newline`);
   2. proves that the tokens of the front of a text stay as they are when its rest is cut off or
      goes on (`Reads.change_rest`), as long as the tokens that end before the one rest also end
      before the other;
   3. concludes that a text which is cut after a token has the tokens up to there and ends just
      behind the last of them (`exists_upToToken`). -/
namespace Gateware

/-! ## Ends of tokens -/

namespace EndsToken
variable {w rest : List Char}

theorem of_append {more : List Char} (h : EndsToken w (rest ++ more)) : EndsToken w rest := by
  cases rest with
  | nil => exact endsToken_nil w
  | cons c cs => exact ⟨h.breaks, h.notComment⟩

/-- A line feed continues no token. -/
theorem append_newline (h : EndsToken w rest) (more : List Char) : EndsToken w (rest ++ '\n' :: more) := by
  cases rest with
  | nil => exact endsToken_separator w ⟨'\n', [], by decide, .nil⟩ more
  | cons c cs => exact ⟨h.breaks, h.notComment⟩

end EndsToken

/-- The position just behind a token. -/
def Token.stop (t : Token) : Position := ⟨t.pos.line, t.pos.column + t.text.length⟩

/-- A text ends with a token, which stands where the characters before it say. -/
def Token.EndsText (t : Token) (text : List Char) : Prop :=
  ∃ before, text = before ++ t.text.toList ∧ t.pos = Position.after before

/-- Characters that are no blanks take a column each. -/
theorem Position.foldl_advance_of_notBlank {w : List Char} (h : ∀ c ∈ w, Text.isBlank c = false) (p : Position) :
    w.foldl advance p = ⟨p.line, p.column + w.length⟩ := by
  induction w generalizing p with
  | nil => rfl
  | cons c w ih =>
    obtain ⟨hc, hw⟩ := List.forall_mem_cons.mp h
    have hnewline : c ≠ '\n' := by rintro rfl; exact absurd hc (by decide)
    have hreturn : c ≠ '\r' := by rintro rfl; exact absurd hc (by decide)
    rw [List.foldl_cons, ih hw, advance, if_neg hnewline, if_neg hreturn, List.length_cons]
    simp only [mk.injEq, true_and]
    omega

namespace Lexer

/-! ## Tokens before another rest -/

theorem next?_gap {gap : List Char} (hgap : IsGap gap) (pos : Position) (rest : List Char) :
    next? ⟨pos, gap ++ rest⟩ = next? ⟨gap.foldl Position.advance pos, rest⟩ := by
  rw [next?, next?, skip_append hgap]

/-- A gap and a token that ends before the rest are read in one step. -/
theorem next?_append {gap w rest : List Char} (hgap : IsGap gap) (hw : IsTokenText w) (hends : EndsToken w rest)
    (pos : Position) :
    next? ⟨pos, gap ++ (w ++ rest)⟩ =
      some (⟨String.ofList w, gap.foldl Position.advance pos⟩, ⟨(gap ++ w).foldl Position.advance pos, rest⟩) := by
  rw [next?_gap hgap, next?_tokenText hw hends, List.foldl_append]

namespace Reads
variable {ts : List Token}

/-- Tokens are read in the same way when another rest stands behind them, as long as tokens
that end before the one also end before the other. -/
theorem change_rest {l l' : Lexer} (h : Reads l ts l') (rest' : List Char)
    (hends : ∀ {w part : List Char}, EndsToken w (part ++ l'.rest) → EndsToken w (part ++ rest')) :
    ∃ front, l.rest = front ++ l'.rest ∧ Reads ⟨l.pos, front ++ rest'⟩ ts ⟨l'.pos, rest'⟩ := by
  induction h with
  | nil l => exact ⟨[], rfl, .nil _⟩
  | @cons l _ _ _ _ hnext _ ih =>
    obtain ⟨front, hfront, hreads⟩ := ih hends
    obtain ⟨gap, w, hcs, hgap, hw, hw_ends, rfl, hpos⟩ := exists_of_next? hnext
    rw [hfront] at hcs hw_ends
    refine ⟨gap ++ (w ++ front), by simp [hcs], ?_⟩
    have hstep := next?_append hgap hw (hends hw_ends) l.pos
    rw [← hpos] at hstep
    simpa using Reads.cons hstep hreads

/-- The text up to the last of some tokens ends with it. -/
theorem endsText {l : Lexer} {pos' : Position} {before : List Char} {t : Token} (h : Reads l ts ⟨pos', []⟩)
    (hpos : l.pos = Position.after before) (ht : ts.getLast? = some t) :
    t.EndsText (before ++ l.rest) ∧ pos' = t.stop := by
  generalize hl' : (⟨pos', []⟩ : Lexer) = l' at h
  induction h generalizing before with
  | nil => simp at ht
  | @cons l l₁ _ u us hnext hs ih =>
    subst hl'
    obtain ⟨gap, w, hcs, hgap, hw, -, rfl, hpos₁⟩ := exists_of_next? hnext
    rw [hpos, Position.foldl_advance_after] at hpos₁
    rw [hpos, Position.foldl_advance_after] at ht
    rw [hcs]
    cases hs with
    | nil =>
      obtain rfl := Option.some.inj ht
      have hstop := Position.foldl_advance_of_notBlank hw.notBlank (Position.after (before ++ gap))
      rw [Position.foldl_advance_after, List.append_assoc, ← hpos₁] at hstop
      refine ⟨⟨before ++ gap, by simp, rfl⟩, ?_⟩
      simpa [Token.stop, String.length_ofList] using hstop
    | cons hnext' hs' =>
      have htail := ih hpos₁ (by simpa using ht) rfl
      simpa using htail

end Reads

/-! ## Cutting -/

/-- The lexer after some tokens. -/
def drop : Nat → Lexer → Lexer
  | 0, l => l
  | n + 1, l =>
    match l.next? with
    | none => l
    | some (_, after) => drop n after

theorem Reads.take {l l' : Lexer} {ts : List Token} (h : Reads l ts l') {n : Nat} (hn : n ≤ ts.length) :
    Reads l (ts.take n) (l.drop n) := by
  induction h generalizing n with
  | nil =>
    obtain rfl : n = 0 := Nat.le_zero.mp hn
    exact .nil _
  | cons hnext _ ih =>
    cases n with
    | zero => exact .nil _
    | succ n =>
      rw [List.take_succ_cons, drop, hnext]
      exact .cons hnext (ih (Nat.le_of_succ_le_succ hn))

end Lexer

/-- The text up to the end of its `n`-th token. -/
def upToToken (source : String) (n : Nat) : String :=
  let rest := ((Lexer.ofSource source).drop n).rest
  String.ofList (source.toList.take (source.toList.length - rest.length))

theorem exists_upToToken {source : String} {n : Nat} (hn : n ≤ (Lexer.ofSource source).tokens.1.length) :
    let front := (Lexer.ofSource source).tokens.1.take n
    ∃ stop, (Lexer.ofSource (upToToken source n)).tokens = (front, stop) ∧
      ∀ t, front.getLast? = some t → t.EndsText (upToToken source n).toList ∧ stop = t.stop := by
  obtain ⟨ts, l', hreads, hend⟩ := Lexer.exists_reads (Lexer.ofSource source)
  rw [Lexer.tokens_eq_of_reads hreads hend] at hn ⊢
  intro front
  obtain ⟨cut, hcut, hreads'⟩ := (hreads.take hn).change_rest [] fun h => by
    rw [List.append_nil]
    exact h.of_append
  rw [List.append_nil] at hreads'
  have htext : (upToToken source n).toList = cut := by
    have hlength := congrArg List.length hcut
    rw [List.length_append] at hlength
    change source.toList.length = _ at hlength
    change source.toList = _ at hcut
    rw [upToToken, String.toList_ofList, hlength, Nat.add_sub_cancel, hcut, List.take_left]
  refine ⟨((Lexer.ofSource source).drop n).pos, ?_, ?_⟩
  · rw [Lexer.ofSource, htext]
    exact Lexer.tokens_eq_of_reads hreads' rfl
  · intro t ht
    rw [htext]
    exact hreads'.endsText Position.after_nil.symm ht

end Gateware

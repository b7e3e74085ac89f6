import Gateware.Proofs.Token.Lexing
import Gateware.Token.Stream

/- A text is split into tokens without a loss.

   The tokens of a text and the gaps between them make up the whole text: a gap has only blanks
   and comments, each token is as long as it can be, and it stands where the characters before it
   say. This file

   1. counts positions at once instead of character by character (`Position.after`), proves that
      they never lead back (`Position.lt_advance`), and compares them with counters of 32 bits
      that begin again at zero: these follow the positions along every text
      (`counters_foldl_advance`), and are in the same order as long as the positions fit into
      them (`counters_lt_counters`);
   2. says what a gap is (`IsGap`, `IsLastGap`), what the text of a token is and before what it
      ends (`IsTokenText`, `EndsToken`), and proves that such a text is read as that token
      (`Lexer.next?_tokenText`);
   3. proves that one call of `next?` reads a gap and a token (`exists_of_next?`), and from it, by
      induction on the calls, that they give the pieces of the rest of a text, with the text
      already read as a parameter (`Lexer.exists_pieces`);
   4. concludes with the whole text, as a split (`exists_split`), as positions that grow
      (`Lexer.tokens_ofSource`), and as what a stream answers until it fails
      (`source_split_into_tokens`).

   Positions are natural numbers and never wrap around. Where a result is about counters of a
   fixed size, the length of the text is assumed to fit into them. -/
namespace Gateware

/-! ## Positions -/

namespace Position

/-- The characters since the last line feed, the latest first. -/
def lastLine (cs : List Char) : List Char := cs.reverse.takeWhile (· != '\n')

/-- The position after some characters, counted at once: line feeds give the line, and
characters since the last of them, carriage returns apart, give the column. -/
def after (cs : List Char) : Position :=
  ⟨1 + cs.count '\n', 1 + (lastLine cs).countP (· != '\r')⟩

theorem after_nil : after [] = start := rfl

theorem after_concat (cs : List Char) (c : Char) : after (cs ++ [c]) = (after cs).advance c := by
  unfold after advance lastLine
  by_cases hnewline : c = '\n'
  · subst hnewline
    simp [Nat.add_assoc]
  · by_cases hreturn : c = '\r'
    · subst hreturn
      simp
    · simp [hnewline, hreturn, Nat.add_assoc]

/-- Reading on from a position is the same as counting from the start. -/
theorem foldl_advance_after (before cs : List Char) : cs.foldl advance (after before) = after (before ++ cs) := by
  induction cs generalizing before with
  | nil => rw [List.append_nil]; rfl
  | cons c cs ih => rw [List.foldl_cons, ← after_concat, ih, List.append_assoc, List.singleton_append]

/-- No position counts further than there are characters. -/
theorem after_le (before rest : List Char) :
    (after before).line ≤ (before ++ rest).length + 1 ∧ (after before).column ≤ (before ++ rest).length + 1 := by
  have hline : before.count '\n' ≤ before.length := List.count_le_length
  have hcolumn : (lastLine before).countP (· != '\r') ≤ (lastLine before).length := List.countP_le_length
  have hlast : (lastLine before).length ≤ before.length := by
    have hprefix := (List.takeWhile_prefix (· != '\n') (l := before.reverse)).length_le
    rwa [List.length_reverse] at hprefix
  rw [List.length_append]
  constructor <;> simp only [after] <;> omega

/-- Characters that are read never lead back. -/
theorem lt_advance {p q : Position} (h : p < q) (c : Char) : p < q.advance c := by
  change p.line < q.line ∨ (p.line = q.line ∧ p.column < q.column) at h
  change p.line < (q.advance c).line ∨ (p.line = (q.advance c).line ∧ p.column < (q.advance c).column)
  unfold advance
  split
  · left
    show p.line < q.line + 1
    omega
  · split
    · exact h
    · show p.line < q.line ∨ (p.line = q.line ∧ p.column < q.column + 1)
      omega

theorem lt_foldl_advance {p q : Position} (h : p < q) (cs : List Char) : p < cs.foldl advance q := by
  induction cs generalizing q with
  | nil => exact h
  | cons c cs ih => exact ih (lt_advance h c)

/-- A character that is no blank takes a column. -/
theorem lt_advance_self {c : Char} (hc : Text.isBlank c = false) (p : Position) : p < p.advance c := by
  have hnewline : c ≠ '\n' := by rintro rfl; exact absurd hc (by decide)
  have hreturn : c ≠ '\r' := by rintro rfl; exact absurd hc (by decide)
  unfold advance
  rw [if_neg hnewline, if_neg hreturn]
  exact .inr ⟨rfl, Nat.lt_succ_self _⟩

end Position

/-- A line and a column in 32 bits each; behind the largest number there is zero again. -/
structure Counters where
  line : UInt32
  column : UInt32
  deriving DecidableEq

namespace Counters

def start : Counters := ⟨1, 1⟩

instance : LT Counters :=
  ⟨fun p q => p.line < q.line ∨ (p.line = q.line ∧ p.column < q.column)⟩

def advance (p : Counters) (c : Char) : Counters :=
  if c = '\n' then ⟨p.line + 1, 1⟩
  else if c = '\r' then p
  else ⟨p.line, p.column + 1⟩

end Counters

namespace Position

/-- The counters that hold a position. -/
def counters (p : Position) : Counters := ⟨.ofNat p.line, .ofNat p.column⟩

theorem counters_advance (p : Position) (c : Char) : (p.advance c).counters = p.counters.advance c := by
  unfold advance Counters.advance
  split
  · exact congrArg (Counters.mk · 1) (UInt32.ofNat_add p.line 1)
  · split
    · rfl
    · exact congrArg (Counters.mk _) (UInt32.ofNat_add p.column 1)

/-- Counting along a text gives the counters of the position after it, also where they begin
again. -/
theorem counters_foldl_advance (cs : List Char) (p : Position) :
    (cs.foldl advance p).counters = cs.foldl Counters.advance p.counters := by
  induction cs generalizing p with
  | nil => rfl
  | cons c cs ih => rw [List.foldl_cons, List.foldl_cons, ih, counters_advance]

/-- Positions that fit into the counters are in the same order there. -/
theorem counters_lt_counters {p q : Position} (h : p < q) (hp : p.line < UInt32.size ∧ p.column < UInt32.size)
    (hq : q.line < UInt32.size ∧ q.column < UInt32.size) : p.counters < q.counters := by
  rcases h with hline | ⟨hline, hcolumn⟩
  · exact .inl ((UInt32.ofNat_lt_iff_lt hp.1 hq.1).mpr hline)
  · exact .inr ⟨congrArg UInt32.ofNat hline, (UInt32.ofNat_lt_iff_lt hp.2 hq.2).mpr hcolumn⟩

end Position

/-! ## Gaps -/

/-- Blanks and comments, where every comment ends with its line. -/
inductive IsGap : List Char → Prop
  | nil : IsGap []
  | blank {c : Char} {cs : List Char} (hc : Text.isBlank c = true) (h : IsGap cs) : IsGap (c :: cs)
  | comment {body cs : List Char} (hbody : '\n' ∉ body) (h : IsGap cs) :
      IsGap ('/' :: '/' :: (body ++ '\n' :: cs))

/-- Blanks and comments, where the last comment may end with the text. -/
inductive IsLastGap : List Char → Prop
  | closed {cs : List Char} (h : IsGap cs) : IsLastGap cs
  | unclosed {gap body : List Char} (h : IsGap gap) (hbody : '\n' ∉ body) :
      IsLastGap (gap ++ '/' :: '/' :: body)

theorem IsGap.append {g g' : List Char} (h : IsGap g) (h' : IsGap g') : IsGap (g ++ g') := by
  induction h with
  | nil => exact h'
  | blank hc _ ih => exact .blank hc ih
  | comment hbody _ ih => simpa using IsGap.comment hbody ih

/-- The characters of a token: no blanks, and each continues the one before it. -/
structure IsTokenText (w : List Char) : Prop where
  ne_nil : w ≠ []
  notBlank : ∀ c ∈ w, Text.isBlank c = false
  chain : IsChain w

/-- A token ends before the given rest: its last character is not continued, and a slash
opens no comment. -/
structure EndsToken (w rest : List Char) : Prop where
  breaks : ∀ last ∈ w.getLast?, BreaksAfter last rest
  notComment : w = ['/'] → rest.head? ≠ some '/'

/-- A text at whose front there is neither a blank nor a comment. -/
structure StartsToken (c : Char) (cs : List Char) : Prop where
  notBlank : Text.isBlank c = false
  notComment : ¬(c = '/' ∧ cs.head? = some '/')

theorem endsToken_nil (w : List Char) : EndsToken w [] := by
  constructor
  · intro last _ c hc
    cases hc
  · intro _ hhead
    cases hhead

/-- A blank continues no token. -/
theorem endsToken_blank (w : List Char) {c : Char} (hc : Text.isBlank c = true) (rest : List Char) :
    EndsToken w (c :: rest) := by
  constructor
  · intro last _ d hd
    obtain rfl : c = d := Option.some.inj hd
    cases hcontinues : continues last c with
    | false => rfl
    | true =>
      rw [isBlank_of_continues hcontinues] at hc
      cases hc
  · intro _ hhead
    obtain rfl : c = '/' := Option.some.inj hhead
    exact absurd hc (by decide)

/-- A slash is continued by nothing. -/
theorem eq_slash_of_chain {cs : List Char} (h : IsChain ('/' :: cs)) : cs = [] := by
  cases cs with
  | nil => rfl
  | cons d cs =>
    have hd := (List.isChain_cons_cons.mp h).1
    simp [continues, isWordChar, isRelationChar] at hd

namespace Lexer

/-- Inside a comment the lexer stays in it as long as the line does not end. -/
theorem skipGap_body {body : List Char} (hbody : '\n' ∉ body) (pos : Position) (rest : List Char) :
    skipGap true pos (body ++ rest) = skipGap true (body.foldl Position.advance pos) rest := by
  induction body generalizing pos with
  | nil => rfl
  | cons c body ih =>
    have hne : (c != '\n') = true := by simpa using (List.ne_of_not_mem_cons hbody).symm
    rw [List.cons_append, skipGap, if_pos rfl, hne]
    exact ih (List.not_mem_of_not_mem_cons hbody) _

/-- Two slashes open a comment. -/
theorem skipGap_comment {body : List Char} (hbody : '\n' ∉ body) (pos : Position) (rest : List Char) :
    skipGap false pos ('/' :: '/' :: (body ++ rest)) =
      skipGap true (('/' :: '/' :: body).foldl Position.advance pos) rest := by
  have hslash : '\n' ∉ '/' :: body := List.not_mem_cons_of_ne_of_not_mem (by decide) hbody
  rw [List.foldl_cons, ← skipGap_body hslash]
  rfl

theorem skipGap_newline (inComment : Bool) (pos : Position) (rest : List Char) :
    skipGap inComment pos ('\n' :: rest) = skipGap false (pos.advance '\n') rest := by
  cases inComment <;> rfl

/-- A gap is left out as a whole. -/
theorem skip_append {gap : List Char} (h : IsGap gap) (pos : Position) (rest : List Char) :
    skip ⟨pos, gap ++ rest⟩ = skip ⟨gap.foldl Position.advance pos, rest⟩ := by
  change skipGap false pos (gap ++ rest) = skipGap false (gap.foldl Position.advance pos) rest
  induction h generalizing pos with
  | nil => rfl
  | blank hc _ ih =>
    rw [List.cons_append, skipGap]
    simp only [hc, Bool.false_eq_true, if_false, if_true, List.foldl_cons]
    exact ih _
  | @comment body cs hbody _ ih =>
    have htext : '/' :: '/' :: (body ++ '\n' :: cs) ++ rest = '/' :: '/' :: (body ++ '\n' :: (cs ++ rest)) := by simp
    rw [htext, skipGap_comment hbody, skipGap_newline, ih]
    simp

/-- What the lexer leaves out at the front of a text: the last gap, or a gap before a
token. -/
inductive Skips (pos : Position) : List Char → Prop
  | toEnd {cs : List Char} (hlast : IsLastGap cs) (h : skip ⟨pos, cs⟩ = ⟨cs.foldl Position.advance pos, []⟩) :
      Skips pos cs
  | toToken {gap rest : List Char} {c : Char} (hgap : IsGap gap) (hstart : StartsToken c rest)
      (h : skip ⟨pos, gap ++ c :: rest⟩ = ⟨gap.foldl Position.advance pos, c :: rest⟩) :
      Skips pos (gap ++ c :: rest)

theorem Skips.append {part : List Char} (hpart : IsGap part) {pos : Position} {rest : List Char}
    (h : Skips (part.foldl Position.advance pos) rest) : Skips pos (part ++ rest) := by
  have hskip := skip_append hpart pos rest
  cases h with
  | toEnd hlast heq =>
    refine .toEnd ?_ (by rw [hskip, heq, List.foldl_append])
    cases hlast with
    | closed hgap => exact .closed (hpart.append hgap)
    | unclosed hgap hbody =>
      rw [← List.append_assoc]
      exact .unclosed (hpart.append hgap) hbody
  | @toToken gap rest c hgap hstart heq =>
    rw [← List.append_assoc] at hskip ⊢
    exact .toToken (hpart.append hgap) hstart (by rw [hskip, heq, List.foldl_append])

theorem skips_of_comment {pos : Position} {cs : List Char}
    (ih : ∀ {rest : List Char} (pos : Position), rest.length < cs.length → Skips pos rest) :
    Skips pos ('/' :: '/' :: cs) := by
  by_cases hnewline : '\n' ∈ cs
  · obtain ⟨body, rest, rfl, hbody⟩ := List.eq_append_cons_of_mem hnewline
    have hlt : rest.length < (body ++ '\n' :: rest).length := by
      rw [List.length_append, List.length_cons]
      omega
    have hrest : Skips pos ('/' :: '/' :: (body ++ ['\n']) ++ rest) :=
      Skips.append (IsGap.comment hbody .nil) (ih _ hlt)
    simpa using hrest
  · have hskip := skipGap_comment hnewline pos []
    rw [List.append_nil] at hskip
    exact .toEnd (.unclosed .nil hnewline) hskip

theorem skips (pos : Position) (cs : List Char) : Skips pos cs := by
  -- a comment is left out in one step, so the induction is on the length of the text
  induction hlength : cs.length using Nat.strong_induction_on generalizing pos cs with
  | _ n ih =>
    subst hlength
    cases cs with
    | nil => exact .toEnd (.closed .nil) rfl
    | cons c cs =>
      cases hblank : Text.isBlank c with
      | true => exact Skips.append (.blank hblank .nil) (ih _ (Nat.lt_succ_self _) _ cs rfl)
      | false =>
        by_cases hcomment : c = '/' ∧ cs.head? = some '/'
        · obtain ⟨rfl, hhead⟩ := hcomment
          obtain ⟨cs, rfl⟩ := List.head?_eq_some_iff.mp hhead
          refine skips_of_comment fun {rest} pos' hlt => ih rest.length ?_ pos' rest rfl
          simp only [List.length_cons]
          omega
        · exact .toToken .nil ⟨hblank, hcomment⟩ (skip_of_start hblank hcomment)

/-! ## One token -/

theorem isTokenText_of_chain {c : Char} {cs : List Char} (hc : Text.isBlank c = false) (h : IsChain (c :: cs)) :
    IsTokenText (c :: cs) := by
  refine ⟨List.cons_ne_nil _ _, ?_, h⟩
  induction cs generalizing c with
  | nil => exact List.forall_mem_singleton.mpr hc
  | cons d cs ih =>
    obtain ⟨hd, hchain⟩ := List.isChain_cons_cons.mp h
    exact List.forall_mem_cons.mpr ⟨hc, ih (isBlank_of_continues hd) hchain⟩

/-- The text of a token is read as that token wherever it ends before the rest. -/
theorem next?_tokenText {w rest : List Char} (hw : IsTokenText w) (hends : EndsToken w rest) (pos : Position) :
    next? ⟨pos, w ++ rest⟩ = some (⟨String.ofList w, pos⟩, ⟨w.foldl Position.advance pos, rest⟩) := by
  obtain ⟨c, cs, rfl⟩ := List.exists_cons_of_ne_nil hw.ne_nil
  have hcomment : ¬(c = '/' ∧ (cs ++ rest).head? = some '/') := by
    rintro ⟨rfl, hhead⟩
    obtain rfl := eq_slash_of_chain hw.chain
    exact hends.notComment rfl hhead
  have hbreak := hends.breaks _ (List.getLast?_eq_some_getLast (List.cons_ne_nil c cs))
  exact next?_chain (hw.notBlank c List.mem_cons_self) hcomment hw.chain hbreak

/-- A step reads a gap and a token, and stands after them. -/
theorem exists_of_next? {pos : Position} {cs : List Char} {t : Token} {l' : Lexer}
    (h : next? ⟨pos, cs⟩ = some (t, l')) :
    ∃ gap w, cs = gap ++ (w ++ l'.rest) ∧ IsGap gap ∧ IsTokenText w ∧ EndsToken w l'.rest ∧
      t = ⟨String.ofList w, gap.foldl Position.advance pos⟩ ∧ l'.pos = (gap ++ w).foldl Position.advance pos := by
  unfold next? at h
  cases skips pos cs with
  | toEnd _ heq => simp [heq] at h
  | @toToken gap rest c hgap hstart heq =>
    obtain ⟨w, rest, rfl, hchain, hbreak, hgrow⟩ :=
      exists_grow [c] c ((gap.foldl Position.advance pos).advance c) rest
    simp only [heq, hgrow, Option.some.injEq, Prod.mk.injEq] at h
    obtain ⟨rfl, rfl⟩ := h
    refine ⟨gap, c :: w, rfl, hgap, isTokenText_of_chain hstart.notBlank hchain, ⟨?_, ?_⟩, rfl, ?_⟩
    · intro last hlast
      rw [List.getLast?_eq_some_getLast (List.cons_ne_nil c w), Option.mem_some_iff] at hlast
      rwa [hlast] at hbreak
    · intro hw hhead
      cases hw
      exact hstart.notComment ⟨rfl, hhead⟩
    · rw [List.foldl_append, List.foldl_cons]

/-- If there is no token left, only a gap is left. -/
theorem isLastGap_of_next? {pos : Position} {cs : List Char} (h : next? ⟨pos, cs⟩ = none) :
    IsLastGap cs ∧ stop ⟨pos, cs⟩ = cs.foldl Position.advance pos := by
  cases skips pos cs with
  | toEnd hlast heq => exact ⟨hlast, by rw [stop, heq]⟩
  | toToken _ _ heq => simp [next?, heq] at h

/-- The lexer comes to the end of every text. -/
theorem exists_reads (l : Lexer) : ∃ ts l', Reads l ts l' ∧ l'.next? = none := by
  induction hlength : l.rest.length using Nat.strong_induction_on generalizing l with
  | _ n ih =>
    cases hnext : l.next? with
    | none => exact ⟨[], l, .nil l, hnext⟩
    | some step =>
      obtain ⟨t, l₁⟩ := step
      obtain ⟨ts, l', hreads, hend⟩ := ih l₁.rest.length (hlength ▸ (chain_of_next? hnext).2) l₁ rfl
      exact ⟨t :: ts, l', .cons hnext hreads, hend⟩

section
variable {l l' : Lexer} {t : Token} {ts : List Token} {p : Position}

/-- A token takes a column, so what follows it stands at a later position. -/
theorem pos_lt_of_next? (h : l.next? = some (t, l')) : t.pos < l'.pos := by
  obtain ⟨gap, w, -, -, hw, -, rfl, hpos⟩ := exists_of_next? h
  obtain ⟨c, cs, rfl⟩ := List.exists_cons_of_ne_nil hw.ne_nil
  rw [hpos, List.foldl_append, List.foldl_cons]
  exact Position.lt_foldl_advance (Position.lt_advance_self (hw.notBlank c List.mem_cons_self) _) cs

theorem lt_pos_of_next? (h : l.next? = some (t, l')) (hp : p < l.pos) : p < t.pos ∧ p < l'.pos := by
  obtain ⟨gap, w, -, -, -, -, rfl, hpos⟩ := exists_of_next? h
  rw [hpos]
  exact ⟨Position.lt_foldl_advance hp gap, Position.lt_foldl_advance hp (gap ++ w)⟩

theorem lt_pos_of_reads (h : Reads l ts l') (hp : p < l.pos) : ∀ t ∈ ts, p < t.pos := by
  induction h with
  | nil => exact fun _ ht => absurd ht List.not_mem_nil
  | cons hnext _ ih =>
    obtain ⟨ht, hafter⟩ := lt_pos_of_next? hnext hp
    exact List.forall_mem_cons.mpr ⟨ht, ih hafter⟩

/-- Tokens stand at later and later positions. -/
theorem pairwise_of_reads (h : Reads l ts l') : ts.Pairwise fun t u => t.pos < u.pos := by
  induction h with
  | nil => exact .nil
  | cons hnext hs ih => exact .cons (lt_pos_of_reads hs (pos_lt_of_next? hnext)) ih

end

end Lexer

/-! ## The whole text -/

/-- A token and the gap after it. -/
structure Piece where
  token : Token
  gap : List Char

def spell (ps : List Piece) : List Char := ps.flatMap fun p => p.token.text.toList ++ p.gap

/-- A gap before some pieces; if there are none, it is the last one. -/
def IsGapBefore (ps : List Piece) (gap : List Char) : Prop := if ps = [] then IsLastGap gap else IsGap gap

/-- A piece stands between the text before it and the pieces after it. -/
structure Piece.Fits (before : List Char) (p : Piece) (after : List Piece) : Prop where
  text : IsTokenText p.token.text.toList
  ends : EndsToken p.token.text.toList (p.gap ++ spell after)
  gap : IsGapBefore after p.gap
  kind_eq : p.token.kind = Token.Kind.ofText p.token.text
  pos_eq : p.token.pos = Position.after before

/-- A first gap and pieces make up a text. -/
structure IsSplit (text lead : List Char) (ps : List Piece) : Prop where
  text_eq : text = lead ++ spell ps
  lead_gap : IsGapBefore ps lead
  fits : ∀ {before after : List Piece} {p : Piece}, ps = before ++ p :: after →
    p.Fits (lead ++ spell before) after

/-- The tokens of the rest of a text are those of its pieces. `before` is the text that was
read already. -/
theorem Lexer.exists_pieces (before : List Char) {ts : List Token} {l l' : Lexer} (h : Reads l ts l')
    (hpos : l.pos = Position.after before) (hend : l'.next? = none) :
    ∃ lead ps, ps.map (·.token) = ts ∧ l.rest = lead ++ spell ps ∧ IsGapBefore ps lead ∧
      (∀ {b a : List Piece} {p : Piece}, ps = b ++ p :: a → p.Fits (before ++ lead ++ spell b) a) ∧
      l'.stop = Position.after (before ++ l.rest) := by
  induction h generalizing before with
  | nil l =>
    obtain ⟨hlast, hstop⟩ := isLastGap_of_next? hend
    refine ⟨l.rest, [], rfl, (List.append_nil _).symm, by simpa [IsGapBefore] using hlast, ?_, ?_⟩
    · intro b a p hsplit
      exact absurd hsplit.symm (by simp)
    · rw [← Position.foldl_advance_after, ← hpos]
      exact hstop
  | @cons l l₁ l' t ts hnext hs ih =>
    obtain ⟨gap, w, hcs, hgap, hw, hends, rfl, hpos₁⟩ := exists_of_next? hnext
    rw [hpos, Position.foldl_advance_after, ← List.append_assoc] at hpos₁
    obtain ⟨lead, ps, rfl, hrest, hlead, hfits, hstop⟩ := ih _ hpos₁ hend
    rw [hrest] at hcs hends hstop
    have hpiece : Piece.Fits (before ++ gap) ⟨⟨String.ofList w, gap.foldl Position.advance l.pos⟩, lead⟩ ps := by
      refine ⟨by simpa using hw, by simpa using hends, hlead, rfl, ?_⟩
      rw [hpos, Position.foldl_advance_after]
    refine ⟨gap, ⟨_, lead⟩ :: ps, rfl, by simp [hcs, spell], by simpa [IsGapBefore] using hgap, ?_, ?_⟩
    · intro b a p hsplit
      cases b with
      | nil =>
        obtain ⟨rfl, rfl⟩ := List.cons.inj hsplit
        simpa [spell] using hpiece
      | cons q b =>
        obtain ⟨rfl, hothers⟩ := List.cons.inj hsplit
        simpa [spell] using hfits hothers
    · simpa [hcs] using hstop

/-- A token of a split stands after a part of the text. -/
theorem IsSplit.pos_le {text lead : List Char} {ps : List Piece} (h : IsSplit text lead ps) {p : Piece} (hp : p ∈ ps) :
    p.token.pos.line ≤ text.length + 1 ∧ p.token.pos.column ≤ text.length + 1 := by
  obtain ⟨before, after, rfl⟩ := List.append_of_mem hp
  have hsplit : text = (lead ++ spell before) ++ spell (p :: after) := by
    rw [h.text_eq, List.append_assoc]
    simp [spell]
  have hbound := Position.after_le (lead ++ spell before) (spell (p :: after))
  rw [← hsplit] at hbound
  rw [(h.fits rfl).pos_eq]
  exact hbound

/-- The tokens of a text are those of a split of it. -/
theorem exists_split (source : String) : ∃ ts l' lead ps, Lexer.Reads (Lexer.ofSource source) ts l' ∧
    l'.next? = none ∧ l'.stop = Position.after source.toList ∧ ps.map (·.token) = ts ∧
    IsSplit source.toList lead ps := by
  obtain ⟨ts, l', hreads, hend⟩ := Lexer.exists_reads (Lexer.ofSource source)
  obtain ⟨lead, ps, hts, htext, hlead, hfits, hstop⟩ := Lexer.exists_pieces [] hreads Position.after_nil.symm hend
  exact ⟨ts, l', lead, ps, hreads, hend, hstop, hts, htext, hlead, hfits⟩

/-- The tokens of a text stand at later and later positions, none of which counts further than
there are characters, and the text ends where its characters say. -/
theorem Lexer.tokens_ofSource (source : String) :
    ((ofSource source).tokens.1.Pairwise fun t t' => t.pos < t'.pos) ∧
      (∀ t ∈ (ofSource source).tokens.1, t.pos.line ≤ source.length + 1 ∧ t.pos.column ≤ source.length + 1) ∧
      (ofSource source).tokens.2 = Position.after source.toList := by
  obtain ⟨ts, l', lead, ps, hreads, hend, hstop, rfl, hsplit⟩ := exists_split source
  rw [tokens_eq_of_reads hreads hend]
  refine ⟨pairwise_of_reads hreads, ?_, hstop⟩
  intro t ht
  obtain ⟨p, hp, rfl⟩ := List.mem_map.mp ht
  rw [← String.length_toList]
  exact hsplit.pos_le hp

/-! ## Pulling tokens -/

namespace TokenStream

theorem serveAll_next {l l₁ : Lexer} {t : Token} (h : l.next? = some (t, l₁)) (rs : List Request) :
    serveAll ⟨l, none⟩ (.next :: rs) = .token (.ok t) :: serveAll ⟨l₁, none⟩ rs := by
  simp [serveAll, serve, next, fill, h]

theorem serveAll_reads {l l' : Lexer} {ts : List Token} (h : Lexer.Reads l ts l') (rs : List Request) :
    serveAll ⟨l, none⟩ (List.replicate ts.length .next ++ rs) =
      ts.map (fun t => .token (.ok t)) ++ serveAll ⟨l', none⟩ rs := by
  induction h with
  | nil => rfl
  | cons hnext _ ih =>
    rw [List.length_cons, List.replicate_succ, List.cons_append, serveAll_next hnext, ih]
    rfl

theorem serveAll_end {l : Lexer} (h : l.next? = none) :
    serveAll ⟨l, none⟩ [.next] = [.token (.error ⟨l.stop⟩)] := by
  simp [serveAll, serve, next, fill, h, Lexer.stop]

end TokenStream

/-- Asking for tokens until there are none gives those of a split of the whole text, at later
and later positions, and then the failure at the position where the text ends. No count of
lines or columns exceeds the number of characters by more than one. -/
theorem source_split_into_tokens (source : String) : ∃ ts lead ps,
    (TokenStream.ofSource source).serveAll (List.replicate ts.length .next ++ [.next]) =
      ts.map (fun t => .token (.ok t)) ++ [.token (.error ⟨Position.after source.toList⟩)] ∧
    (Lexer.ofSource source).tokens = (ts, Position.after source.toList) ∧
    ps.map (·.token) = ts ∧ IsSplit source.toList lead ps ∧
    ts.Pairwise (fun t u => t.pos < u.pos) ∧
    ∀ pos ∈ Position.after source.toList :: ts.map (·.pos),
      pos.line ≤ source.length + 1 ∧ pos.column ≤ source.length + 1 := by
  obtain ⟨ts, l', lead, ps, hreads, hend, hstop, hts, hsplit⟩ := exists_split source
  have htokens : (Lexer.ofSource source).tokens = (ts, Position.after source.toList) := by
    rw [← hstop]
    exact Lexer.tokens_eq_of_reads hreads hend
  obtain ⟨hsorted, hbound, -⟩ := Lexer.tokens_ofSource source
  rw [htokens] at hsorted hbound
  refine ⟨ts, lead, ps, ?_, htokens, hts, hsplit, hsorted, ?_⟩
  · rw [← hstop, ← TokenStream.serveAll_end hend]
    exact TokenStream.serveAll_reads hreads [.next]
  · intro pos hpos
    rcases List.mem_cons.mp hpos with rfl | hpos
    · have hlast := Position.after_le source.toList []
      rwa [List.append_nil, String.length_toList] at hlast
    · obtain ⟨t, ht, rfl⟩ := List.mem_map.mp hpos
      exact hbound t ht

end Gateware

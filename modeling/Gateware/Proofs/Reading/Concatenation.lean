import Gateware.Proofs.Reading.Relocation

/- Files one after another.

   A line feed ends every token and every comment. This file

   1. moves positions, lexers and runs of them some lines further down (`Position.down`,
      `Lexer.down`, `Reads.down`), which changes no decision of the lexer;
   2. proves that two texts with a line feed between them have the tokens of the first text and
      then those of the second, which stand as many lines further down as there are up to there
      (`tokens_append_newline`);
   3. concludes for files: if the first text is one, reading comes to its end and goes on with the
      second, whose modules or error follow further down (`parse_append_newline`). -/
namespace Gateware
open Grammar

/-! ## Texts further down -/

namespace Position

def down (n : Nat) (p : Position) : Position := ⟨p.line + n, p.column⟩

theorem advance_down (n : Nat) (p : Position) (c : Char) : (p.down n).advance c = (p.advance c).down n := by
  unfold advance down
  split
  · simp only [mk.injEq, and_true]
    omega
  · split <;> rfl

theorem foldl_advance_down (n : Nat) (cs : List Char) (p : Position) :
    cs.foldl advance (p.down n) = (cs.foldl advance p).down n := by
  induction cs generalizing p with
  | nil => rfl
  | cons c cs ih => rw [List.foldl_cons, List.foldl_cons, advance_down, ih]

/-- The line after a text begins as far down as the text has lines. -/
theorem advance_after_newline (cs : List Char) : (after cs).advance '\n' = start.down (cs.count '\n' + 1) := by
  simp only [advance, if_true, after, down, start, mk.injEq, and_true]
  omega

end Position

/-- A line feed ends a comment that is still open. -/
theorem IsLastGap.append_newline {gap : List Char} (h : IsLastGap gap) : IsGap (gap ++ ['\n']) := by
  cases h with
  | closed hgap => exact hgap.append (.blank (by decide) .nil)
  | unclosed hgap hbody => simpa using hgap.append (IsGap.comment hbody .nil)

namespace Lexer
variable {l l' : Lexer} {ts : List Token}

/-- The same rest of a text some lines further down. -/
def down (n : Nat) (l : Lexer) : Lexer := ⟨l.pos.down n, l.rest⟩

theorem next?_down {t : Token} (h : l.next? = some (t, l')) (n : Nat) :
    (l.down n).next? = some (t.relocate (.down n), l'.down n) := by
  obtain ⟨pos, cs⟩ := l
  obtain ⟨pos', rest⟩ := l'
  obtain ⟨gap, w, rfl, hgap, hw, hends, rfl, rfl⟩ := exists_of_next? h
  rw [down, next?_append hgap hw hends, Position.foldl_advance_down, Position.foldl_advance_down]
  rfl

theorem next?_down_eq_none (h : l.next? = none) (n : Nat) : (l.down n).next? = none := by
  obtain ⟨pos, cs⟩ := l
  cases hdown : next? (down n ⟨pos, cs⟩) with
  | none => rfl
  | some step =>
    -- a token further down would also be one here
    obtain ⟨gap, w, hcs, hgap, hw, hends, -, -⟩ := exists_of_next? hdown
    obtain rfl : cs = _ := hcs
    rw [next?_append hgap hw hends] at h
    cases h

theorem Reads.down (h : Reads l ts l') (n : Nat) :
    Reads (l.down n) (ts.map (Token.relocate (.down n))) (l'.down n) := by
  induction h with
  | nil l => exact .nil _
  | cons hnext _ ih => exact .cons (next?_down hnext n) ih

theorem stop_down (h : l.next? = none) (n : Nat) : (l.down n).stop = l.stop.down n := by
  rw [(isLastGap_of_next? h).2, ← Position.foldl_advance_down]
  exact (isLastGap_of_next? (next?_down_eq_none h n)).2

/-! ## Texts one after another -/

/-- What is left out before some tokens changes neither them nor the end of the text. -/
theorem Reads.gap {pos : Position} {gap rest : List Char} (hgap : IsGap gap)
    (h : Reads ⟨gap.foldl Position.advance pos, rest⟩ ts l') (hend : l'.next? = none) :
    ∃ l'', Reads ⟨pos, gap ++ rest⟩ ts l'' ∧ l''.next? = none ∧ l''.stop = l'.stop := by
  cases h with
  | nil => exact ⟨_, .nil _, by rw [next?_gap hgap, hend], by rw [stop, stop, skip_append hgap]⟩
  | cons hfirst hs => exact ⟨l', .cons (by rw [next?_gap hgap, hfirst]) hs, hend, rfl⟩

/-- With a line feed between them, two texts have the tokens of the first one and then those of
the second one, further down. -/
theorem tokens_append_newline (s₁ s₂ : String) :
    let n := s₁.toList.count '\n' + 1
    (ofSource (s₁ ++ "\n" ++ s₂)).tokens =
      ((ofSource s₁).tokens.1 ++ (ofSource s₂).tokens.1.map (Token.relocate (.down n)),
        (ofSource s₂).tokens.2.down n) := by
  intro n
  obtain ⟨ts₁, l₁, hreads₁, hend₁⟩ := exists_reads (ofSource s₁)
  obtain ⟨ts₂, l₂, hreads₂, hend₂⟩ := exists_reads (ofSource s₂)
  -- the first text is read as before, up to its last gap
  obtain ⟨front, hfront, hfirst⟩ := hreads₁.change_rest (l₁.rest ++ ['\n'] ++ s₂.toList) fun h => by
    simpa using h.append_newline s₂.toList
  -- with the line feed this is a gap before the second text, which begins on a line of its own
  obtain ⟨hlast, hstop⟩ := isLastGap_of_next? hend₁
  have hpos : (l₁.rest ++ ['\n']).foldl Position.advance l₁.pos = Position.start.down n := by
    obtain ⟨_, _, -, -, -, -, hafter⟩ := exists_pieces [] hreads₁ Position.after_nil.symm hend₁
    rw [List.foldl_append, ← hstop, hafter]
    exact Position.advance_after_newline s₁.toList
  have hbelow : Reads ⟨(l₁.rest ++ ['\n']).foldl Position.advance l₁.pos, s₂.toList⟩
      (ts₂.map (Token.relocate (.down n))) (l₂.down n) := by
    rw [hpos]
    exact hreads₂.down n
  obtain ⟨l', hsecond, hend, hstop'⟩ := hbelow.gap hlast.append_newline (next?_down_eq_none hend₂ n)
  have htext : ofSource (s₁ ++ "\n" ++ s₂) =
      ⟨(ofSource s₁).pos, front ++ (l₁.rest ++ ['\n'] ++ s₂.toList)⟩ := by
    have hs₁ : s₁.toList = front ++ l₁.rest := hfront
    simp [ofSource, hs₁]
  rw [tokens_eq_of_reads hreads₁ hend₁, tokens_eq_of_reads hreads₂ hend₂, htext,
    tokens_eq_of_reads (hfirst.append hsecond) hend, hstop', stop_down hend₂]

end Lexer

/-- A file and a text on the lines below it. The modules of the file come first; those of the
text follow, as many lines further down as the file has, and so does an error in it. -/
theorem parse_append_newline {s₁ s₂ : String} {ms₁ : List Module} (h : parse s₁ = .ok ms₁) :
    let below := Position.down (s₁.toList.count '\n' + 1)
    parse (s₁ ++ "\n" ++ s₂) =
      match parse s₂ with
      | .ok ms₂ => .ok (ms₁ ++ ms₂.map (Module.relocate below))
      | .error e => .error (e.relocate below) := by
  intro below
  obtain ⟨f, hf, hbounded, rfl⟩ := parse_eq_ok_iff.mp h
  have hmodules : ∀ x ∈ f.modules, x.Grouped ∧ x.Bounded := fun x hx => ⟨hf.grouped x hx, hbounded x hx⟩
  have hqueue : TokenQueue.ofSource (s₁ ++ "\n" ++ s₂) =
      ((TokenQueue.ofSource s₂).relocate below).put (f.modules.flatMap ModuleTree.tokens) := by
    rw [TokenQueue.ofSource, Lexer.tokens_append_newline, ← hf.tokens_eq]
    rfl
  rw [parse_eq_modules, hqueue, TokenQueue.modules_put f.modules hmodules, TokenQueue.modules_relocate,
    parse_eq_modules]
  cases (TokenQueue.ofSource s₂).modules <;> rfl

/-- A file that ends inside of a comment, before itself and before an unfinished module. -/
theorem parse_below_twoModules :
    parse (twoModulesText ++ "// (" ++ "\n" ++ (twoModulesText ++ "// (")) =
      .ok (twoModules.value ++ twoModules.value.map (Module.relocate (.down 1))) ∧
    parse (twoModulesText ++ "// (" ++ "\n" ++ "b(") = .error (.endOfInput ⟨⟨2, 3⟩⟩) := by
  obtain ⟨hgrouped, hbounded⟩ := twoModules_wellFormed
  have hf : twoModules.IsDerivationOf (Lexer.ofSource (twoModulesText ++ "// (")).tokens.1 :=
    ⟨hgrouped, by decide +kernel⟩
  have hfirst : parse (twoModulesText ++ "// (") = .ok twoModules.value :=
    parse_eq_ok_iff.mpr ⟨_, hf, hbounded, rfl⟩
  have hunfinished : parse "b(" = .error (.endOfInput ⟨⟨1, 3⟩⟩) := by
    have hfailure : (Reading.ofSource "b(").failure = some (.endOfInput ⟨⟨1, 3⟩⟩) := by decide +kernel
    rw [parse, Reading.result, hfailure]
  refine ⟨?_, ?_⟩
  · rw [parse_append_newline hfirst, hfirst]
    rfl
  · rw [parse_append_newline hfirst, hunfinished]
    rfl

end Gateware

import Mathlib.Data.List.Chain
import Gateware.Syntax.Reader

/- Splitting a text into known tokens.

   The lexer lets a token grow as long as the next character continues the last one. This file

   1. says of a list of characters that each continues the one before it (`IsChain`), and of a
      text that it does not go on with a character (`BreaksAfter`);
   2. proves both directions for one token: the characters of a token are a chain
      (`chain_of_next?`), and a chain is read as one token if the text breaks after it
      (`next?_chain`);
   3. puts steps together (`Reads`): the lexer gives some tokens one after another and then
      stands at a later place; at the end of the text these are all tokens there are
      (`tokens_eq_of_reads`);
   4. forgets where the tokens stand (`words`), and says of the rest of a text which words it has
      (`Lexes`), which is kept by each piece that is put before it.

   Nothing here looks at the kinds of tokens. What stands between them is the subject of
   `Token.Split`; here a blank is all that is needed. -/
namespace Gateware

/-- Each character continues the one before it. -/
def IsChain (cs : List Char) : Prop := List.IsChain (fun c d => continues c d = true) cs

instance (cs : List Char) : Decidable (IsChain cs) := inferInstanceAs (Decidable (List.IsChain _ cs))

/-- The text goes on with no character that continues `last`. -/
def BreaksAfter (last : Char) (rest : List Char) : Prop := ∀ c, rest.head? = some c → continues last c = false

/-! ## Characters of tokens -/

theorem toNat_bounds {c low high : Char} (h : low.val ≤ c.val ∧ c.val ≤ high.val) :
    low.toNat ≤ c.toNat ∧ c.toNat ≤ high.toNat :=
  ⟨UInt32.le_iff_toNat_le.mp h.1, UInt32.le_iff_toNat_le.mp h.2⟩

/-- Words are of ASCII characters, and none of these stands in a blank range. -/
theorem isBlank_of_isWordChar {c : Char} (hc : isWordChar c = true) : Text.isBlank c = false := by
  have hrange : (48 ≤ c.toNat ∧ c.toNat ≤ 57) ∨ (65 ≤ c.toNat ∧ c.toNat ≤ 122) := by
    rcases Bool.or_eq_true_iff.mp hc with halphanum | hunderscore
    · rcases Bool.or_eq_true_iff.mp halphanum with halpha | hdigit
      · rcases Bool.or_eq_true_iff.mp halpha with hupper | hlower
        · obtain ⟨hlow, hhigh⟩ : 65 ≤ c.toNat ∧ c.toNat ≤ 90 := toNat_bounds (of_decide_eq_true hupper)
          exact .inr ⟨hlow, by omega⟩
        · obtain ⟨hlow, hhigh⟩ : 97 ≤ c.toNat ∧ c.toNat ≤ 122 :=
            toNat_bounds ((Bool.and_eq_true_iff.mp hlower).imp of_decide_eq_true of_decide_eq_true)
          exact .inr ⟨by omega, hhigh⟩
      · exact .inl (toNat_bounds ((Bool.and_eq_true_iff.mp hdigit).imp of_decide_eq_true of_decide_eq_true))
    · obtain rfl := beq_iff_eq.mp hunderscore
      decide
  rw [← Bool.not_eq_true]
  intro hblank
  simp [Text.isBlank, Text.blankRanges] at hblank
  omega

theorem isBlank_of_continues {c d : Char} (h : continues c d = true) : Text.isBlank d = false := by
  simp only [continues, isRelationChar, Bool.or_eq_true, Bool.and_eq_true, beq_iff_eq] at h
  rcases h with (⟨-, hword⟩ | ⟨-, (rfl | rfl) | rfl⟩) | ⟨-, rfl⟩
  · exact isBlank_of_isWordChar hword
  all_goals decide

namespace Lexer

/-! ## One token -/

/-- A token grows over a chain, up to where it breaks. -/
theorem grow_chain {last : Char} {cs : List Char} (hchain : IsChain (last :: cs)) {rest : List Char}
    (hrest : BreaksAfter ((last :: cs).getLast (List.cons_ne_nil _ _)) rest) (taken : List Char) (pos : Position) :
    grow taken last pos (cs ++ rest) = (taken.reverse ++ cs, ⟨cs.foldl Position.advance pos, rest⟩) := by
  induction cs generalizing last taken pos with
  | nil =>
    cases rest with
    | nil => simp [grow]
    | cons c cs =>
      have hc : continues last c = false := hrest c rfl
      simp [grow, hc]
  | cons d cs ih =>
    obtain ⟨hd, hchain⟩ := List.isChain_cons_cons.mp hchain
    have hrest' : BreaksAfter ((d :: cs).getLast (List.cons_ne_nil _ _)) rest := by
      rw [List.getLast_cons (List.cons_ne_nil d cs)] at hrest
      exact hrest
    rw [List.cons_append, grow, if_pos hd, ih hchain hrest' (d :: taken) (pos.advance d)]
    simp

/-- What a token grows over is a chain, and the text does not go on with it. -/
theorem exists_grow (taken : List Char) (last : Char) (pos : Position) (cs : List Char) :
    ∃ w rest, cs = w ++ rest ∧ IsChain (last :: w) ∧
      BreaksAfter ((last :: w).getLast (List.cons_ne_nil _ _)) rest ∧
      grow taken last pos cs = (taken.reverse ++ w, ⟨w.foldl Position.advance pos, rest⟩) := by
  induction cs generalizing taken last pos with
  | nil => exact ⟨[], [], rfl, List.isChain_singleton _, fun _ hc => (by cases hc), by simp [grow]⟩
  | cons c cs ih =>
    by_cases hc : continues last c = true
    · obtain ⟨w, rest, rfl, hchain, hbreak, hgrow⟩ := ih (c :: taken) c (pos.advance c)
      refine ⟨c :: w, rest, rfl, List.isChain_cons_cons.mpr ⟨hc, hchain⟩, hbreak, ?_⟩
      rw [grow, if_pos hc, hgrow]
      simp
    · refine ⟨[], c :: cs, rfl, List.isChain_singleton _, ?_, ?_⟩
      · intro d hd
        obtain rfl := Option.some.inj hd
        simpa using hc
      · rw [grow, if_neg hc]
        simp

/-- Where a token can begin: at no blank and at no comment. -/
theorem skip_of_start {c : Char} {cs : List Char} {pos : Position} (hblank : Text.isBlank c = false)
    (hcomment : ¬(c = '/' ∧ cs.head? = some '/')) : skip ⟨pos, c :: cs⟩ = ⟨pos, c :: cs⟩ := by
  have hslash : (c == '/' && cs.head? == some '/') = false := by
    rw [← Bool.not_eq_true]
    simpa using hcomment
  simp [skip, skipGap, hblank, hslash]

theorem next?_chain {c : Char} {cs rest : List Char} {pos : Position} (hblank : Text.isBlank c = false)
    (hcomment : ¬(c = '/' ∧ (cs ++ rest).head? = some '/')) (hchain : IsChain (c :: cs))
    (hrest : BreaksAfter ((c :: cs).getLast (List.cons_ne_nil _ _)) rest) :
    next? ⟨pos, c :: (cs ++ rest)⟩ =
      some (⟨String.ofList (c :: cs), pos⟩, ⟨cs.foldl Position.advance (pos.advance c), rest⟩) := by
  rw [next?, skip_of_start hblank hcomment]
  simp only [grow_chain hchain hrest]
  rfl

/-- A blank before a token only moves its place. -/
theorem next?_blank {c : Char} (hblank : Text.isBlank c = true) (cs : List Char) (pos : Position) :
    next? ⟨pos, c :: cs⟩ = next? ⟨pos.advance c, cs⟩ := by
  have hskip : skip ⟨pos, c :: cs⟩ = skip ⟨pos.advance c, cs⟩ := by simp [skip, skipGap, hblank]
  rw [next?, hskip]
  rfl

theorem skipGap_length_le (inComment : Bool) (pos : Position) (cs : List Char) :
    (skipGap inComment pos cs).rest.length ≤ cs.length := by
  induction cs generalizing inComment pos with
  | nil => exact Nat.le_refl _
  | cons c cs ih =>
    unfold skipGap
    split
    · exact Nat.le_succ_of_le (ih _ _)
    · split
      · exact Nat.le_succ_of_le (ih _ _)
      · split
        · exact Nat.le_succ_of_le (ih _ _)
        · exact Nat.le_refl _

/-- The text of a token is a chain, and the lexer moves on. -/
theorem chain_of_next? {l l' : Lexer} {t : Token} (h : l.next? = some (t, l')) :
    (∃ c cs, t.text = String.ofList (c :: cs) ∧ IsChain (c :: cs)) ∧ l'.rest.length < l.rest.length := by
  have hle := skipGap_length_le false l.pos l.rest
  unfold next? at h
  split at h
  · exact absurd h (by simp)
  · rename_i pos c cs heq
    rw [skip] at heq
    rw [heq] at hle
    obtain ⟨w, rest, rfl, hchain, -, hgrow⟩ := exists_grow [c] c (pos.advance c) cs
    rw [hgrow] at h
    simp only [Option.some.injEq, Prod.mk.injEq] at h
    obtain ⟨rfl, rfl⟩ := h
    refine ⟨⟨c, w, rfl, hchain⟩, ?_⟩
    simp only [List.length_cons, List.length_append] at hle ⊢
    omega

/-! ## Tokens in a row -/

/-- The lexer gives tokens one after another, and then stands at another place. -/
inductive Reads : Lexer → List Token → Lexer → Prop
  | nil (l : Lexer) : Reads l [] l
  | cons {l l₁ l' : Lexer} {t : Token} {ts : List Token} (h : l.next? = some (t, l₁)) (hs : Reads l₁ ts l') :
      Reads l (t :: ts) l'

theorem Reads.append {l l₁ l' : Lexer} {ts us : List Token} (h : Reads l ts l₁) (h' : Reads l₁ us l') :
    Reads l (ts ++ us) l' := by
  induction h with
  | nil => exact h'
  | cons hnext _ ih => exact .cons hnext (ih h')

/-- A blank may stand before the first of some tokens. -/
theorem Reads.blank {c : Char} (hblank : Text.isBlank c = true) {pos : Position} {cs : List Char} {l' : Lexer}
    {ts : List Token} (hts : ts ≠ []) (h : Reads ⟨pos.advance c, cs⟩ ts l') : Reads ⟨pos, c :: cs⟩ ts l' := by
  cases h with
  | nil => exact absurd rfl hts
  | cons hnext hs =>
    rw [← next?_blank hblank] at hnext
    exact .cons hnext hs

theorem Reads.length_le {l l' : Lexer} {ts : List Token} (h : Reads l ts l') :
    ts.length + l'.rest.length ≤ l.rest.length := by
  induction h with
  | nil => simp
  | cons hnext _ ih =>
    have := (chain_of_next? hnext).2
    simp only [List.length_cons]
    omega

theorem collect_of_reads {l l' : Lexer} {ts : List Token} (h : Reads l ts l') (hend : l'.next? = none)
    {limit : Nat} (hlimit : ts.length ≤ limit) (read : List Token) :
    collect limit read l = (read.reverse ++ ts, l'.stop) := by
  induction h generalizing limit read with
  | nil l =>
    cases limit with
    | zero => simp [collect]
    | succ limit => simp [collect, hend]
  | cons hnext _ ih =>
    cases limit with
    | zero => simp at hlimit
    | succ limit =>
      rw [collect, hnext]
      simp only [ih hend (Nat.le_of_succ_le_succ hlimit)]
      simp

/-- If nothing is left after them, these are all tokens. -/
theorem tokens_eq_of_reads {l l' : Lexer} {ts : List Token} (h : Reads l ts l') (hend : l'.next? = none) :
    l.tokens = (ts, l'.stop) := by
  -- each token takes a character, so the limit of `tokens` is not reached
  have hlength := h.length_le
  rw [tokens, collect_of_reads h hend (by omega)]
  rfl

/-- Every token was given by some step. -/
theorem exists_next?_of_mem_collect {limit : Nat} {read : List Token} {l : Lexer} {t : Token}
    (h : t ∈ (collect limit read l).1) : t ∈ read ∨ ∃ l₁ l₂ : Lexer, l₁.next? = some (t, l₂) := by
  induction limit generalizing read l with
  | zero => exact .inl (List.mem_reverse.mp h)
  | succ limit ih =>
    unfold collect at h
    split at h
    · exact .inl (List.mem_reverse.mp h)
    · rename_i token after hnext
      rcases ih h with hread | hstep
      · rcases List.mem_cons.mp hread with rfl | hread
        · exact .inr ⟨l, after, hnext⟩
        · exact .inl hread
      · exact .inr hstep

end Lexer

/-! ## Texts of tokens -/

/-- A text between braces, as the body of a module and a block are written. -/
def braced (text : String) : String := "\x7b" ++ text ++ "\x7d"

/-- What stands in the tokens of a text, in order. -/
def words (text : String) : List String := (Lexer.ofSource text).tokens.1.map (·.text)

/-- From any place on, the lexer gives tokens with the given texts, and then none. -/
def Lexes (cs : List Char) (ws : List String) : Prop :=
  ∀ pos, ∃ ts l', Lexer.Reads ⟨pos, cs⟩ ts l' ∧ l'.next? = none ∧ ts.map (·.text) = ws

theorem words_eq_of_lexes {text : String} {ws : List String} (h : Lexes text.toList ws) : words text = ws := by
  obtain ⟨ts, l', hreads, hend, rfl⟩ := h Position.start
  rw [words, Lexer.ofSource, Lexer.tokens_eq_of_reads hreads hend]

section
variable {rest : List Char} {ws : List String}

theorem lexes_nil : Lexes [] [] := by
  intro pos
  exact ⟨[], ⟨pos, []⟩, .nil _, rfl, rfl⟩

theorem Lexes.token (h : Lexes rest ws) {cs : List Char} {text : String}
    (hnext : ∀ pos, ∃ pos' pos'', Lexer.next? ⟨pos, cs⟩ = some (⟨text, pos'⟩, ⟨pos'', rest⟩)) :
    Lexes cs (text :: ws) := by
  intro pos
  obtain ⟨pos', pos'', hnext⟩ := hnext pos
  obtain ⟨ts, l', hreads, hend, rfl⟩ := h pos''
  exact ⟨⟨text, pos'⟩ :: ts, l', .cons hnext hreads, hend, rfl⟩

/-- What is left out at the front of a text has no words. -/
theorem Lexes.of_next? (h : Lexes rest ws) {cs : List Char}
    (hnext : ∀ pos, ∃ pos', Lexer.next? ⟨pos, cs⟩ = Lexer.next? ⟨pos', rest⟩) : Lexes cs ws := by
  intro pos
  obtain ⟨pos', hnext⟩ := hnext pos
  obtain ⟨ts, l', hreads, hend, rfl⟩ := h pos'
  cases hreads with
  | nil =>
    rw [← hnext] at hend
    exact ⟨[], ⟨pos, cs⟩, .nil _, hend, rfl⟩
  | cons hfirst hs =>
    rw [← hnext] at hfirst
    exact ⟨_, _, .cons hfirst hs, hend, rfl⟩

theorem Lexes.blank (h : Lexes rest ws) {c : Char} (hblank : Text.isBlank c = true) : Lexes (c :: rest) ws :=
  h.of_next? fun pos => ⟨pos.advance c, Lexer.next?_blank hblank rest pos⟩

end

end Gateware

import Gateware.Proofs.Token.Split

/- Tokens can be put together again with any space between them.

   A separator begins with a blank, which continues no token and opens no comment, so a token ends
   before it; the rest of the separator is left out as a gap. This file

   1. defines separators, which carry the proof that they are gaps (`Separator`), and texts with
      separators between them (`join`);
   2. proves that a token ends before a separator (`endsToken_separator`), and that such a text has
      the texts it was made of as its words (`lexes_join`);
   3. concludes that the tokens of any text are read as the same tokens whatever stands between
      them (`tokens_of_respaced`). -/
namespace Gateware

/-- A blank, and then blanks and complete comments. -/
structure Separator where
  first : Char
  others : List Char
  isBlank_first : Text.isBlank first = true
  isGap_others : IsGap others

namespace Separator

def chars (s : Separator) : List Char := s.first :: s.others

theorem isGap_chars (s : Separator) : IsGap s.chars := .blank s.isBlank_first s.isGap_others

/-- The characters of a separator, or none. -/
def charsOf : Option Separator → List Char
  | none => []
  | some s => s.chars

end Separator

/-- Texts in a row; `sep i` stands between the texts with the numbers `i` and `i + 1`. -/
def join (sep : Nat → Separator) : List String → List Char
  | [] => []
  | [w] => w.toList
  | w :: w' :: ws => w.toList ++ (sep 0).chars ++ join (fun i => sep (i + 1)) (w' :: ws)

/-- A token ends before a separator. -/
theorem endsToken_separator (w : List Char) (s : Separator) (rest : List Char) : EndsToken w (s.chars ++ rest) :=
  endsToken_blank w s.isBlank_first (s.others ++ rest)

/-! ## Pieces before a text -/

section
variable {rest : List Char} {ws : List String}

theorem Lexes.gap (h : Lexes rest ws) {gap : List Char} (hgap : IsGap gap) : Lexes (gap ++ rest) ws := by
  apply h.of_next?
  intro pos
  refine ⟨gap.foldl Position.advance pos, ?_⟩
  unfold Lexer.next?
  rw [Lexer.skip_append hgap]

theorem Lexes.tokenText (h : Lexes rest ws) {w : List Char} (hw : IsTokenText w) (hends : EndsToken w rest) :
    Lexes (w ++ rest) (String.ofList w :: ws) :=
  h.token fun pos => ⟨_, _, Lexer.next?_tokenText hw hends pos⟩

end

/-- Texts of tokens with separators between them have these texts as their words. -/
theorem lexes_join {ws : List String} (hws : ∀ w ∈ ws, IsTokenText w.toList) (sep : Nat → Separator)
    (trail : Option Separator) : Lexes (join sep ws ++ Separator.charsOf trail) ws := by
  have htrail : Lexes (Separator.charsOf trail) [] := by
    cases trail with
    | none => exact lexes_nil
    | some s => simpa [Separator.charsOf] using lexes_nil.gap s.isGap_chars
  induction ws generalizing sep with
  | nil => exact htrail
  | cons w ws ih =>
    obtain ⟨hw, hothers⟩ := List.forall_mem_cons.mp hws
    have hends : EndsToken w.toList (Separator.charsOf trail) := by
      cases trail with
      | none => exact endsToken_nil _
      | some s => simpa [Separator.charsOf] using endsToken_separator w.toList s []
    cases ws with
    | nil => simpa [join] using htrail.tokenText hw hends
    | cons w' ws =>
      have hrest := (ih hothers fun i => sep (i + 1)).gap (sep 0).isGap_chars
      simpa [join] using hrest.tokenText hw (endsToken_separator _ _ _)

/-- The texts that the lexer gives to tokens. -/
theorem isTokenText_of_mem_tokens {l : Lexer} {t : Token} (h : t ∈ l.tokens.1) : IsTokenText t.text.toList := by
  rcases Lexer.exists_next?_of_mem_collect h with hread | ⟨l₁, l₂, hnext⟩
  · exact absurd hread List.not_mem_nil
  · obtain ⟨gap, w, -, -, hw, -, rfl, -⟩ := Lexer.exists_of_next? hnext
    simpa using hw

/-- Whatever stands between the tokens of a text, before them and after them, they are read as
the same tokens: blanks and complete comments before the first one, separators between
them, and a separator or nothing after the last one. -/
theorem tokens_of_respaced (source : String) (lead : { gap : List Char // IsGap gap }) (sep : Nat → Separator)
    (trail : Option Separator) :
    let respaced := lead.1 ++ join sep ((Lexer.ofSource source).tokens.1.map (·.text)) ++ Separator.charsOf trail
    (Lexer.ofSource (String.ofList respaced)).tokens.1.map (fun t => (t.kind, t.text)) =
      (Lexer.ofSource source).tokens.1.map fun t => (t.kind, t.text) := by
  intro respaced
  have hall : ∀ w ∈ words source, IsTokenText w.toList := by
    intro w hw
    obtain ⟨t, ht, rfl⟩ := List.mem_map.mp hw
    exact isTokenText_of_mem_tokens ht
  have hlexes : Lexes respaced (words source) := by
    have hjoined := (lexes_join hall sep trail).gap lead.2
    rwa [← List.append_assoc] at hjoined
  have hwords : words (String.ofList respaced) = words source :=
    words_eq_of_lexes (by rwa [String.toList_ofList])
  -- the kind of a token is a function of its text
  have hpairs (text : String) : (Lexer.ofSource text).tokens.1.map (fun t => (t.kind, t.text)) =
      (words text).map fun w => (Token.Kind.ofText w, w) := by
    rw [words, List.map_map]
    rfl
  rw [hpairs, hpairs, hwords]

end Gateware

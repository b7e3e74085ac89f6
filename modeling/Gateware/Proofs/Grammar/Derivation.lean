import Gateware.Proofs.Grammar.Language
import Gateware.Proofs.Token.Lexing

/- A source text has at most one derivation.

   Trees are compared on the tokens that they begin: if two trees of one kind begin the same
   tokens, and what follows each of them could not have been read on, then they are equal and the
   same tokens follow. This file

   1. says that tokens do not begin with a kind (`Misses`), which is what must not follow an
      optional part that is left out;
   2. proves the comparison for each kind of tree (`ClockTree.eq_of_tokens_append` to
      `ModuleTree.eq_of_tokens_append`); for statements what must not follow is an `else` that
      either of them could still take (`StmtTree.eq_of_tokens_append`);
   3. concludes that no source text has two derivations (`SourceTree.IsDerivationOf.unique`), and
      with the reader of source texts that the parser follows the grammar: it gives what the only
      derivation stands for, and fails exactly where there is none within the limits
      (`parse_eq_derivation`). -/
namespace Gateware.Grammar

/-- The tokens do not begin with the given kind. -/
def Misses (kind : Token.Kind) (r : List Token) : Prop := ∀ t, r.head? = some t → t.kind ≠ kind

theorem misses_cons {kind : Token.Kind} {t : Token} {r : List Token} (h : t.kind ≠ kind) :
    Misses kind (t :: r) := by
  intro t' ht'
  rw [← Option.some.inj ht']
  exact h

namespace Word
variable {kind kind' : Token.Kind} {r r' : List Token}

theorem eq_of_cons_eq {w w' : Word kind} (h : w.token :: r = w'.token :: r') : w = w' ∧ r = r' := by
  obtain ⟨htoken, hr⟩ := List.cons.inj h
  exact ⟨Word.ext htoken, hr⟩

theorem cons_ne (hkind : kind ≠ kind') (w : Word kind) (w' : Word kind') :
    ¬w.token :: r = w'.token :: r' := by
  intro h
  have htoken := (List.cons.inj h).1
  apply hkind
  rw [← w.kind_eq, htoken, w'.kind_eq]

end Word

variable {r r' : List Token}

theorem ClockTree.eq_of_tokens_append {x y : ClockTree} (h : x.tokens ++ r = y.tokens ++ r') :
    x = y ∧ r = r' := by
  obtain ⟨mark, bang, name⟩ := x
  obtain ⟨mark', bang', name'⟩ := y
  obtain ⟨rfl, h₁⟩ := Word.eq_of_cons_eq h
  cases bang with
  | none =>
    cases bang' with
    | none =>
      obtain ⟨rfl, hr⟩ := Word.eq_of_cons_eq h₁
      exact ⟨rfl, hr⟩
    | some bang' => exact absurd h₁ (Word.cons_ne (by decide) name bang')
  | some bang =>
    cases bang' with
    | none => exact absurd h₁ (Word.cons_ne (by decide) bang name')
    | some bang' =>
      obtain ⟨rfl, h₂⟩ := Word.eq_of_cons_eq h₁
      obtain ⟨rfl, hr⟩ := Word.eq_of_cons_eq h₂
      exact ⟨rfl, hr⟩

theorem WidthTree.eq_of_tokens_append {x y : WidthTree} (h : x.tokens ++ r = y.tokens ++ r') :
    x = y ∧ r = r' := by
  obtain ⟨opening, literal, closing⟩ := x
  obtain ⟨opening', literal', closing'⟩ := y
  obtain ⟨rfl, h₁⟩ := Word.eq_of_cons_eq h
  obtain ⟨rfl, h₂⟩ := Word.eq_of_cons_eq h₁
  obtain ⟨rfl, hr⟩ := Word.eq_of_cons_eq h₂
  exact ⟨rfl, hr⟩

/-- The clock is the last part of a signal, so what follows must not begin with `@` if
it is left out. -/
theorem TailTree.eq_of_tokens_append {x y : TailTree} (hx : x.clock = none → Misses .atMark r)
    (hy : y.clock = none → Misses .atMark r') (h : x.tokens ++ r = y.tokens ++ r') : x = y ∧ r = r' := by
  obtain ⟨width, name, clock⟩ := x
  obtain ⟨width', name', clock'⟩ := y
  have hwidth : width = width' ∧
      name.token :: ((clock.map ClockTree.tokens).getD [] ++ r) =
        name'.token :: ((clock'.map ClockTree.tokens).getD [] ++ r') := by
    simp only [tokens, List.append_assoc, List.cons_append] at h
    cases width with
    | none =>
      cases width' with
      | none => exact ⟨rfl, h⟩
      | some width' => exact absurd h (Word.cons_ne (by decide) name width'.opening)
    | some width =>
      cases width' with
      | none => exact absurd h (Word.cons_ne (by decide) width.opening name')
      | some width' =>
        obtain ⟨rfl, h₁⟩ := WidthTree.eq_of_tokens_append h
        exact ⟨rfl, h₁⟩
  obtain ⟨rfl, hname⟩ := hwidth
  obtain ⟨rfl, hclock⟩ := Word.eq_of_cons_eq hname
  cases clock with
  | none =>
    cases clock' with
    | none => exact ⟨rfl, hclock⟩
    | some clock' =>
      exfalso
      exact hx rfl clock'.mark.token (by rw [show r = _ from hclock]; rfl) clock'.mark.kind_eq
  | some clock =>
    cases clock' with
    | none =>
      exfalso
      exact hy rfl clock.mark.token (by rw [show r' = _ from hclock.symm]; rfl) clock.mark.kind_eq
    | some clock' =>
      obtain ⟨rfl, hr⟩ := ClockTree.eq_of_tokens_append hclock
      exact ⟨rfl, hr⟩

/-- A signal begins with its storage, and without one with a bracket or a name. -/
theorem TailTree.storage_cons_ne (x : TailTree) (w : Word .storage) : ¬w.token :: r = x.tokens ++ r' := by
  obtain ⟨width, name, clock⟩ := x
  cases width with
  | none => exact Word.cons_ne (by decide) w name
  | some width => exact Word.cons_ne (by decide) w width.opening

theorem PortTree.eq_of_tokens_append {x y : PortTree} (hx : Misses .atMark r) (hy : Misses .atMark r')
    (h : x.tokens ++ r = y.tokens ++ r') : x = y ∧ r = r' := by
  obtain ⟨direction, storage, tail⟩ := x
  obtain ⟨direction', storage', tail'⟩ := y
  obtain ⟨rfl, h₁⟩ := Word.eq_of_cons_eq h
  cases storage with
  | none =>
    cases storage' with
    | none =>
      obtain ⟨rfl, hr⟩ := TailTree.eq_of_tokens_append (fun _ => hx) (fun _ => hy) h₁
      exact ⟨rfl, hr⟩
    | some w => exact absurd h₁.symm (tail.storage_cons_ne w)
  | some w =>
    cases storage' with
    | none => exact absurd h₁ (tail'.storage_cons_ne w)
    | some w' =>
      obtain ⟨rfl, h₂⟩ := Word.eq_of_cons_eq h₁
      obtain ⟨rfl, hr⟩ := TailTree.eq_of_tokens_append (fun _ => hx) (fun _ => hy) h₂
      exact ⟨rfl, hr⟩

/-! ## Statements -/

namespace StmtTree

theorem first_eq_of_tokens_append {x y : StmtTree} (h : x.tokens ++ r = y.tokens ++ r') :
    x.first = y.first := by
  obtain ⟨t, ts, hx, hkind⟩ := x.head_tokens
  obtain ⟨t', ts', hy, hkind'⟩ := y.head_tokens
  rw [hx, hy] at h
  rw [← hkind, (List.cons.inj h).1, hkind']

/-- A closing brace does not begin a statement. -/
theorem closing_ne_tokens (closing : Word .rightBrace) (x : StmtTree) :
    ¬closing.token :: r = x.tokens ++ r' := by
  intro h
  obtain ⟨t, ts, hx, ht⟩ := x.tokens_eq_cons
  rw [hx] at h
  rw [← (List.cons.inj h).1, closing.kind_eq] at ht
  exact absurd ht (by decide)

/-- No `else` stands before statements and the brace that closes them. -/
theorem misses_tokensAll (xs : List StmtTree) (closing : Word .rightBrace) (r : List Token) :
    Misses .elseWord (tokensAll xs ++ closing.token :: r) := by
  cases xs with
  | nil => exact misses_cons (by rw [closing.kind_eq]; decide)
  | cons x xs =>
    obtain ⟨t, ts, hx, ht⟩ := x.tokens_eq_cons
    have hall : ∀ k ∈ starts, k ≠ .elseWord := by decide
    rw [tokensAll, hx]
    exact misses_cons (hall _ ht)

/-- An `if` with its condition and its body, read up to what follows the body. What is
known of the bodies is given, as the body of one `if` may be read on with an `else`. -/
theorem if_eq_of_tokens_append {word word' : Word .ifWord} {cond cond' : Term} {body body' : StmtTree}
    (hcond : cond.Proper) (hcond' : cond'.Proper)
    (hbody : body.tokens ++ r = body'.tokens ++ r' → body = body' ∧ r = r')
    (h : word.token :: (cond.tokens ++ (body.tokens ++ r)) =
      word'.token :: (cond'.tokens ++ (body'.tokens ++ r'))) :
    word = word' ∧ cond = cond' ∧ body = body' ∧ r = r' := by
  obtain ⟨rfl, h₁⟩ := Word.eq_of_cons_eq h
  obtain ⟨rfl, h₂⟩ := Term.eq_of_tokens_append hcond hcond' (body.endsBefore r) (body'.endsBefore r') h₁
  obtain ⟨rfl, hr⟩ := hbody h₂
  exact ⟨rfl, rfl, rfl, hr⟩

mutual

/-- Statements that begin the same tokens are equal, if no `else` follows that either
of them could still take. -/
theorem eq_of_tokens_append : ∀ (x y : StmtTree) {r r' : List Token}, x.Everywhere Grouped →
    y.Everywhere Grouped → (x.Open → Misses .elseWord r) → (y.Open → Misses .elseWord r') →
    x.tokens ++ r = y.tokens ++ r' → x = y ∧ r = r'
  | .assign target symbol value semicolon, y, r, r', hx, hy, _, _, h => by
    cases y with
    | assign target' symbol' value' semicolon' =>
      simp only [tokens, List.cons_append, List.append_assoc] at h
      obtain ⟨rfl, h₁⟩ := Word.eq_of_cons_eq h
      obtain ⟨rfl, h₂⟩ := Word.eq_of_cons_eq h₁
      obtain ⟨rfl, h₃⟩ := Term.eq_of_tokens_append hx hy ⟨semicolon.token, rfl, by rw [semicolon.kind_eq]; rfl⟩
        ⟨semicolon'.token, rfl, by rw [semicolon'.kind_eq]; rfl⟩ h₂
      obtain ⟨rfl, hr⟩ := Word.eq_of_cons_eq h₃
      exact ⟨rfl, hr⟩
    | _ => exact absurd (first_eq_of_tokens_append h) (by simp [first])
  | .conditional word cond body, y, r, r', hx, hy, hopen, hopen', h => by
    obtain ⟨hcond, hbody⟩ := hx
    cases y with
    | conditional word' cond' body' =>
      obtain ⟨hcond', hbody'⟩ := hy
      simp only [tokens, List.cons_append, List.append_assoc] at h
      obtain ⟨rfl, rfl, rfl, hr⟩ := if_eq_of_tokens_append hcond hcond' (eq_of_tokens_append body body' hbody
        hbody' (fun _ => hopen trivial) (fun _ => hopen' trivial)) h
      exact ⟨rfl, hr⟩
    | choice word' cond' body' other' alternative' =>
      -- the bodies agree, so the `else` of the second statement follows the first
      exfalso
      obtain ⟨⟨hcond', hclosed', -⟩, hbody', -⟩ := hy
      simp only [tokens, List.cons_append, List.append_assoc] at h
      obtain ⟨-, -, -, rfl⟩ := if_eq_of_tokens_append hcond hcond' (eq_of_tokens_append body body' hbody
        hbody' (fun _ => hopen trivial) (fun hbody => absurd hbody hclosed')) h
      exact hopen trivial other'.token rfl other'.kind_eq
    | _ => exact absurd (first_eq_of_tokens_append h) (by simp [first])
  | .choice word cond body other alternative, y, r, r', hx, hy, hopen, hopen', h => by
    obtain ⟨⟨hcond, hclosed, -⟩, hbody, halternative⟩ := hx
    cases y with
    | conditional word' cond' body' =>
      -- as above, with the two statements exchanged
      exfalso
      obtain ⟨hcond', hbody'⟩ := hy
      simp only [tokens, List.cons_append, List.append_assoc] at h
      obtain ⟨-, -, -, rfl⟩ := if_eq_of_tokens_append hcond hcond' (eq_of_tokens_append body body' hbody
        hbody' (fun hbody => absurd hbody hclosed) (fun _ => hopen' trivial)) h
      exact hopen' trivial other.token rfl other.kind_eq
    | choice word' cond' body' other' alternative' =>
      obtain ⟨⟨hcond', hclosed', -⟩, hbody', halternative'⟩ := hy
      simp only [tokens, List.cons_append, List.append_assoc] at h
      obtain ⟨rfl, rfl, rfl, h₁⟩ := if_eq_of_tokens_append hcond hcond' (eq_of_tokens_append body body' hbody
        hbody' (fun hbody => absurd hbody hclosed) (fun hbody => absurd hbody hclosed')) h
      obtain ⟨rfl, h₂⟩ := Word.eq_of_cons_eq h₁
      obtain ⟨rfl, hr⟩ := eq_of_tokens_append alternative alternative' halternative halternative' hopen
        hopen' h₂
      exact ⟨rfl, hr⟩
    | _ => exact absurd (first_eq_of_tokens_append h) (by simp [first])
  | .block opening stmts closing, y, r, r', hx, hy, _, _, h => by
    cases y with
    | block opening' stmts' closing' =>
      simp only [tokens, List.cons_append, List.append_assoc] at h
      obtain ⟨rfl, h₁⟩ := Word.eq_of_cons_eq h
      obtain ⟨rfl, rfl, hr⟩ := eq_of_tokensAll_append stmts stmts' hx.2 hy.2 h₁
      exact ⟨rfl, hr⟩
    | _ => exact absurd (first_eq_of_tokens_append h) (by simp [first])
  | .decl storage tail semicolon, y, r, r', _, _, _, _, h => by
    cases y with
    | decl storage' tail' semicolon' =>
      simp only [tokens, List.cons_append, List.append_assoc] at h
      obtain ⟨rfl, h₁⟩ := Word.eq_of_cons_eq h
      obtain ⟨rfl, h₂⟩ := TailTree.eq_of_tokens_append
        (fun _ => misses_cons (by rw [semicolon.kind_eq]; decide))
        (fun _ => misses_cons (by rw [semicolon'.kind_eq]; decide)) h₁
      obtain ⟨rfl, hr⟩ := Word.eq_of_cons_eq h₂
      exact ⟨rfl, hr⟩
    | _ => exact absurd (first_eq_of_tokens_append h) (by simp [first])
  | .sequence clock inner, y, r, r', hx, hy, hopen, hopen', h => by
    cases y with
    | sequence clock' inner' =>
      simp only [tokens, List.append_assoc] at h
      obtain ⟨rfl, h₁⟩ := ClockTree.eq_of_tokens_append h
      obtain ⟨rfl, hr⟩ := eq_of_tokens_append inner inner' hx.2 hy.2 hopen hopen' h₁
      exact ⟨rfl, hr⟩
    | _ => exact absurd (first_eq_of_tokens_append h) (by simp [first])

/-- The same of statements up to the brace that closes them. -/
theorem eq_of_tokensAll_append : ∀ (xs ys : List StmtTree) {closing closing' : Word .rightBrace}
    {r r' : List Token}, EverywhereAll Grouped xs → EverywhereAll Grouped ys →
    tokensAll xs ++ closing.token :: r = tokensAll ys ++ closing'.token :: r' →
    xs = ys ∧ closing = closing' ∧ r = r'
  | [], [], _, _, _, _, _, _, h => by
    obtain ⟨rfl, hr⟩ := Word.eq_of_cons_eq h
    exact ⟨rfl, rfl, hr⟩
  | [], y :: ys, closing, _, _, _, _, _, h => by
    simp only [tokensAll, List.nil_append, List.append_assoc] at h
    exact absurd h (closing_ne_tokens closing y)
  | x :: xs, [], _, closing', _, _, _, _, h => by
    simp only [tokensAll, List.nil_append, List.append_assoc] at h
    exact absurd h.symm (closing_ne_tokens closing' x)
  | x :: xs, y :: ys, closing, closing', r, r', hxs, hys, h => by
    simp only [tokensAll, List.append_assoc] at h
    obtain ⟨rfl, h₁⟩ := eq_of_tokens_append x y hxs.1 hys.1 (fun _ => misses_tokensAll xs closing r)
      (fun _ => misses_tokensAll ys closing' r') h
    obtain ⟨rfl, hclosing, hr⟩ := eq_of_tokensAll_append xs ys hxs.2 hys.2 h₁
    exact ⟨rfl, hclosing, hr⟩

end

end StmtTree

/-! ## Modules and files -/

/-- After a port stands a comma or the parenthesis that closes the list. -/
theorem PortsTree.misses_others (others : List (Word .comma × PortTree)) (closing : Word .rightParen)
    (r : List Token) :
    Misses .atMark ((others.flatMap fun x => x.1.token :: x.2.tokens) ++ closing.token :: r) := by
  cases others with
  | nil => exact misses_cons (by rw [closing.kind_eq]; decide)
  | cons x others => exact misses_cons (by rw [x.1.kind_eq]; decide)

theorem PortsTree.eq_of_others_append {xs ys : List (Word .comma × PortTree)}
    {closing closing' : Word .rightParen}
    (h : (xs.flatMap fun x => x.1.token :: x.2.tokens) ++ closing.token :: r =
      (ys.flatMap fun x => x.1.token :: x.2.tokens) ++ closing'.token :: r') :
    xs = ys ∧ closing = closing' ∧ r = r' := by
  induction xs generalizing ys with
  | nil =>
    cases ys with
    | nil =>
      obtain ⟨rfl, hr⟩ := Word.eq_of_cons_eq h
      exact ⟨rfl, rfl, hr⟩
    | cons y ys => exact absurd h (Word.cons_ne (by decide) closing y.1)
  | cons x xs ih =>
    cases ys with
    | nil => exact absurd h (Word.cons_ne (by decide) x.1 closing')
    | cons y ys =>
      obtain ⟨comma, x⟩ := x
      obtain ⟨comma', y⟩ := y
      simp only [List.flatMap_cons, List.cons_append, List.append_assoc] at h
      obtain ⟨rfl, h₁⟩ := Word.eq_of_cons_eq h
      obtain ⟨rfl, h₂⟩ := PortTree.eq_of_tokens_append (misses_others xs closing r)
        (misses_others ys closing' r') h₁
      obtain ⟨rfl, hclosing, hr⟩ := ih h₂
      exact ⟨rfl, hclosing, hr⟩

theorem PortsTree.eq_of_tokens_append {x y : PortsTree} (h : x.tokens ++ r = y.tokens ++ r') :
    x = y ∧ r = r' := by
  obtain ⟨opening, ports, closing⟩ := x
  obtain ⟨opening', ports', closing'⟩ := y
  simp only [tokens, List.cons_append, List.append_assoc] at h
  obtain ⟨rfl, h₁⟩ := Word.eq_of_cons_eq h
  cases ports with
  | none =>
    cases ports' with
    | none =>
      obtain ⟨rfl, hr⟩ := Word.eq_of_cons_eq h₁
      exact ⟨rfl, hr⟩
    | some ports' => exact absurd h₁ (Word.cons_ne (by decide) closing ports'.1.direction)
  | some ports =>
    cases ports' with
    | none => exact absurd h₁ (Word.cons_ne (by decide) ports.1.direction closing')
    | some ports' =>
      obtain ⟨first, others⟩ := ports
      obtain ⟨first', others'⟩ := ports'
      simp only [Option.map_some, Option.getD_some, separated, List.append_assoc] at h₁
      obtain ⟨rfl, h₂⟩ := PortTree.eq_of_tokens_append (misses_others others closing r)
        (misses_others others' closing' r') h₁
      obtain ⟨rfl, rfl, hr⟩ := eq_of_others_append h₂
      exact ⟨rfl, hr⟩

theorem ModuleTree.eq_of_tokens_append {x y : ModuleTree} (hx : x.Grouped) (hy : y.Grouped)
    (h : x.tokens ++ r = y.tokens ++ r') : x = y ∧ r = r' := by
  obtain ⟨name, ports, opening, stmts, closing⟩ := x
  obtain ⟨name', ports', opening', stmts', closing'⟩ := y
  simp only [tokens, StmtTree.tokens, List.cons_append, List.append_assoc] at h
  obtain ⟨rfl, h₁⟩ := Word.eq_of_cons_eq h
  obtain ⟨rfl, h₂⟩ := PortsTree.eq_of_tokens_append h₁
  obtain ⟨rfl, h₃⟩ := Word.eq_of_cons_eq h₂
  obtain ⟨rfl, rfl, hr⟩ := StmtTree.eq_of_tokensAll_append stmts stmts'
    (StmtTree.everywhereAll_iff.mpr hx) (StmtTree.everywhereAll_iff.mpr hy) h₃
  exact ⟨rfl, hr⟩

theorem ModuleTree.eq_of_tokens_eq {xs ys : List ModuleTree} (hxs : ∀ x ∈ xs, x.Grouped)
    (hys : ∀ y ∈ ys, y.Grouped) (h : xs.flatMap tokens = ys.flatMap tokens) : xs = ys := by
  induction xs generalizing ys with
  | nil =>
    cases ys with
    | nil => rfl
    | cons y ys => exact absurd h (List.cons_ne_nil _ _).symm
  | cons x xs ih =>
    cases ys with
    | nil => exact absurd h (List.cons_ne_nil _ _)
    | cons y ys =>
      rw [List.flatMap_cons, List.flatMap_cons] at h
      obtain ⟨hfirst, h₁⟩ := eq_of_tokens_append (hxs x (by simp)) (hys y (by simp)) h
      have hrest := ih (fun z hz => hxs z (by simp [hz])) (fun z hz => hys z (by simp [hz])) h₁
      rw [hfirst, hrest]

/-- No source text has two derivations. -/
theorem SourceTree.IsDerivationOf.unique {f g : SourceTree} {ts : List Token} (hf : f.IsDerivationOf ts)
    (hg : g.IsDerivationOf ts) : f = g := by
  have htokens : f.tokens = g.tokens := hf.tokens_eq.trans hg.tokens_eq.symm
  exact SourceTree.ext (ModuleTree.eq_of_tokens_eq hf.grouped hg.grouped htokens)

end Gateware.Grammar

namespace Gateware
open Grammar

/-- Reading a source text follows the grammar. Every text that the rules generate has
exactly one derivation in which each `else` belongs to the nearest `if`; reading
succeeds exactly if the tokens of the text are generated and that derivation is within
the limits, and gives what the derivation stands for. -/
theorem parse_eq_derivation (source : String) :
    (∀ ts, IsFile ts → ∃ f : SourceTree, f.IsDerivationOf ts ∧
      ∀ g : SourceTree, g.IsDerivationOf ts → g = f) ∧
    ∀ ms, parse source = .ok ms ↔ IsFile (Lexer.ofSource source).tokens.1 ∧
      ∃ f : SourceTree, f.IsDerivationOf (Lexer.ofSource source).tokens.1 ∧ f.Bounded ∧ ms = f.value := by
  constructor
  · intro ts hts
    obtain ⟨f, hf⟩ := isFile_iff.mp hts
    exact ⟨f, hf, fun g hg => hg.unique hf⟩
  · intro ms
    rw [parse_eq_ok_iff]
    constructor
    · rintro ⟨f, hf, hbounded, hvalue⟩
      exact ⟨isFile_iff.mpr ⟨f, hf⟩, f, hf, hbounded, hvalue⟩
    · rintro ⟨-, f, hf, hbounded, hvalue⟩
      exact ⟨f, hf, hbounded, hvalue⟩

/-- A module in which one `else` follows two conditions. -/
def nestedIf : SourceTree where
  modules := [{
    name := ⟨⟨"m", ⟨1, 1⟩⟩, by decide⟩
    ports := ⟨⟨⟨"(", ⟨1, 2⟩⟩, by decide⟩, none, ⟨⟨")", ⟨1, 3⟩⟩, by decide⟩⟩
    opening := ⟨⟨"\x7b", ⟨1, 4⟩⟩, by decide⟩
    stmts := [
      .conditional ⟨⟨"if", ⟨1, 5⟩⟩, by decide⟩ (.name ⟨⟨"a", ⟨1, 8⟩⟩, by decide⟩)
        (.choice ⟨⟨"if", ⟨1, 10⟩⟩, by decide⟩ (.name ⟨⟨"b", ⟨1, 13⟩⟩, by decide⟩)
          (.assign ⟨⟨"c", ⟨1, 15⟩⟩, by decide⟩ ⟨⟨"=", ⟨1, 16⟩⟩, by decide⟩
            (.number ⟨⟨"1", ⟨1, 17⟩⟩, by decide⟩) ⟨⟨";", ⟨1, 18⟩⟩, by decide⟩)
          ⟨⟨"else", ⟨1, 20⟩⟩, by decide⟩
          (.block ⟨⟨"\x7b", ⟨1, 25⟩⟩, by decide⟩ [] ⟨⟨"\x7d", ⟨1, 26⟩⟩, by decide⟩))]
    closing := ⟨⟨"\x7d", ⟨1, 27⟩⟩, by decide⟩ }]

/-- The alternative is read into the second condition. -/
theorem parse_nestedIf : parse ("m()" ++ braced ("if a if b c=1; else " ++ braced "")) = .ok nestedIf.value := by
  have hgrouped : ∀ x ∈ nestedIf.modules, x.Grouped := by
    simp [nestedIf, ModuleTree.Grouped, StmtTree.Everywhere, StmtTree.EverywhereAll, StmtTree.Grouped,
      StmtTree.Open, StmtTree.FollowsElse, Term.Proper]
  have hf : nestedIf.IsDerivationOf
      (Lexer.ofSource ("m()" ++ braced ("if a if b c=1; else " ++ braced ""))).tokens.1 :=
    ⟨hgrouped, by decide +kernel⟩
  have hbounded : nestedIf.Bounded := by
    simp [SourceTree.Bounded, nestedIf, ModuleTree.Bounded, PortsTree.toList, StmtTree.Everywhere,
      StmtTree.EverywhereAll, StmtTree.Bounded, StmtTree.depth, StmtTree.depthAll, Term.height]
  exact ((parse_eq_derivation _).2 _).mpr ⟨isFile_iff.mpr ⟨_, hf⟩, _, hf, hbounded, rfl⟩

end Gateware

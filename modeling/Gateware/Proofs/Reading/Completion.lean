import Gateware.Proofs.Reading.Acceptance
import Gateware.Proofs.Token.Spacing

/- Texts that break off can be completed.

   A reader refuses a token and says which kinds it expected. This file

   1. gives a token for each kind (`sample`), with which a text goes on where it has to;
   2. defines what is expected of languages: that they have a text of samples (`HasSample`), and
      that each of some kinds begins one of their texts (`Offers`);
   3. says of a reader that it leads to a language (`Leads`): what it takes is in the language, and
      when it refuses a token, the tokens before that one together with a token of any of the
      expected kinds begin a text of the language;
   4. proves that two readers in a row lead to the one language after the other (`Leads.bind`),
      which needs some text that the second one could go on with, and from it the same of each
      construct (`leads_expression` to `leads_module`);
   5. concludes that a token is refused as early as possible, and that the expected kinds are right
      (`parse_refuses_earliest`).

   Whether tokens are those of a text (`Writable`) plays a part only in the last step: a kind that
   is expected has to be written somewhere. -/
namespace Gateware
open Grammar

/-! ## Samples -/

namespace Token.Kind

/-- A token of each kind. -/
def sample : Token.Kind → Token
  | .endOfStatement => ⟨";", .start⟩
  | .identifier => ⟨"a", .start⟩
  | .literal => ⟨"0", .start⟩
  | .direction => ⟨"in", .start⟩
  | .storage => ⟨"wire", .start⟩
  | .ifWord => ⟨"if", .start⟩
  | .elseWord => ⟨"else", .start⟩
  | .switchWord => ⟨"switch", .start⟩
  | .defaultWord => ⟨"default", .start⟩
  | .leftParen => ⟨"(", .start⟩
  | .rightParen => ⟨")", .start⟩
  | .leftBrace => ⟨"\x7b", .start⟩
  | .rightBrace => ⟨"\x7d", .start⟩
  | .leftBracket => ⟨"[", .start⟩
  | .rightBracket => ⟨"]", .start⟩
  | .atMark => ⟨"@", .start⟩
  | .bang => ⟨"!", .start⟩
  | .comma => ⟨",", .start⟩
  | .colon => ⟨":", .start⟩
  | .arithmetic => ⟨"+", .start⟩
  | .assign => ⟨"=", .start⟩
  | .comparison => ⟨"==", .start⟩
  | .unknown => ⟨"?", .start⟩

theorem kind_sample (k : Token.Kind) : k.sample.kind = k := by
  cases k <;> rfl

theorem isTokenText_sample (k : Token.Kind) : IsTokenText k.sample.text.toList := by
  cases k <;> refine ⟨by decide, by simp [sample]; decide, by decide⟩

def word (k : Token.Kind) : Word k := ⟨k.sample, k.kind_sample⟩

end Token.Kind

def samples (ks : List Token.Kind) : List Token := ks.map Token.Kind.sample

theorem samples_append (ks ks' : List Token.Kind) : samples (ks ++ ks') = samples ks ++ samples ks' :=
  List.map_append

/-! ## Languages -/

/-- The token lists of trees. -/
def DerivedBy {τ : Type} (tokens : τ → List Token) (w : List Token) : Prop := ∃ x, w = tokens x

def Single (kind : Token.Kind) : List Token → Prop := DerivedBy fun w : Word kind => [w.token]

/-- Tokens of one language after those of another. -/
def Then (L M : List Token → Prop) (w : List Token) : Prop := ∃ u v, L u ∧ M v ∧ w = u ++ v

/-- There is a text of samples in a language. -/
def HasSample (L : List Token → Prop) : Prop := ∃ ks, L (samples ks)

/-- Each of the expected kinds begins a text of a language. -/
def Offers (L : List Token → Prop) (expected : List Token.Kind) : Prop :=
  expected ≠ [] ∧ ∀ k ∈ expected, ∃ ks, L (samples (k :: ks))

section
variable {L M : List Token → Prop} {expected : List Token.Kind}

theorem HasSample.followed (hL : HasSample L) (hM : HasSample M) : HasSample (Then L M) := by
  obtain ⟨ks, hks⟩ := hL
  obtain ⟨ks', hks'⟩ := hM
  exact ⟨ks ++ ks', _, _, hks, hks', samples_append ks ks'⟩

theorem offers_singleton {k : Token.Kind} (h : ∃ ks, L (samples (k :: ks))) : Offers L [k] := by
  refine ⟨List.cons_ne_nil _ _, ?_⟩
  intro k' hk'
  rwa [List.mem_singleton.mp hk']

theorem Offers.cons {k : Token.Kind} (h : ∃ ks, L (samples (k :: ks))) (hs : Offers L expected) :
    Offers L (k :: expected) :=
  ⟨List.cons_ne_nil _ _, List.forall_mem_cons.mpr ⟨h, hs.2⟩⟩

theorem Offers.mono (h : Offers L expected) (hL : ∀ w, L w → M w) : Offers M expected := by
  refine ⟨h.1, ?_⟩
  intro k hk
  obtain ⟨ks, hks⟩ := h.2 k hk
  exact ⟨ks, hL _ hks⟩

theorem hasSample_kind (kind : Token.Kind) : HasSample (Single kind) :=
  ⟨[kind], kind.word, rfl⟩

theorem hasSample_isExpression : HasSample IsExpression :=
  ⟨[.identifier], .operand (.name Token.Kind.identifier.word)⟩

theorem hasSample_isStmt : HasSample IsStmt := by
  have hvalue : IsExpression [Token.Kind.identifier.word.token] := .operand (.name _)
  exact ⟨[.identifier, .assign, .identifier, .endOfStatement],
    .assign Token.Kind.identifier.word Token.Kind.assign.word hvalue Token.Kind.endOfStatement.word⟩

theorem hasSample_isBlock : HasSample IsBlock :=
  ⟨[.leftBrace, .rightBrace], .braces Token.Kind.leftBrace.word .nil Token.Kind.rightBrace.word⟩

end

namespace Reader
variable {α β : Type} {L M : List Token → Prop} {ts : List Token}

/-! ## Readers that lead to a language -/

/-- What the reader takes is in the language, and a token it refuses could be replaced by one
of an expected kind. -/
structure Leads (L : List Token → Prop) (r : Reader α) (ts : List Token) : Prop where
  ok {stop : Position} {a : α} {q : TokenQueue} (h : r ⟨ts, stop⟩ = .ok (a, q)) :
    ∃ taken, L taken ∧ ts = taken ++ q.pending
  unexpected {stop : Position} {construct : Construct} {t : Token} {expected : List Token.Kind}
    (h : r ⟨ts, stop⟩ = .error (.unexpected construct t expected)) :
    ∃ u v, ts = u ++ t :: v ∧ Offers (fun w => L (u ++ w)) expected

theorem Leads.mono {r : Reader α} (h : Leads L r ts) (hL : ∀ w, L w → M w) : Leads M r ts := by
  constructor
  · intro stop a q hok
    obtain ⟨taken, htaken, hts⟩ := h.ok hok
    exact ⟨taken, hL _ htaken, hts⟩
  · intro stop construct t expected he
    obtain ⟨u, v, hts, hoffers⟩ := h.unexpected he
    exact ⟨u, v, hts, hoffers.mono fun w => hL (u ++ w)⟩

theorem Leads.bind {x : Reader α} {f : α → Reader β} (hx : Leads L x ts) (hM : HasSample M)
    (hf : ∀ {stop a q}, x ⟨ts, stop⟩ = .ok (a, q) → Leads M (f a) q.pending) : Leads (Then L M) (x >>= f) ts := by
  constructor
  · intro stop b q h
    obtain ⟨a, q₁, ha, hb⟩ := bind_eq_ok_iff.mp h
    obtain ⟨taken, htaken, hts⟩ := hx.ok ha
    obtain ⟨taken', htaken', hts₁⟩ := (hf ha).ok hb
    exact ⟨taken ++ taken', ⟨taken, taken', htaken, htaken', rfl⟩, by rw [hts, hts₁, List.append_assoc]⟩
  · intro stop construct t expected h
    rcases bind_eq_error_iff.mp h with hxe | ⟨a, q₁, ha, hfe⟩
    · -- the second reader goes on with samples
      obtain ⟨u, v, hts, hoffers⟩ := hx.unexpected hxe
      refine ⟨u, v, hts, hoffers.1, ?_⟩
      intro k hk
      obtain ⟨ks, hks⟩ := hoffers.2 k hk
      obtain ⟨ks', hks'⟩ := hM
      refine ⟨ks ++ ks', _, _, hks, hks', ?_⟩
      rw [← List.cons_append, samples_append, List.append_assoc]
    · obtain ⟨taken, htaken, hts⟩ := hx.ok ha
      obtain ⟨u, v, hts₁, hoffers⟩ := (hf ha).unexpected hfe
      refine ⟨taken ++ u, v, by rw [hts, hts₁, List.append_assoc], hoffers.mono ?_⟩
      intro w hw
      exact ⟨taken, u ++ w, htaken, hw, List.append_assoc _ _ _⟩

theorem leads_pure (a : α) (h : L []) : Leads L (pure a : Reader α) ts := by
  constructor
  · intro stop b q hok
    obtain ⟨rfl, rfl⟩ := pure_eq_ok_iff.mp hok
    exact ⟨[], h, rfl⟩
  · intro stop construct t expected he
    cases he

theorem Leads.map {x : Reader α} (hx : Leads L x ts) (f : α → β) : Leads L (x >>= fun a => pure (f a)) ts := by
  have hnil : HasSample (· = []) := ⟨[], rfl⟩
  apply (hx.bind hnil fun _ => leads_pure _ rfl).mono
  rintro w ⟨u, v, hu, rfl, rfl⟩
  rwa [List.append_nil]

theorem leads_fail {e : SyntaxError} (he : e.IsLimit) : Leads L (fail e : Reader α) ts := by
  constructor
  · intro stop a q h
    exact absurd h fail_ne_ok
  · intro stop construct t expected h
    obtain rfl := Except.error.inj h
    exact he.elim

/-- Taking a token and going on from it, or refusing it. -/
theorem leads_next {f : Token → Reader α}
    (hf : ∀ t ts', ts = t :: ts' → Leads (fun w => L (t :: w)) (f t) ts' ∨
      ∃ construct expected, f t = fail (.unexpected construct t expected) ∧ Offers L expected) :
    Leads L (next >>= f) ts := by
  cases ts with
  | nil =>
    constructor
    · intro stop a q h
      cases h
    · intro stop construct t expected h
      cases h
  | cons t ts =>
    constructor
    · intro stop a q h
      have ha : f t ⟨ts, stop⟩ = .ok (a, q) := h
      rcases hf t ts rfl with hleads | ⟨construct, expected, hfail, -⟩
      · obtain ⟨taken, htaken, hts⟩ := hleads.ok ha
        exact ⟨t :: taken, htaken, congrArg (t :: ·) hts⟩
      · rw [hfail] at ha
        exact absurd ha fail_ne_ok
    · intro stop construct t' expected h
      have he : f t ⟨ts, stop⟩ = .error (.unexpected construct t' expected) := h
      rcases hf t ts rfl with hleads | ⟨construct', expected', hfail, hoffers⟩
      · obtain ⟨u, v, hts, hoffers⟩ := hleads.unexpected he
        exact ⟨t :: u, v, congrArg (t :: ·) hts, hoffers⟩
      · rw [hfail] at he
        cases he
        exact ⟨[], ts, rfl, hoffers⟩

/-- Looking at a token and going on with it still in the queue. -/
theorem leads_peek {f : Token → Reader α} (hf : ∀ t ts', ts = t :: ts' → Leads L (f t) ts) :
    Leads L (peek >>= f) ts := by
  cases ts with
  | nil =>
    constructor
    · intro stop a q h
      cases h
    · intro stop construct t expected h
      cases h
  | cons t ts =>
    have hleads := hf t ts rfl
    exact ⟨fun h => hleads.ok h, fun h => hleads.unexpected h⟩

theorem leads_nextIs {kind : Token.Kind} {f : Bool → Reader α} (hf : ∀ b, Leads L (f b) ts) :
    Leads L (nextIs kind >>= f) ts := by
  have hpeek : nextIs kind >>= f = peek >>= fun t => f (t.kind == kind) := by simp [nextIs]
  rw [hpeek]
  exact leads_peek fun t ts' _ => hf _

/-- Taking a token if it has the given kind. -/
theorem leads_accept {kind : Token.Kind} {f : Option Token → Reader α}
    (hnone : (∀ t ts', ts = t :: ts' → t.kind ≠ kind) → Leads L (f none) ts)
    (hsome : ∀ (w : Word kind) ts', ts = w.token :: ts' → Leads (fun v => L (w.token :: v)) (f (some w.token)) ts') :
    Leads L (accept kind >>= f) ts := by
  have hpeek : accept kind >>= f =
      peek >>= fun t => if t.kind = kind then next >>= fun t => f (some t) else f none := by
    simp only [accept, nextIs, bind_assoc, pure_bind]
    congr 1
    funext t
    by_cases hk : t.kind = kind <;> simp [hk]
  rw [hpeek]
  apply leads_peek
  intro t ts' hts
  by_cases hk : t.kind = kind
  · rw [if_pos hk]
    apply leads_next
    intro t' ts'' hts'
    rw [hts] at hts'
    cases hts'
    exact .inl (hsome ⟨t, hk⟩ ts' hts)
  · rw [if_neg hk]
    apply hnone
    intro t' ts'' hts'
    rw [hts] at hts'
    cases hts'
    exact hk

theorem leads_refuse {construct : Construct} {expected : List Token.Kind} (h : Offers L expected) :
    Leads L (refuse construct expected : Reader α) ts :=
  leads_next fun _ _ _ => .inr ⟨construct, expected, rfl, h⟩

theorem leads_expect (kind : Token.Kind) (construct : Construct) :
    Leads (Single kind) (expect kind construct) ts := by
  apply leads_next
  intro t ts' _
  by_cases hk : t.kind = kind
  · left
    rw [if_pos hk]
    exact leads_pure t ⟨⟨t, hk⟩, rfl⟩
  · right
    exact ⟨construct, [kind], if_neg hk, offers_singleton ⟨[], kind.word, rfl⟩⟩

/-! ## Expressions -/

/-- Open parentheses are closed behind any operand. -/
theorem isExpression_closed : ∀ (s : List Waiting) {v : List Token}, IsExpression v →
    IsExpression (Waiting.tokens s ++ (v ++ samples (List.replicate (Waiting.groups s) .rightParen)))
  | [], v, hv => by simpa [Waiting.tokens, Waiting.groups, samples] using hv
  | .group opening :: s, v, hv => by
    have h := isExpression_closed s (.operand (.group opening hv Token.Kind.rightParen.word))
    simpa [Waiting.tokens, Waiting.groups, samples, List.replicate_succ, Token.Kind.word] using h
  | .operator lhs sign :: s, v, hv => by
    have h := isExpression_closed s (lhs.isExpression_tokens.join sign.isOperator hv)
    simpa [Waiting.tokens, Waiting.groups] using h

/-- Where a scan refuses a token, the expression can go on with what was expected. -/
theorem offers_of_refuses {p : Progress} {t received : Token} {construct : Construct} {expected : List Token.Kind}
    (h : p.Refuses t (.unexpected construct received expected)) :
    received = t ∧ Offers (fun w => IsExpression (p.tokens ++ w)) expected := by
  obtain ⟨s, operand⟩ := p
  cases h with
  | noOperand hoperand =>
    obtain rfl : operand = none := hoperand
    have hname : IsExpression [Token.Kind.identifier.sample] := .operand (.name Token.Kind.identifier.word)
    have hnumber : IsExpression [Token.Kind.literal.sample] := .operand (.number Token.Kind.literal.word)
    have hgroup := isExpression_closed s
      (.operand (.group Token.Kind.leftParen.word hname Token.Kind.rightParen.word))
    refine ⟨rfl, .cons ⟨_, isExpression_closed s hname⟩ ?_⟩
    refine .cons ⟨_, isExpression_closed s hnumber⟩ (offers_singleton ?_)
    exact ⟨.identifier :: .rightParen :: List.replicate (Waiting.groups s) .rightParen, by
      simpa [samples, Token.Kind.word, Progress.tokens] using hgroup⟩
  | unclosed hoperand hopen =>
    cases operand with
    | none => exact absurd rfl hoperand
    | some x =>
      obtain ⟨n, hn⟩ := Nat.exists_eq_add_of_lt hopen
      have h := isExpression_closed s x.isExpression_tokens
      refine ⟨rfl, offers_singleton ⟨List.replicate n .rightParen, ?_⟩⟩
      rw [hn, Nat.zero_add, List.replicate_succ] at h
      simpa [Progress.tokens] using h

theorem leads_expression : Leads IsExpression expression ts := by
  constructor
  · intro stop e q h
    obtain ⟨t, -, -, -, hq, -⟩ := expression_eq_ok_iff.mp h
    exact ⟨t.tokens, t.isExpression_tokens, congrArg TokenQueue.pending hq⟩
  · intro stop construct received expected h
    rw [expression_apply] at h
    cases hscan : Rpn.scan stop true 0 [] [] ts with
    | error e =>
      rw [hscan] at h
      obtain rfl := Except.error.inj h
      rcases scan_eq_error hscan with heof | ⟨u, t, rest, p, hts, rfl, hrefuses, -⟩
      · cases heof
      · obtain ⟨rfl, hoffers⟩ := offers_of_refuses hrefuses
        exact ⟨_, rest, hts, hoffers⟩
    | ok result =>
      -- the tokens form an expression, and making its tree refuses none of them
      obtain ⟨t, -, -, -, hitems⟩ := scan_eq_ok_iff.mp hscan
      rw [hscan] at h
      by_cases hheight : t.height ≤ Rpn.maxHeight
      · simp [hitems, Term.toExpr_rpn hheight, Except.map] at h
      · obtain ⟨sign, -, htree⟩ := Term.toExpr_rpn_tooDeep (Nat.lt_of_not_le hheight)
        simp [hitems, htree, Except.map] at h

/-! ## Signals -/

theorem leads_ident (construct : Construct) : Leads (Single .identifier) (ident construct) ts :=
  (leads_expect .identifier construct).map _

theorem leads_clock : Leads (DerivedBy ClockTree.tokens) clock ts := by
  let Name (w : List Token) : Prop := ∃ (bang : Option (Word .bang)) (name : Word .identifier),
    w = Word.optional bang ++ [name.token]
  have hname : HasSample Name := ⟨[.identifier], none, Token.Kind.identifier.word, rfl⟩
  have hclock : Leads (Then (Single .atMark) Name) clock ts := by
    apply (leads_expect .atMark .clock).bind hname
    intro stop mark q _
    apply leads_next
    intro token ts' _
    cases hk : token.kind with
    | bang =>
      left
      apply ((leads_ident .clock).map _).mono
      rintro w ⟨name, rfl⟩
      exact ⟨some ⟨token, hk⟩, name, rfl⟩
    | identifier => exact .inl (leads_pure _ ⟨none, ⟨token, hk⟩, rfl⟩)
    | _ =>
      refine .inr ⟨_, _, rfl, .cons ?_ (offers_singleton ?_)⟩
      · exact ⟨[.identifier], some Token.Kind.bang.word, Token.Kind.identifier.word, rfl⟩
      · exact ⟨[], none, Token.Kind.identifier.word, rfl⟩
  apply hclock.mono
  rintro w ⟨_, _, ⟨mark, rfl⟩, ⟨bang, name, rfl⟩, rfl⟩
  exact ⟨⟨mark, bang, name⟩, rfl⟩

theorem leads_width : Leads (DerivedBy fun x : Option WidthTree => (x.map WidthTree.tokens).getD []) width ts := by
  apply leads_accept
  · intro _
    exact leads_pure 1 ⟨none, rfl⟩
  · intro opening ts' _
    apply Leads.mono (L := Then (Single .literal) (Single .rightBracket))
    · apply (leads_expect .literal .bitWidth).bind (hasSample_kind .rightBracket)
      intro stop token q _
      cases bitWidth? token.text with
      | none => exact leads_fail (e := .malformedWidth token) trivial
      | some n => exact (leads_expect .rightBracket .bitWidth).map _
    · rintro w ⟨_, _, ⟨literal, rfl⟩, ⟨closing, rfl⟩, rfl⟩
      exact ⟨some ⟨opening, literal, closing⟩, rfl⟩

/-- What follows the storage of a signal. -/
theorem leads_tail (construct : Construct) (f : Nat → Ident → Option Clock → Signal) :
    Leads (DerivedBy TailTree.tokens) (do
      let width ← width
      let name ← ident construct
      let clock ← if ← nextIs .atMark then some <$> clock else pure none
      return f width name clock) ts := by
  have hclock : HasSample (DerivedBy fun x : Option ClockTree => (x.map ClockTree.tokens).getD []) := ⟨[], none, rfl⟩
  apply Leads.mono (L := Then (DerivedBy fun x : Option WidthTree => (x.map WidthTree.tokens).getD [])
    (Then (Single .identifier) (DerivedBy fun x : Option ClockTree => (x.map ClockTree.tokens).getD [])))
  · apply leads_width.bind ((hasSample_kind .identifier).followed hclock)
    intro stop n q _
    apply (leads_ident construct).bind hclock
    intro stop name q _
    apply leads_nextIs
    intro b
    cases b with
    | false => exact Leads.map (leads_pure none ⟨none, rfl⟩) _
    | true =>
      apply Leads.map (Leads.map _ some) _
      apply leads_clock.mono
      rintro w ⟨x, rfl⟩
      exact ⟨some x, rfl⟩
  · rintro w ⟨_, _, ⟨width, rfl⟩, ⟨_, _, ⟨name, rfl⟩, ⟨clock, rfl⟩, rfl⟩, rfl⟩
    exact ⟨⟨width, name, clock⟩, rfl⟩

theorem leads_signal (construct : Construct) : Leads (DerivedBy SignalTree.tokens) (signal construct) ts := by
  apply leads_accept
  · intro _
    apply (leads_tail construct _).mono
    rintro w ⟨tail, rfl⟩
    exact ⟨⟨none, tail⟩, rfl⟩
  · intro storage ts' _
    apply (leads_tail construct _).mono
    rintro w ⟨tail, rfl⟩
    exact ⟨⟨some storage, tail⟩, rfl⟩

/-! ## Ports -/

theorem port_eq_expect : port = (do
    let token ← expect .direction .port
    return ⟨← signal .port, PortTree.directionOf token.text⟩) := by
  rw [port_eq, expect_bind]

theorem leads_port : Leads (DerivedBy PortTree.tokens) port ts := by
  have hsignal : HasSample (DerivedBy SignalTree.tokens) :=
    ⟨[.identifier], ⟨none, none, Token.Kind.identifier.word, none⟩, rfl⟩
  rw [port_eq_expect]
  apply Leads.mono (L := Then (Single .direction) (DerivedBy SignalTree.tokens))
  · apply (leads_expect .direction .port).bind hsignal
    intro stop token q _
    exact (leads_signal .port).map _
  · rintro w ⟨_, _, ⟨direction, rfl⟩, ⟨signal, rfl⟩, rfl⟩
    exact ⟨⟨direction, signal⟩, rfl⟩

/-- Ports separated by commas, up to the parenthesis that closes. -/
def IsPortRounds (w : List Token) : Prop :=
  ∃ (first : PortTree) (others : List (Word .comma × PortTree)) (closing : Word .rightParen),
    w = PortsTree.separated first others ++ [closing.token]

theorem hasSample_isPortRounds : HasSample IsPortRounds := by
  let port : PortTree := ⟨Token.Kind.direction.word, none, none, Token.Kind.identifier.word, none⟩
  exact ⟨[.direction, .identifier, .rightParen], port, [], Token.Kind.rightParen.word, rfl⟩

theorem leads_portRounds (read : List Port) : Leads IsPortRounds (portRounds read) ts := by
  induction hlength : ts.length using Nat.strong_induction_on generalizing ts read with
  | _ n ih =>
    subst hlength
    -- behind a port stands a comma and more ports, or the end
    let Rest (w : List Token) : Prop := (∃ closing : Word .rightParen, w = [closing.token]) ∨
      ∃ (comma : Word .comma) (v : List Token), IsPortRounds v ∧ w = comma.token :: v
    have hrest : HasSample Rest := ⟨[.rightParen], .inl ⟨Token.Kind.rightParen.word, rfl⟩⟩
    rw [portRounds_eq]
    apply Leads.mono (L := Then (DerivedBy PortTree.tokens) Rest)
    · apply leads_port.bind hrest
      intro stop p q hp
      have hlt := consumes_port hp
      apply leads_next
      intro token ts' hts'
      rw [hts', List.length_cons] at hlt
      cases hk : token.kind with
      | rightParen => exact .inl (leads_pure _ (.inl ⟨⟨token, hk⟩, rfl⟩))
      | comma =>
        left
        apply (ih _ (by dsimp only at hlt; omega) (p :: read) rfl).mono
        intro w hw
        exact .inr ⟨⟨token, hk⟩, w, hw, rfl⟩
      | _ =>
        refine .inr ⟨_, _, rfl, .cons ?_ (offers_singleton ?_)⟩
        · obtain ⟨ks, hks⟩ := hasSample_isPortRounds
          exact ⟨ks, .inr ⟨Token.Kind.comma.word, _, hks, rfl⟩⟩
        · exact ⟨[], .inl ⟨Token.Kind.rightParen.word, rfl⟩⟩
    · rintro w ⟨_, _, ⟨first, rfl⟩, ⟨closing, rfl⟩ | ⟨comma, _, ⟨second, others, closing, rfl⟩, rfl⟩, rfl⟩
      · exact ⟨first, [], closing, by simp [PortsTree.separated]⟩
      · exact ⟨first, (comma, second) :: others, closing, by simp [PortsTree.separated]⟩

theorem leads_ports : Leads (DerivedBy PortsTree.tokens) ports ts := by
  let Rest (w : List Token) : Prop := (∃ closing : Word .rightParen, w = [closing.token]) ∨ IsPortRounds w
  have hrest : HasSample Rest := ⟨[.rightParen], .inl ⟨Token.Kind.rightParen.word, rfl⟩⟩
  apply Leads.mono (L := Then (Single .leftParen) Rest)
  · apply (leads_expect .leftParen .portList).bind hrest
    intro stop opening q _
    apply leads_accept
    · intro _
      exact (leads_portRounds []).mono fun w hw => .inr hw
    · intro closing ts' _
      exact leads_pure [] (.inl ⟨closing, rfl⟩)
  · rintro w ⟨_, _, ⟨opening, rfl⟩, ⟨closing, rfl⟩ | ⟨first, others, closing, rfl⟩, rfl⟩
    · exact ⟨⟨opening, none, closing⟩, rfl⟩
    · exact ⟨⟨opening, some (first, others), closing⟩, rfl⟩

/-! ## Statements -/

/-- What may follow `else`. -/
def IsFollower (w : List Token) : Prop := IsIf w ∨ IsBlock w

/-- A reader of statements leads to statements and, from a token that may follow `else`, to
those that may. -/
structure LeadsToStmts (r : Reader Stmt) : Prop where
  stmt : ∀ ts, Leads IsStmt r ts
  follower : ∀ t ts, t.kind = .ifWord ∨ t.kind = .leftBrace → Leads IsFollower r (t :: ts)

section
variable {r : Reader Stmt} (hr : LeadsToStmts r)
include hr

theorem leads_stmtRounds (hconsumes : Consumes r) (read : List Stmt) : Leads IsStmts (stmtRounds r read) ts := by
  induction hlength : ts.length using Nat.strong_induction_on generalizing ts read with
  | _ n ih =>
    subst hlength
    rw [stmtRounds_eq hconsumes]
    apply leads_nextIs
    intro b
    cases b with
    | true => exact leads_pure _ .nil
    | false =>
      apply Leads.mono (L := Then IsStmt IsStmts)
      · apply (hr.stmt ts).bind ⟨[], .nil⟩
        intro stop s q hs
        exact ih _ (hconsumes hs) (s :: read) rfl
      · rintro w ⟨u, v, hu, hv, rfl⟩
        exact .cons hu hv

theorem leads_block (hconsumes : Consumes r) : Leads IsBlock (block r) ts := by
  have hstmts : HasSample IsStmts := ⟨[], .nil⟩
  rw [block_eq]
  apply Leads.mono (L := Then (Single .leftBrace) (Then IsStmts (Single .rightBrace)))
  · apply (leads_expect .leftBrace .block).bind (hstmts.followed (hasSample_kind .rightBrace))
    intro stop opening q _
    apply (leads_stmtRounds hr hconsumes []).bind (hasSample_kind .rightBrace)
    intro stop ss q _
    exact (leads_expect .rightBrace .block).map _
  · rintro w ⟨_, _, ⟨opening, rfl⟩, ⟨u, _, hu, ⟨closing, rfl⟩, rfl⟩, rfl⟩
    exact .braces opening hu closing

/-- Nothing, or `else` and what may follow it. -/
def IsAlternative (w : List Token) : Prop :=
  w = [] ∨ ∃ (other : Word .elseWord) (v : List Token), IsFollower v ∧ w = other.token :: v

theorem leads_alternative : Leads IsAlternative (alternative r) ts := by
  apply leads_accept
  · intro _
    exact leads_pure none (.inl rfl)
  · intro other ts' _
    apply Leads.mono (L := IsFollower) _ fun w hw => .inr ⟨other, w, hw, rfl⟩
    apply leads_peek
    intro t ts'' hts
    subst hts
    cases hk : t.kind with
    | ifWord => exact (hr.follower t ts'' (.inl hk)).map some
    | leftBrace => exact (hr.follower t ts'' (.inr hk)).map some
    | _ =>
      refine leads_refuse (.cons ?_ (offers_singleton ?_))
      · obtain ⟨ks, hks⟩ := hasSample_isStmt
        refine ⟨.identifier :: ks, .inl ?_⟩
        exact .plain Token.Kind.ifWord.word (.operand (.name Token.Kind.identifier.word)) hks
      · exact ⟨[.rightBrace], .inr (.braces Token.Kind.leftBrace.word .nil Token.Kind.rightBrace.word)⟩

theorem leads_conditional : Leads IsIf (conditional r) ts := by
  have halternative : HasSample IsAlternative := ⟨[], .inl rfl⟩
  apply Leads.mono (L := Then (Single .ifWord) (Then IsExpression (Then IsStmt IsAlternative)))
  · apply (leads_expect .ifWord .conditional).bind
      (hasSample_isExpression.followed (hasSample_isStmt.followed halternative))
    intro stop word q _
    apply leads_expression.bind (hasSample_isStmt.followed halternative)
    intro stop cond q _
    apply (hr.stmt _).bind halternative
    intro stop body q _
    exact (leads_alternative hr).map _
  · rintro w ⟨_, _, ⟨word, rfl⟩, ⟨u, _, hu, ⟨v, a, hv, ha, rfl⟩, rfl⟩, rfl⟩
    rcases ha with rfl | ⟨other, x, hx, rfl⟩
    · have hplain := IsIf.plain word hu hv
      simpa using hplain
    · rcases hx with hx | hx
      · exact .elseIf word hu hv other hx
      · exact .elseBlock word hu hv other hx

theorem leads_sequence : Leads IsStmt (sequence r) ts := by
  apply leads_peek
  intro first ts' _
  apply Leads.mono (L := Then (DerivedBy ClockTree.tokens) IsStmt)
  · apply leads_clock.bind hasSample_isStmt
    intro stop clock q _
    exact (hr.stmt _).map _
  · rintro w ⟨_, v, ⟨clock, rfl⟩, hv, rfl⟩
    exact .sequence clock hv

end

theorem leads_assignment : Leads IsStmt assignment ts := by
  have hend := hasSample_kind .endOfStatement
  apply Leads.mono
    (L := Then (Single .identifier) (Then (Single .assign) (Then IsExpression (Single .endOfStatement))))
  · apply (leads_ident .assignment).bind ((hasSample_kind .assign).followed (hasSample_isExpression.followed hend))
    intro stop lhs q _
    apply (leads_expect .assign .assignment).bind (hasSample_isExpression.followed hend)
    intro stop token q _
    apply leads_expression.bind hend
    intro stop rhs q _
    exact (leads_expect .endOfStatement .assignment).map _
  · rintro w ⟨_, _, ⟨target, rfl⟩, ⟨_, _, ⟨symbol, rfl⟩, ⟨u, _, hu, ⟨semicolon, rfl⟩, rfl⟩, rfl⟩, rfl⟩
    exact .assign target symbol hu semicolon

/-- A storage that is there is not left out. -/
theorem leads_declaration {t : Token} (ht : t.kind = .storage) : Leads IsStmt declaration (t :: ts) := by
  let Storage (w : List Token) : Prop := ∃ (storage : Word .storage) (tail : TailTree), w = storage.token :: tail.tokens
  apply leads_peek
  intro first ts' _
  apply Leads.mono (L := Then Storage (Single .endOfStatement))
  · refine Leads.bind (leads_accept ?_ ?_) (hasSample_kind .endOfStatement) ?_
    · intro hnone
      exact absurd ht (hnone t ts rfl)
    · intro storage ts'' _
      apply (leads_tail .declaration _).mono
      rintro w ⟨tail, rfl⟩
      exact ⟨storage, tail, rfl⟩
    · intro stop s q _
      exact (leads_expect .endOfStatement .declaration).map _
  · rintro w ⟨_, _, ⟨storage, tail, rfl⟩, ⟨semicolon, rfl⟩, rfl⟩
    exact .decl storage tail semicolon

/-- Each kind that may begin a statement begins one. -/
theorem offers_starts : Offers IsStmt [.identifier, .ifWord, .leftBrace, .storage, .atMark] := by
  have hname : IsExpression [Token.Kind.identifier.sample] := .operand (.name Token.Kind.identifier.word)
  obtain ⟨ks, hks⟩ := hasSample_isStmt
  refine .cons ?_ (.cons ?_ (.cons ?_ (.cons ?_ (offers_singleton ?_))))
  · exact ⟨[.assign, .identifier, .endOfStatement],
      .assign Token.Kind.identifier.word Token.Kind.assign.word hname Token.Kind.endOfStatement.word⟩
  · exact ⟨.identifier :: ks, .conditional (.plain Token.Kind.ifWord.word hname hks)⟩
  · exact ⟨[.rightBrace], .block (.braces Token.Kind.leftBrace.word .nil Token.Kind.rightBrace.word)⟩
  · exact ⟨[.identifier, .endOfStatement], .decl Token.Kind.storage.word ⟨none, Token.Kind.identifier.word, none⟩
      Token.Kind.endOfStatement.word⟩
  · exact ⟨.identifier :: ks, .sequence ⟨Token.Kind.atMark.word, none, Token.Kind.identifier.word⟩ hks⟩

theorem leadsToStmts_stmt (levels : Nat) : LeadsToStmts (stmt levels) := by
  induction levels with
  | zero =>
    have hlimit (L : List Token → Prop) (ts : List Token) : Leads L (stmt 0) ts := by
      apply leads_peek
      intro t ts' _
      exact leads_fail (e := .tooDeep t.pos) trivial
    exact ⟨fun ts => hlimit _ ts, fun t ts _ => hlimit _ _⟩
  | succ levels ih =>
    have hfollower : ∀ t ts, t.kind = .ifWord ∨ t.kind = .leftBrace →
        Leads IsFollower (stmt (levels + 1)) (t :: ts) := by
      intro t ts hk
      apply leads_peek
      intro t' ts' hts
      cases hts
      rcases hk with hk | hk
      · rw [hk]
        exact (leads_conditional ih).mono fun w hw => .inl hw
      · rw [hk]
        exact ((leads_block ih (consumes_stmt levels)).map _).mono fun w hw => .inr hw
    refine ⟨?_, hfollower⟩
    intro ts
    apply leads_peek
    intro t ts' hts
    subst hts
    cases hk : t.kind with
    | identifier => exact leads_assignment
    | ifWord => exact (leads_conditional ih).mono fun w hw => .conditional hw
    | leftBrace => exact ((leads_block ih (consumes_stmt levels)).map _).mono fun w hw => .block hw
    | storage => exact leads_declaration hk
    | atMark => exact leads_sequence ih
    | _ => exact leads_refuse offers_starts

/-! ## Modules -/

/-- The token lists that are modules. -/
def IsModule (w : List Token) : Prop :=
  ∃ (name : Word .identifier) (ports : PortsTree) (u : List Token), IsBlock u ∧ w = name.token :: (ports.tokens ++ u)

theorem leads_module : Leads IsModule module ts := by
  have hports : HasSample (DerivedBy PortsTree.tokens) :=
    ⟨[.leftParen, .rightParen], ⟨Token.Kind.leftParen.word, none, Token.Kind.rightParen.word⟩, rfl⟩
  apply Leads.mono (L := Then (Single .identifier) (Then (DerivedBy PortsTree.tokens) IsBlock))
  · apply (leads_ident .moduleName).bind (hports.followed hasSample_isBlock)
    intro stop name q _
    apply leads_ports.bind hasSample_isBlock
    intro stop ports q _
    exact (leads_block (leadsToStmts_stmt maxNesting) (consumes_stmt maxNesting)).map _
  · rintro w ⟨_, _, ⟨name, rfl⟩, ⟨_, u, ⟨ports, rfl⟩, hu, rfl⟩, rfl⟩
    exact ⟨name, ports, u, hu, rfl⟩

end Reader

theorem isFile_append {u v : List Token} (hu : Reader.IsModule u) (hv : IsFile v) : IsFile (u ++ v) := by
  obtain ⟨name, ports, body, hbody, rfl⟩ := hu
  exact .cons name ports hbody hv

/-- A file that is refused at a token could go on there with what was expected. -/
theorem TokenQueue.modules_unexpected {q : TokenQueue} {construct : Construct} {t : Token}
    {expected : List Token.Kind} (h : q.modules = .error (.unexpected construct t expected)) :
    ∃ u v, q.pending = u ++ t :: v ∧ Offers (fun w => IsFile (u ++ w)) expected := by
  induction hlength : q.pending.length using Nat.strong_induction_on generalizing q with
  | _ n ih =>
    subst hlength
    obtain ⟨-, hm | ⟨m, q₁, hm, hq₁⟩⟩ := modules_error_cases h
    · obtain ⟨u, v, hts, hoffers⟩ := Reader.leads_module.unexpected hm
      refine ⟨u, v, hts, hoffers.mono ?_⟩
      intro w hw
      have hfile := isFile_append hw .nil
      rwa [List.append_nil] at hfile
    · obtain ⟨taken, htaken, hts⟩ := Reader.leads_module.ok hm
      obtain ⟨u, v, hts₁, hoffers⟩ := ih _ (Reader.consumes_module hm) hq₁ rfl
      refine ⟨taken ++ u, v, by rw [hts, hts₁, List.append_assoc], hoffers.mono ?_⟩
      intro w hw
      rw [List.append_assoc]
      exact isFile_append htaken hw

/-! ## The earliest error -/

/-- The tokens of some text. -/
def Writable (w : List Token) : Prop := ∀ t ∈ w, IsTokenText t.text.toList

theorem writable_samples (ks : List Token.Kind) : Writable (samples ks) := by
  intro t ht
  obtain ⟨k, -, rfl⟩ := List.mem_map.mp ht
  exact k.isTokenText_sample

theorem Position.lt_irrefl (p : Position) : ¬p < p := by
  intro h
  change p.line < p.line ∨ (p.line = p.line ∧ p.column < p.column) at h
  omega

/-- A token stands at one place only. -/
theorem eq_of_split_eq {u v u' v' : List Token} {t : Token}
    (hsorted : (u ++ t :: v).Pairwise fun t t' => t.pos < t'.pos) (h : u ++ t :: v = u' ++ t :: v') : u = u' := by
  obtain ⟨-, hrest, hbefore⟩ := List.pairwise_append.mp hsorted
  have hu : t ∉ u := fun hmem => Position.lt_irrefl _ (hbefore t hmem t List.mem_cons_self)
  have hv : t ∉ v := fun hmem => Position.lt_irrefl _ ((List.pairwise_cons.mp hrest).1 t hmem)
  exact ((List.append_cons_inj_of_notMem hu hv).mp h).1

/-- A token is refused as early as possible, and the expected kinds are right. The tokens
before it begin a text of the grammar; with the token they begin none; and with some token
of any expected kind they begin one again. -/
theorem parse_refuses_earliest {source : String} {construct : Construct} {received : Token}
    {expected : List Token.Kind} (h : parse source = .error (.unexpected construct received expected)) :
    received ∈ (Lexer.ofSource source).tokens.1 ∧
    ∀ u v, (Lexer.ofSource source).tokens.1 = u ++ received :: v →
      (∃ w, Writable w ∧ IsFile (u ++ w)) ∧
      (∀ w, ¬IsFile (u ++ received :: w)) ∧
      ∀ kind ∈ expected, ∃ t w, t.kind = kind ∧ Writable (t :: w) ∧ IsFile (u ++ t :: w) := by
  have hsorted := (Lexer.tokens_ofSource source).1
  obtain ⟨u₀, v₀, hts₀, hexpected, hoffers⟩ := TokenQueue.modules_unexpected h
  change (Lexer.ofSource source).tokens.1 = u₀ ++ received :: v₀ at hts₀
  refine ⟨by simp [hts₀], ?_⟩
  intro u v hts
  rw [hts] at hsorted hts₀
  obtain rfl := eq_of_split_eq hsorted hts₀
  refine ⟨?_, ?_, ?_⟩
  · obtain ⟨k, hk⟩ := List.exists_mem_of_ne_nil expected hexpected
    obtain ⟨ks, hks⟩ := hoffers k hk
    exact ⟨samples (k :: ks), writable_samples _, hks⟩
  · -- the error stays the same whatever follows, but a text of the grammar has no such error
    intro w hw
    rcases TokenQueue.modules_eq_error h with heof | ⟨seen, rest, hseen, hlast, hstable⟩
    · cases heof
    · obtain ⟨u₁, rfl⟩ := List.getLast?_eq_some_iff.mp hlast
      change (Lexer.ofSource source).tokens.1 = _ at hseen
      rw [hts, List.append_assoc] at hseen
      obtain rfl := eq_of_split_eq hsorted hseen
      have herror := hstable w Position.start
      rw [List.append_assoc] at herror
      rcases TokenQueue.modules_of_isFile hw Position.start with ⟨ms, hms⟩ | ⟨e, he, hlimit⟩
      · exact absurd (herror.symm.trans hms) (by simp)
      · obtain rfl := Except.error.inj (herror.symm.trans he)
        exact hlimit
  · intro kind hkind
    obtain ⟨ks, hks⟩ := hoffers kind hkind
    exact ⟨kind.sample, samples ks, kind.kind_sample, writable_samples (kind :: ks), hks⟩

/-- A list of ports that is not closed. -/
theorem parse_unclosed_ports : parse ("m(in a " ++ braced "") =
      .error (.unexpected .portList ⟨"\x7b", ⟨1, 8⟩⟩ [.comma, .rightParen]) ∧
    ∃ u, (Lexer.ofSource ("m(in a " ++ braced "")).tokens.1 = u ++ [⟨"\x7b", ⟨1, 8⟩⟩, ⟨"\x7d", ⟨1, 9⟩⟩] ∧
      (∀ w, ¬IsFile (u ++ ⟨"\x7b", ⟨1, 8⟩⟩ :: w)) ∧
      ∃ t w, t.kind = .comma ∧ Writable (t :: w) ∧ IsFile (u ++ t :: w) := by
  have hparse : parse ("m(in a " ++ braced "") =
      .error (.unexpected .portList ⟨"\x7b", ⟨1, 8⟩⟩ [.comma, .rightParen]) := by
    have hfailure : (Reading.ofSource ("m(in a " ++ braced "")).failure =
        some (.unexpected .portList ⟨"\x7b", ⟨1, 8⟩⟩ [.comma, .rightParen]) := by decide +kernel
    rw [parse, Reading.result, hfailure]
  have htokens : (Lexer.ofSource ("m(in a " ++ braced "")).tokens.1 =
      [⟨"m", ⟨1, 1⟩⟩, ⟨"(", ⟨1, 2⟩⟩, ⟨"in", ⟨1, 3⟩⟩, ⟨"a", ⟨1, 6⟩⟩] ++ [⟨"\x7b", ⟨1, 8⟩⟩, ⟨"\x7d", ⟨1, 9⟩⟩] := by
    decide +kernel
  obtain ⟨-, hrefused⟩ := parse_refuses_earliest hparse
  obtain ⟨-, hnone, hexpected⟩ := hrefused _ _ htokens
  exact ⟨hparse, _, htokens, hnone, hexpected .comma (by decide)⟩

end Gateware

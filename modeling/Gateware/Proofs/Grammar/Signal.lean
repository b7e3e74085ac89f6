import Gateware.Proofs.Grammar.Reader
import Gateware.Syntax.Signal

/- The grammar of clocks, widths, signals and ports.

   Each construct is a tree of the words that make it up, in order; `tokens` lists them and
   `value` is what the tree stands for. Words carry their kinds, so a tree whose tokens do not fit
   cannot be built. This file

   1. says which literals are bit widths (`bitWidth?_eq_some_iff`);
   2. defines the trees (`ClockTree`, `WidthTree`, `TailTree`, `SignalTree`, `PortTree`) and the
      bound on widths (`Within`);
   3. proves for each reader that it succeeds exactly on the tokens of such a tree
      (`clock_eq_ok_iff` to `port_eq_ok_iff`).

   An optional part at the end of a construct is left out only if the next token cannot begin it,
   so the equivalences also say what stands ahead of the reader. -/
namespace Gateware

theorem decimal?_eq_some_iff {digits : List Char} {value n : Nat} :
    decimal? digits value = some n ↔
      (∀ c ∈ digits, c.isDigit = true) ∧ n = Nat.ofDigitChars 10 digits value := by
  induction digits generalizing value with
  | nil => simp only [decimal?, Option.some.injEq, Nat.ofDigitChars_nil, List.not_mem_nil, false_implies,
      implies_true, true_and, eq_comm]
  | cons c cs ih =>
    simp only [decimal?, List.mem_cons, forall_eq_or_imp, Nat.ofDigitChars_cons, Nat.mul_comm 10]
    split
    · rename_i hc
      rw [ih]
      simp [hc]
    · rename_i hc
      simp [hc]

theorem bitWidth?_eq_some_iff {text : String} {n : Nat} :
    bitWidth? text = some n ↔ text.toList ≠ [] ∧ (∀ c ∈ text.toList, c.isDigit = true) ∧
      n = Nat.ofDigitChars 10 text.toList 0 ∧ n < 4294967296 := by
  unfold bitWidth?
  split
  · rename_i h
    simp [h]
  · rename_i h
    rw [Option.filter_eq_some_iff, decimal?_eq_some_iff, decide_eq_true_iff, and_assoc]
    exact ⟨fun hn => ⟨h, hn⟩, fun hn => hn.2⟩

namespace Grammar

/-- The name that a word stands for. -/
def Word.ident (w : Word .identifier) : Ident := ⟨w.token.text, w.token.pos⟩

theorem Word.toList_ne_nil (w : Word .literal) : w.token.text.toList ≠ [] := by
  intro h
  have hk := w.kind_eq
  rw [String.toList_eq_nil_iff] at h
  rw [Token.kind, h] at hk
  exact absurd hk (by decide)

def Word.optional {kind : Token.Kind} (w : Option (Word kind)) : List Token :=
  w.toList.map (·.token)

/-! ## Clocks -/

/-- `clock := '@' '!'? IDENT` -/
@[ext] structure ClockTree where
  mark : Word .atMark
  bang : Option (Word .bang)
  name : Word .identifier

namespace ClockTree

def tokens (x : ClockTree) : List Token :=
  x.mark.token :: (Word.optional x.bang ++ [x.name.token])

def value (x : ClockTree) : Clock := ⟨x.name.ident, x.bang.isSome⟩

end ClockTree

/-! ## Widths -/

/-- `'[' LITERAL ']'` -/
@[ext] structure WidthTree where
  opening : Word .leftBracket
  literal : Word .literal
  closing : Word .rightBracket

namespace WidthTree

def tokens (x : WidthTree) : List Token := [x.opening.token, x.literal.token, x.closing.token]

def value (x : WidthTree) : Nat := Nat.ofDigitChars 10 x.literal.token.text.toList 0

/-- The literal consists of decimal digits, and its value fits in 32 bits. -/
def Within (x : WidthTree) : Prop :=
  (∀ c ∈ x.literal.token.text.toList, c.isDigit = true) ∧ x.value < 4294967296

end WidthTree

/-! ## Signals -/

/-- What follows the storage of a signal: `('[' LITERAL ']')? IDENT clock?` -/
@[ext] structure TailTree where
  width : Option WidthTree
  name : Word .identifier
  clock : Option ClockTree

namespace TailTree

def tokens (x : TailTree) : List Token :=
  (x.width.map WidthTree.tokens).getD [] ++ x.name.token :: (x.clock.map ClockTree.tokens).getD []

/-- The storage that a word stands for; a wire if there is none. -/
def storage : Option (Word .storage) → Storage
  | some w => if w.token.text = "reg" then .reg else .wire
  | none => .wire

/-- The signal with the given storage. A width that is left out is one bit. -/
def value (x : TailTree) (word : Option (Word .storage)) : Signal :=
  ⟨x.name.ident, (x.width.map WidthTree.value).getD 1, storage word, x.clock.map ClockTree.value⟩

/-- A width, if there is one, is within the bound. -/
def Within (x : TailTree) : Prop := ∀ w ∈ x.width, w.Within

end TailTree

/-- `signal_tail := STORAGE? ('[' LITERAL ']')? IDENT clock?` -/
@[ext] structure SignalTree where
  storage : Option (Word .storage)
  tail : TailTree

namespace SignalTree

def tokens (x : SignalTree) : List Token := Word.optional x.storage ++ x.tail.tokens

def value (x : SignalTree) : Signal := x.tail.value x.storage

end SignalTree

/-- `param := DIRECTION signal_tail` -/
@[ext] structure PortTree where
  direction : Word .direction
  signal : SignalTree

namespace PortTree

def tokens (x : PortTree) : List Token := x.direction.token :: x.signal.tokens

/-- The direction that a word stands for. -/
def directionOf (text : String) : Direction :=
  if text = "in" then .input else if text = "out" then .output else .inout

def value (x : PortTree) : Port := ⟨x.signal.value, directionOf x.direction.token.text⟩

end PortTree

end Grammar

/-! ## The readers -/

namespace Reader
open Grammar
variable {q q' : TokenQueue}

theorem ident_eq_ok_iff {construct : Construct} {i : Ident} :
    ident construct q = .ok (i, q') ↔
      ∃ w : Word .identifier, q = q'.put [w.token] ∧ i = w.ident := by
  simp only [ident, bind_eq_ok_iff, expect_eq_ok_iff, pure_eq_ok_iff]
  constructor
  · rintro ⟨t, q₁, ⟨w, rfl, rfl⟩, rfl, rfl⟩; exact ⟨w, rfl, rfl⟩
  · rintro ⟨w, rfl, rfl⟩; exact ⟨w.token, q', ⟨w, rfl, rfl⟩, rfl, rfl⟩

theorem clock_eq_ok_iff {c : Clock} :
    clock q = .ok (c, q') ↔ ∃ x : ClockTree, q = q'.put x.tokens ∧ c = x.value := by
  simp only [clock, bind_eq_ok_iff, expect_eq_ok_iff, next_eq_ok_iff]
  constructor
  · rintro ⟨_, q₁, ⟨mark, rfl, rfl⟩, token, q₂, rfl, h⟩
    cases hk : token.kind with
    | bang =>
      rw [hk] at h
      obtain ⟨i, q₃, hi, hpure⟩ := bind_eq_ok_iff.mp h
      obtain ⟨w, rfl, rfl⟩ := ident_eq_ok_iff.mp hi
      obtain ⟨rfl, rfl⟩ := pure_eq_ok_iff.mp hpure
      exact ⟨⟨mark, some ⟨token, hk⟩, w⟩, by simp [ClockTree.tokens, Word.optional], rfl⟩
    | identifier =>
      rw [hk] at h
      obtain ⟨rfl, rfl⟩ := pure_eq_ok_iff.mp h
      exact ⟨⟨mark, none, ⟨token, hk⟩⟩, by simp [ClockTree.tokens, Word.optional], rfl⟩
    | _ => rw [hk] at h; exact absurd h fail_ne_ok
  · rintro ⟨⟨mark, bang, name⟩, rfl, rfl⟩
    cases bang with
    | some bang =>
      refine ⟨_, q'.put [bang.token, name.token], ⟨mark, rfl, by simp [ClockTree.tokens, Word.optional]⟩,
        bang.token, q'.put [name.token], by simp, ?_⟩
      simp only [bang.kind_eq]
      exact bind_eq_ok_iff.mpr ⟨_, q', ident_eq_ok_iff.mpr ⟨name, rfl, rfl⟩, pure_eq_ok_iff.mpr ⟨rfl, rfl⟩⟩
    | none =>
      refine ⟨_, q'.put [name.token], ⟨mark, rfl, by simp [ClockTree.tokens, Word.optional]⟩,
        name.token, q', rfl, ?_⟩
      simp only [name.kind_eq]
      exact pure_eq_ok_iff.mpr ⟨rfl, rfl⟩

theorem width_eq_ok_iff {n : Nat} :
    width q = .ok (n, q') ↔ ∃ x : Option WidthTree, (∀ w ∈ x, w.Within) ∧
      q = q'.put ((x.map WidthTree.tokens).getD []) ∧ n = (x.map WidthTree.value).getD 1 ∧
      (x = none → q'.Ahead (· ≠ .leftBracket)) := by
  simp only [width, bind_eq_ok_iff, accept_eq_ok_iff]
  constructor
  · rintro ⟨_, q₁, ⟨opening, rfl, rfl⟩ | ⟨rfl, rfl, hahead⟩, h⟩
    · obtain ⟨token, q₂, hliteral, hvalue⟩ := bind_eq_ok_iff.mp h
      obtain ⟨literal, rfl, rfl⟩ := expect_eq_ok_iff.mp hliteral
      cases hwidth : bitWidth? literal.token.text with
      | none => rw [hwidth] at hvalue; exact absurd hvalue fail_ne_ok
      | some n' =>
        rw [hwidth] at hvalue
        obtain ⟨token, q₃, hclosing, hpure⟩ := bind_eq_ok_iff.mp hvalue
        obtain ⟨closing, rfl, rfl⟩ := expect_eq_ok_iff.mp hclosing
        obtain ⟨rfl, rfl⟩ := pure_eq_ok_iff.mp hpure
        obtain ⟨-, hdigits, rfl, hlt⟩ := bitWidth?_eq_some_iff.mp hwidth
        refine ⟨some ⟨opening, literal, closing⟩, ?_, by simp [WidthTree.tokens], rfl, by simp⟩
        rintro w ⟨⟩
        exact ⟨hdigits, hlt⟩
    · obtain ⟨rfl, rfl⟩ := pure_eq_ok_iff.mp h
      exact ⟨none, by simp, rfl, rfl, fun _ => hahead⟩
  · rintro ⟨x, hx, rfl, rfl, hahead⟩
    cases x with
    | none => exact ⟨none, q', .inr ⟨rfl, rfl, hahead rfl⟩, pure_eq_ok_iff.mpr ⟨rfl, rfl⟩⟩
    | some w =>
      obtain ⟨hdigits, hlt⟩ := hx w rfl
      refine ⟨_, q'.put [w.literal.token, w.closing.token],
        .inl ⟨w.opening, rfl, by simp [WidthTree.tokens]⟩, ?_⟩
      refine bind_eq_ok_iff.mpr ⟨_, q'.put [w.closing.token],
        expect_eq_ok_iff.mpr ⟨w.literal, rfl, by simp⟩, ?_⟩
      simp only [bitWidth?_eq_some_iff.mpr ⟨w.literal.toList_ne_nil, hdigits, rfl, hlt⟩]
      exact bind_eq_ok_iff.mpr ⟨_, q', expect_eq_ok_iff.mpr ⟨w.closing, rfl, rfl⟩,
        pure_eq_ok_iff.mpr ⟨rfl, rfl⟩⟩

theorem storage_eq (o : Option (Word .storage)) :
    (match o.map (·.token) with
      | some ⟨"reg", _⟩ => Storage.reg
      | _ => Storage.wire) = TailTree.storage o := by
  cases o with
  | none => rfl
  | some w =>
    obtain ⟨⟨text, pos⟩, hk⟩ := w
    simp only [Option.map_some, TailTree.storage]
    split
    · rename_i h
      simp only [Option.some.injEq, Token.mk.injEq] at h
      simp [h.1]
    · rename_i h
      have hne : text ≠ "reg" := fun ht => h pos (by rw [ht])
      simp [hne]

theorem signal_eq_ok_iff {construct : Construct} {s : Signal} :
    signal construct q = .ok (s, q') ↔ ∃ x : SignalTree, x.tail.Within ∧ q = q'.put x.tokens ∧
      s = x.value ∧ (x.tail.clock = none → q'.Ahead (· ≠ .atMark)) := by
  simp only [signal, bind_eq_ok_iff, accept_eq_ok_iff, width_eq_ok_iff, ident_eq_ok_iff, nextIs_eq_ok_iff]
  constructor
  · rintro ⟨o, q₁, hstorage, n, q₂, ⟨width, hwidth, rfl, rfl, -⟩, i, q₃, ⟨name, rfl, rfl⟩, b, q₄,
      ⟨rfl, hahead⟩, h⟩
    obtain ⟨storage, rfl, rfl⟩ : ∃ storage : Option (Word .storage), o = storage.map (·.token) ∧
        q = ((q₄.put [name.token]).put ((width.map WidthTree.tokens).getD [])).put
          (Word.optional storage) := by
      rcases hstorage with ⟨w, rfl, rfl⟩ | ⟨rfl, rfl, -⟩
      · exact ⟨some w, rfl, rfl⟩
      · exact ⟨none, rfl, rfl⟩
    -- the storage is matched on its text, and the match is the value of the tree
    have hvalue (c : Option ClockTree) := congrArg
      (fun st => Signal.mk name.ident ((width.map WidthTree.value).getD 1) st (c.map ClockTree.value))
      (storage_eq storage)
    cases b with
    | true =>
      obtain ⟨c, q₅, hclock, hpure⟩ := bind_eq_ok_iff.mp h
      obtain ⟨c, hc, rfl⟩ := map_eq_ok_iff.mp hclock
      obtain ⟨clock, rfl, rfl⟩ := clock_eq_ok_iff.mp hc
      obtain ⟨rfl, rfl⟩ := pure_eq_ok_iff.mp hpure
      exact ⟨⟨storage, width, name, some clock⟩, hwidth,
        by simp [SignalTree.tokens, TailTree.tokens], hvalue (some clock), by simp⟩
    | false =>
      obtain ⟨c, q₅, hclock, hpure⟩ := bind_eq_ok_iff.mp h
      obtain ⟨rfl, rfl⟩ := pure_eq_ok_iff.mp hclock
      obtain ⟨rfl, rfl⟩ := pure_eq_ok_iff.mp hpure
      refine ⟨⟨storage, width, name, none⟩, hwidth,
        by simp [SignalTree.tokens, TailTree.tokens], hvalue none, fun _ => ?_⟩
      obtain ⟨t, ht, hk⟩ := hahead
      exact ⟨t, ht, by simpa using hk⟩
  · rintro ⟨⟨storage, width, name, clock⟩, hwidth, rfl, rfl, hahead⟩
    let q₃ := q'.put ((clock.map ClockTree.tokens).getD [])
    let q₂ := q₃.put [name.token]
    let q₁ := q₂.put ((width.map WidthTree.tokens).getD [])
    refine ⟨storage.map (·.token), q₁, ?_, _, q₂, ⟨width, hwidth, rfl, rfl, ?_⟩, _, q₃, ⟨name, rfl, rfl⟩,
      clock.isSome, q₃, ⟨rfl, ?_⟩, ?_⟩
    · cases storage with
      | some w => exact .inl ⟨w, rfl, by simp [SignalTree.tokens, TailTree.tokens, Word.optional, q₁, q₂, q₃]⟩
      | none =>
        refine .inr ⟨rfl, by simp [SignalTree.tokens, TailTree.tokens, Word.optional, q₁, q₂, q₃], ?_⟩
        cases width with
        | none => simp [q₁, q₂, name.kind_eq]
        | some w => simp [q₁, WidthTree.tokens, w.opening.kind_eq]
    · simp [q₂, name.kind_eq]
    · cases clock with
      | none =>
        obtain ⟨t, ht, hk⟩ := hahead rfl
        exact ⟨t, ht, by simpa using hk⟩
      | some c => simp [q₃, ClockTree.tokens, c.mark.kind_eq]
    · have hvalue := congrArg
        (fun st => Signal.mk name.ident ((width.map WidthTree.value).getD 1) st (clock.map ClockTree.value))
        (storage_eq storage)
      cases clock with
      | none =>
        exact bind_eq_ok_iff.mpr ⟨none, q', pure_eq_ok_iff.mpr ⟨rfl, rfl⟩,
          pure_eq_ok_iff.mpr ⟨hvalue.symm, rfl⟩⟩
      | some c =>
        refine bind_eq_ok_iff.mpr ⟨some c.value, q', ?_, pure_eq_ok_iff.mpr ⟨hvalue.symm, rfl⟩⟩
        exact map_eq_ok_iff.mpr ⟨_, clock_eq_ok_iff.mpr ⟨c, rfl, rfl⟩, rfl⟩

theorem text_of_direction {text : String} (h : Token.Kind.ofText text = .direction) :
    text = "in" ∨ text = "out" ∨ text = "inout" := by
  have hall : ∀ p ∈ reserved, p.2 = .direction → p.1 = "in" ∨ p.1 = "out" ∨ p.1 = "inout" := by decide
  rcases ofText_cases text with hreserved | hfirst
  · exact hall _ hreserved h
  · rw [hfirst] at h
    rcases ofFirst_cases text.toList with hk | hk | hk <;> rw [hk] at h <;> cases h

/-- A port begins with a word that has the kind of a direction. -/
theorem port_eq : port = (do
    let token ← next
    if token.kind = .direction then return ⟨← signal .port, PortTree.directionOf token.text⟩
    else fail (.unexpected .port token [.direction]) : Reader Port) := by
  unfold port
  congr 1
  funext token
  obtain ⟨text, pos⟩ := token
  -- the three texts of the kind first; any other text has another kind
  by_cases hk : (Token.mk text pos).kind = .direction
  · rw [if_pos hk]
    rcases text_of_direction hk with rfl | rfl | rfl <;> rfl
  · rw [if_neg hk]
    split
    · rename_i h; subst h; exact absurd rfl hk
    · rename_i h; subst h; exact absurd rfl hk
    · rename_i h; subst h; exact absurd rfl hk
    · rfl

theorem port_eq_ok_iff {p : Port} :
    port q = .ok (p, q') ↔ ∃ x : PortTree, x.signal.tail.Within ∧ q = q'.put x.tokens ∧
      p = x.value ∧ (x.signal.tail.clock = none → q'.Ahead (· ≠ .atMark)) := by
  simp only [port_eq, bind_eq_ok_iff, next_eq_ok_iff]
  constructor
  · rintro ⟨token, q₁, rfl, h⟩
    split at h
    · rename_i hk
      obtain ⟨s, q₂, hs, hpure⟩ := bind_eq_ok_iff.mp h
      obtain ⟨x, hx, rfl, rfl, hahead⟩ := signal_eq_ok_iff.mp hs
      obtain ⟨rfl, rfl⟩ := pure_eq_ok_iff.mp hpure
      exact ⟨⟨⟨token, hk⟩, x⟩, hx, by simp [PortTree.tokens], rfl, hahead⟩
    · exact absurd h fail_ne_ok
  · rintro ⟨x, hx, rfl, rfl, hahead⟩
    refine ⟨x.direction.token, q'.put x.signal.tokens, by simp [PortTree.tokens], ?_⟩
    rw [if_pos x.direction.kind_eq]
    exact bind_eq_ok_iff.mpr ⟨_, q', signal_eq_ok_iff.mpr ⟨x.signal, hx, rfl, rfl, hahead⟩,
      pure_eq_ok_iff.mpr ⟨rfl, rfl⟩⟩

end Reader

end Gateware

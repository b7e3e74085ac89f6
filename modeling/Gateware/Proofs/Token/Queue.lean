import Mathlib.Data.List.TakeDrop
import Gateware.Proofs.Token.Split

/- A stream of tokens answers as a plain queue that holds all tokens of the text from the start.

   The stream reads on demand and keeps at most one token, so what it has still to give is that
   token and those that the lexer gives up to the end. This file

   1. defines the queue (`front`, `serve`, `serveAll`) and what requests take from it;
   2. says that a queue holds what a stream has still to give (`Holds`);
   3. proves that every request is answered from the front of the queue and keeps the two in step
      (`Holds.serve`), also after the end, where the lexer is asked again and stays where it is;
   4. concludes, by induction on the requests, that no requests tell the stream and the queue
      apart, whatever was asked before (`stream_refines_queue`). -/
namespace Gateware

/-! ## The queue -/

namespace TokenQueue

/-- The first token, or the failure at the position where the tokens end. -/
def front (q : TokenQueue) : Except EndOfInput Token :=
  match q.pending with
  | [] => .error ⟨q.stop⟩
  | t :: _ => .ok t

/-- Serves one request. Only `next` takes a token. -/
def serve (q : TokenQueue) : TokenStream.Request → TokenStream.Answer × TokenQueue
  | .peek => (.token q.front, q)
  | .next => (.token q.front, ⟨q.pending.tail, q.stop⟩)
  | .hasMore => (.more (!q.pending.isEmpty), q)

def serveAll (q : TokenQueue) : List TokenStream.Request → List TokenStream.Answer
  | [] => []
  | r :: rs => (q.serve r).1 :: (q.serve r).2.serveAll rs

/-- The queue after requests: each `next` has taken a token, as long as there were any. -/
theorem foldl_serve (q : TokenQueue) (rs : List TokenStream.Request) :
    rs.foldl (fun q r => (q.serve r).2) q = ⟨q.pending.drop (rs.count .next), q.stop⟩ := by
  induction rs generalizing q with
  | nil => rfl
  | cons r rs ih =>
    rw [List.foldl_cons, ih]
    cases r with
    | peek => simp [serve]
    | hasMore => simp [serve]
    | next => simp [serve, List.drop_tail]

end TokenQueue

namespace TokenStream

def after (s : TokenStream) (rs : List Request) : TokenStream := rs.foldl (fun s r => (s.serve r).2) s

/-- The tokens that the requests take, in order. -/
def taken (s : TokenStream) : List Request → List Token
  | [] => []
  | .next :: rs => s.next.1.toOption.toList ++ s.next.2.taken rs
  | .peek :: rs => s.peek.2.taken rs
  | .hasMore :: rs => s.hasMore.2.taken rs

/-- No requests tell the two streams apart. -/
def Alike (s s' : TokenStream) : Prop := ∀ rs, s.serveAll rs = s'.serveAll rs

/-- What is answered when no token is left. -/
def atEnd (stop : Position) : Request → Answer
  | .peek | .next => .token (.error ⟨stop⟩)
  | .hasMore => .more false

/-! ## What a stream has still to give -/

/-- The queue has the token that was looked at, then the tokens that the lexer gives until it
has come to the end. -/
def Holds (s : TokenStream) (q : TokenQueue) : Prop :=
  ∃ ts l', Lexer.Reads s.lexer ts l' ∧ l'.next? = none ∧ q = ⟨s.ahead.toList ++ ts, l'.stop⟩

theorem holds_ofSource (source : String) : (ofSource source).Holds (.ofSource source) := by
  obtain ⟨ts, l', hreads, hend⟩ := Lexer.exists_reads (Lexer.ofSource source)
  refine ⟨ts, l', hreads, hend, ?_⟩
  rw [TokenQueue.ofSource, Lexer.tokens_eq_of_reads hreads hend]
  rfl

/-- Behind the last token the lexer leaves out the last gap, and then stays where it is. -/
theorem skip_of_next?_eq_none {l : Lexer} (h : l.next? = none) : l.skip = ⟨l.stop, []⟩ := by
  unfold Lexer.next? at h
  split at h
  · rename_i pos hskip
    rw [Lexer.stop, hskip]
  · cases h

section
variable {s : TokenStream} {q : TokenQueue}

/-- Reading ahead changes nothing in what is to come, and puts its first token into the place
for it. Without a token the lexer stands at the end. -/
theorem Holds.fill (h : s.Holds q) :
    s.fill.Holds q ∧ s.fill.ahead = q.pending.head? ∧ (q.pending = [] → s.fill.lexer.pos = q.stop) := by
  obtain ⟨l, ahead⟩ := s
  obtain ⟨ts, l', hreads, hend, rfl⟩ := h
  cases ahead with
  | some t => exact ⟨⟨ts, l', hreads, hend, rfl⟩, rfl, fun hnil => by cases hnil⟩
  | none =>
    cases hreads with
    | @cons _ l₁ _ t ts hnext hs =>
      have hfill : TokenStream.fill ⟨l, none⟩ = ⟨l₁, some t⟩ := by simp only [TokenStream.fill, hnext]
      rw [hfill]
      exact ⟨⟨ts, l', hs, hend, rfl⟩, rfl, fun hnil => by cases hnil⟩
    | nil =>
      have hfill : TokenStream.fill ⟨l, none⟩ = ⟨⟨l.stop, []⟩, none⟩ := by
        simp only [TokenStream.fill, hend, skip_of_next?_eq_none hend]
      rw [hfill]
      exact ⟨⟨[], ⟨l.stop, []⟩, .nil _, rfl, rfl⟩, rfl, fun _ => rfl⟩

/-- The stream without the token that was looked at, which is the first one of the queue. -/
theorem Holds.take (h : s.Holds q) {t : Token} (ht : s.ahead = some t) :
    Holds { s with ahead := none } ⟨q.pending.tail, q.stop⟩ := by
  obtain ⟨ts, l', hreads, hend, rfl⟩ := h
  refine ⟨ts, l', hreads, hend, ?_⟩
  simp [ht]

theorem Holds.peek (h : s.Holds q) : s.peek.1 = q.front ∧ s.peek.2.Holds q := by
  obtain ⟨hfill, hahead, hstop⟩ := h.fill
  unfold TokenStream.peek TokenQueue.front
  cases hq : q.pending with
  | nil =>
    rw [hq] at hahead
    simp only [hahead, hstop hq, List.head?_nil]
    exact ⟨trivial, hfill⟩
  | cons t ts =>
    rw [hq] at hahead
    simp only [hahead, List.head?_cons]
    exact ⟨trivial, hfill⟩

theorem Holds.next (h : s.Holds q) : s.next.1 = q.front ∧ s.next.2.Holds ⟨q.pending.tail, q.stop⟩ := by
  obtain ⟨hfill, hahead, hstop⟩ := h.fill
  unfold TokenStream.next TokenQueue.front
  cases hq : q.pending with
  | nil =>
    rw [hq] at hahead
    simp only [hahead, hstop hq, List.head?_nil]
    obtain ⟨pending, stop⟩ := q
    obtain rfl : pending = [] := hq
    exact ⟨trivial, hfill⟩
  | cons t ts =>
    have htake := hfill.take (hahead.trans (by rw [hq]; rfl))
    rw [hq] at hahead htake
    simp only [hahead, List.head?_cons]
    exact ⟨trivial, htake⟩

theorem Holds.hasMore (h : s.Holds q) : s.hasMore.1 = !q.pending.isEmpty ∧ s.hasMore.2.Holds q := by
  obtain ⟨hfill, hahead, -⟩ := h.fill
  refine ⟨?_, hfill⟩
  show s.fill.ahead.isSome = _
  rw [hahead]
  cases q.pending <;> rfl

/-- A request is answered from the queue, and what is left is what the queue has left. -/
theorem Holds.serve (h : s.Holds q) (r : Request) :
    (s.serve r).1 = (q.serve r).1 ∧ (s.serve r).2.Holds (q.serve r).2 := by
  cases r with
  | peek => exact ⟨congrArg Answer.token h.peek.1, h.peek.2⟩
  | next => exact ⟨congrArg Answer.token h.next.1, h.next.2⟩
  | hasMore => exact ⟨congrArg Answer.more h.hasMore.1, h.hasMore.2⟩

theorem Holds.serveAll (h : s.Holds q) (rs : List Request) : s.serveAll rs = q.serveAll rs := by
  induction rs generalizing s q with
  | nil => rfl
  | cons r rs ih =>
    obtain ⟨hanswer, hafter⟩ := h.serve r
    show (s.serve r).1 :: (s.serve r).2.serveAll rs = (q.serve r).1 :: (q.serve r).2.serveAll rs
    rw [hanswer, ih hafter]

/-- After requests the stream has all but the tokens that were taken. -/
theorem Holds.after (h : s.Holds q) (rs : List Request) :
    (s.after rs).Holds ⟨q.pending.drop (rs.count .next), q.stop⟩ := by
  rw [← TokenQueue.foldl_serve]
  induction rs generalizing s q with
  | nil => exact h
  | cons r rs ih => exact ih (h.serve r).2

/-- Streams with the same tokens to come are alike. -/
theorem Holds.alike {s' : TokenStream} (h : s.Holds q) (h' : s'.Holds q) : s.Alike s' := by
  intro rs
  rw [h.serveAll, h'.serveAll]

theorem Holds.taken (h : s.Holds q) (rs : List Request) : s.taken rs = q.pending.take (rs.count .next) := by
  induction rs generalizing s q with
  | nil => rfl
  | cons r rs ih =>
    cases r with
    | peek => simpa [TokenStream.taken] using ih h.peek.2
    | hasMore => simpa [TokenStream.taken] using ih h.hasMore.2
    | next =>
      rw [TokenStream.taken, h.next.1, ih h.next.2, TokenQueue.front]
      cases q.pending <;> simp [Except.toOption]

theorem serveAll_atEnd (stop : Position) (rs : List Request) :
    TokenQueue.serveAll ⟨[], stop⟩ rs = rs.map (atEnd stop) := by
  induction rs with
  | nil => rfl
  | cons r rs ih => cases r <;> exact congrArg (List.cons _) ih

end

end TokenStream

/-- A stream of tokens is a queue of those that the lexer gives one after another until it has
come to the end, which is the end of the text. Whatever was asked before: the requests took the
first tokens in order; to look at the next token gives what is taken next, and to ask whether
there is one tells whether it can be taken, and both change nothing that later requests could
see; and when the tokens are used up, every request fails at the end of the text. -/
theorem stream_refines_queue (source : String) (rs : List TokenStream.Request) :
    let ts := (Lexer.ofSource source).tokens.1
    let stop := Position.after source.toList
    let s := (TokenStream.ofSource source).after rs
    (∃ l', Lexer.Reads (Lexer.ofSource source) ts l' ∧ l'.next? = none ∧ l'.stop = stop) ∧
    (TokenStream.ofSource source).serveAll rs = TokenQueue.serveAll ⟨ts, stop⟩ rs ∧
    (TokenStream.ofSource source).taken rs = ts.take (rs.count .next) ∧
    (s.peek.2.next.1 = s.peek.1 ∧ s.peek.2.Alike s) ∧
    ((s.hasMore.1 = true ↔ ∃ t, s.hasMore.2.next.1 = .ok t) ∧ s.hasMore.2.Alike s) ∧
    ((TokenStream.ofSource source).taken rs = ts → ∀ rs', s.serveAll rs' = rs'.map (TokenStream.atEnd stop)) := by
  intro ts stop s
  obtain ⟨ts', l', hreads, hend⟩ := Lexer.exists_reads (Lexer.ofSource source)
  obtain ⟨_, _, -, -, -, -, hstop⟩ := Lexer.exists_pieces [] hreads Position.after_nil.symm hend
  change l'.stop = stop at hstop
  have htokens : (Lexer.ofSource source).tokens = (ts', stop) := by
    rw [Lexer.tokens_eq_of_reads hreads hend, hstop]
  obtain rfl : ts = ts' := congrArg Prod.fst htokens
  have hqueue : TokenQueue.ofSource source = ⟨ts, stop⟩ := by rw [TokenQueue.ofSource, htokens]
  have hsource : (TokenStream.ofSource source).Holds ⟨ts, stop⟩ := hqueue ▸ TokenStream.holds_ofSource source
  have hs : s.Holds ⟨ts.drop (rs.count .next), stop⟩ := hsource.after rs
  refine ⟨⟨l', hreads, hend, hstop⟩, hsource.serveAll rs, hsource.taken rs, ⟨?_, hs.peek.2.alike hs⟩,
    ⟨?_, hs.hasMore.2.alike hs⟩, ?_⟩
  · rw [hs.peek.2.next.1, hs.peek.1]
  · rw [hs.hasMore.1, hs.hasMore.2.next.1, TokenQueue.front]
    cases ts.drop (rs.count .next) <;> simp
  · intro hused rs'
    rw [hsource.taken, List.take_eq_self_iff] at hused
    rw [hs.serveAll, List.drop_eq_nil_of_le hused]
    exact TokenStream.serveAll_atEnd stop rs'

/-- A token that is looked at and taken, and then nothing but a comment. -/
theorem stream_before_comment :
    (TokenStream.ofSource "a // b").taken [.peek, .next, .hasMore] = [⟨"a", ⟨1, 1⟩⟩] ∧
    ∀ rs, ((TokenStream.ofSource "a // b").after [.peek, .next, .hasMore]).serveAll rs =
      rs.map (TokenStream.atEnd ⟨1, 7⟩) := by
  have htokens : (Lexer.ofSource "a // b").tokens.1 = [⟨"a", ⟨1, 1⟩⟩] := by decide +kernel
  obtain ⟨-, -, htaken, -, -, hend⟩ := stream_refines_queue "a // b" [.peek, .next, .hasMore]
  rw [htokens] at htaken hend
  exact ⟨htaken, hend htaken⟩

end Gateware

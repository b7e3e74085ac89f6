import Gateware.Proofs.Grammar.Expression

/- When the steps of a reader succeed.

   Each step takes tokens from the front of a queue, so its success is said of the queue that it
   leaves: `q.put ts` is the queue `q` with the tokens `ts` in front of it again. This file

   1. takes sequences of steps apart (`bind_eq_ok_iff`, `pure_eq_ok_iff`, `map_eq_ok_iff`);
   2. gives one equivalence for each elementary step: taking a token, looking at one, expecting
      and accepting a kind (`next_eq_ok_iff` to `accept_eq_ok_iff`); what a step only looks at
      stays ahead (`Ahead`);
   3. restates the reader of expressions in this form (`expression_eq_ok_iff`).

   All equivalences are about success; what a failing step reports is the subject of
   `Reading.Locality`. -/
namespace Gateware

/-- The queue with tokens in front of it. -/
def TokenQueue.put (q : TokenQueue) (ts : List Token) : TokenQueue := ⟨ts ++ q.pending, q.stop⟩

/-- There is a next token, and its kind has a property. -/
def TokenQueue.Ahead (q : TokenQueue) (p : Token.Kind → Prop) : Prop :=
  ∃ t, q.pending.head? = some t ∧ p t.kind

namespace TokenQueue

@[simp] theorem put_put (q : TokenQueue) (ts us : List Token) : (q.put ts).put us = q.put (us ++ ts) := by
  simp [put]

@[simp] theorem pending_put (q : TokenQueue) (ts : List Token) : (q.put ts).pending = ts ++ q.pending := rfl

@[simp] theorem ahead_put_cons (q : TokenQueue) (t : Token) (ts : List Token) (p : Token.Kind → Prop) :
    (q.put (t :: ts)).Ahead p ↔ p t.kind := by
  simp [put, Ahead]

end TokenQueue

namespace Reader
open Grammar
variable {α β : Type} {q q' : TokenQueue}

theorem bind_eq_ok_iff {x : Reader α} {f : α → Reader β} {b : β} :
    (x >>= f) q = .ok (b, q') ↔ ∃ a q₁, x q = .ok (a, q₁) ∧ f a q₁ = .ok (b, q') := by
  show Except.bind (x q) (fun y => f y.1 y.2) = _ ↔ _
  cases x q with
  | error e => simp [Except.bind]
  | ok y =>
    obtain ⟨a, q₁⟩ := y
    refine ⟨fun h => ⟨a, q₁, rfl, h⟩, ?_⟩
    rintro ⟨a', q₁', h, h'⟩
    cases h
    exact h'

theorem pure_eq_ok_iff {a b : α} : (pure a : Reader α) q = .ok (b, q') ↔ b = a ∧ q' = q := by
  show Except.ok (a, q) = _ ↔ _
  simp only [Except.ok.injEq, Prod.mk.injEq]
  exact and_congr eq_comm eq_comm

theorem map_eq_ok_iff {f : α → β} {x : Reader α} {b : β} :
    (f <$> x) q = .ok (b, q') ↔ ∃ a, x q = .ok (a, q') ∧ b = f a := by
  show ((x >>= fun a => pure (f a)) : Reader β) q = _ ↔ _
  simp only [bind_eq_ok_iff, pure_eq_ok_iff]
  constructor
  · rintro ⟨a, q₁, h, rfl, rfl⟩; exact ⟨a, h, rfl⟩
  · rintro ⟨a, h, rfl⟩; exact ⟨a, q', h, rfl, rfl⟩

@[simp] theorem fail_ne_ok {e : SyntaxError} {a : α} : ¬(fail e : Reader α) q = .ok (a, q') := by
  simp [fail]

theorem next_eq_ok_iff {t : Token} : next q = .ok (t, q') ↔ q = q'.put [t] := by
  obtain ⟨pending, stop⟩ := q
  obtain ⟨pending', stop'⟩ := q'
  cases pending with
  | nil => simp [next, TokenQueue.put]
  | cons first rest => simp [next, TokenQueue.put, and_assoc]

theorem peek_eq_ok_iff {t : Token} : peek q = .ok (t, q') ↔ q' = q ∧ q.pending.head? = some t := by
  obtain ⟨pending, stop⟩ := q
  cases pending with
  | nil => simp [peek]
  | cons first rest =>
    simp only [peek, Except.ok.injEq, Prod.mk.injEq, List.head?_cons, Option.some.injEq]
    exact ⟨fun h => ⟨h.2.symm, h.1⟩, fun h => ⟨h.2, h.1.symm⟩⟩

@[simp] theorem refuse_ne_ok {construct : Construct} {expected : List Token.Kind} {a : α} :
    ¬(refuse construct expected : Reader α) q = .ok (a, q') := by
  simp [refuse, bind_eq_ok_iff]

theorem nextIs_eq_ok_iff {kind : Token.Kind} {b : Bool} :
    nextIs kind q = .ok (b, q') ↔ q' = q ∧ q.Ahead (fun k => b = (k == kind)) := by
  simp only [nextIs, bind_eq_ok_iff, peek_eq_ok_iff, pure_eq_ok_iff, TokenQueue.Ahead]
  constructor
  · rintro ⟨t, q₁, ⟨rfl, ht⟩, rfl, rfl⟩; exact ⟨rfl, t, ht, rfl⟩
  · rintro ⟨rfl, t, ht, rfl⟩; exact ⟨t, q', ⟨rfl, ht⟩, rfl, rfl⟩

theorem expect_eq_ok_iff {kind : Token.Kind} {construct : Construct} {t : Token} :
    expect kind construct q = .ok (t, q') ↔ ∃ w : Word kind, t = w.token ∧ q = q'.put [w.token] := by
  simp only [expect, bind_eq_ok_iff, next_eq_ok_iff]
  constructor
  · rintro ⟨token, q₁, rfl, h⟩
    split at h
    · rename_i hk
      obtain ⟨rfl, rfl⟩ := pure_eq_ok_iff.mp h
      exact ⟨⟨t, hk⟩, rfl, rfl⟩
    · exact absurd h fail_ne_ok
  · rintro ⟨w, rfl, rfl⟩
    refine ⟨w.token, q', rfl, ?_⟩
    rw [if_pos w.kind_eq]
    exact pure_eq_ok_iff.mpr ⟨rfl, rfl⟩

theorem accept_eq_ok_iff {kind : Token.Kind} {o : Option Token} :
    accept kind q = .ok (o, q') ↔
      (∃ w : Word kind, o = some w.token ∧ q = q'.put [w.token]) ∨
      (o = none ∧ q = q' ∧ q'.Ahead (· ≠ kind)) := by
  simp only [accept, bind_eq_ok_iff, nextIs_eq_ok_iff]
  constructor
  · rintro ⟨b, q₁, ⟨rfl, t, ht, rfl⟩, h⟩
    split at h
    · rename_i hk
      obtain ⟨token, q₂, hnext, hpure⟩ := bind_eq_ok_iff.mp h
      obtain rfl := next_eq_ok_iff.mp hnext
      obtain ⟨rfl, rfl⟩ := pure_eq_ok_iff.mp hpure
      obtain rfl : token = t := by simpa [TokenQueue.put] using ht
      exact .inl ⟨⟨token, by simpa using hk⟩, rfl, rfl⟩
    · rename_i hk
      obtain ⟨rfl, rfl⟩ := pure_eq_ok_iff.mp h
      exact .inr ⟨rfl, rfl, t, ht, by simpa using hk⟩
  · rintro (⟨w, rfl, rfl⟩ | ⟨rfl, rfl, t, ht, hk⟩)
    · refine ⟨true, _, ⟨rfl, w.token, rfl, by simp [w.kind_eq]⟩, ?_⟩
      rw [if_pos rfl]
      exact bind_eq_ok_iff.mpr ⟨w.token, q', next_eq_ok_iff.mpr rfl, pure_eq_ok_iff.mpr ⟨rfl, rfl⟩⟩
    · refine ⟨false, q, ⟨rfl, t, ht, by simpa using hk⟩, ?_⟩
      exact pure_eq_ok_iff.mpr ⟨rfl, rfl⟩

/-- Reading an expression succeeds exactly on the tokens of a proper term within the
limit on heights, with no operator after them. -/
theorem expression_eq_ok_iff {e : Expr} :
    expression q = .ok (e, q') ↔
      ∃ t : Term, t.Proper ∧ t.height ≤ Rpn.maxHeight ∧ EndsBefore q'.pending ∧
        q = q'.put t.tokens ∧ e = t.toExpr := by
  constructor
  · intro h
    obtain ⟨t, ht, hheight, hpending, hend, hstop, rfl⟩ := expression_sound h
    exact ⟨t, ht, hheight, hend, by cases q; simp_all [TokenQueue.put], rfl⟩
  · rintro ⟨t, ht, hheight, hend, rfl, rfl⟩
    exact expression_tokens ht hheight hend q'.stop

end Reader

end Gateware

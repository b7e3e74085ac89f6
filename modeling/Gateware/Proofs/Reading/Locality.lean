import Gateware.Proofs.Grammar.Module

/- What a reader looks at.

   A reader takes tokens from the front of its queue and looks at most at one token more, so
   nothing behind that token has a part in its result. This file

   1. says so of a value and of an error (`Local`): an error is either the end of the tokens, or
      it is accounted for by the tokens that were looked at (`SyntaxError.StandsIn`), and it
      stays the same whatever follows them;
   2. proves that steps in a row are local if each of them is (`Local.bind`), also where what
      follows a token depends on it (`local_next`, `local_peek`);
   3. removes the budgets: a loop with a budget that is large enough goes round without one
      (`Rounds.pending_eq`), which gives the equations of the two loops of the reader
      (`stmtRounds_eq`, `portRounds_eq`);
   4. concludes that all readers are local, from expressions up to modules (`local_module`). -/
namespace Gateware

/-- The tokens that were looked at account for an error: the last of them does not fit, or
one of them stands where the error is reported. No tokens account for the end of the text,
and expressions are never malformed. -/
def SyntaxError.StandsIn (seen : List Token) : SyntaxError → Prop
  | .unexpected _ received _ => seen.getLast? = some received
  | .malformedWidth token => seen.getLast? = some token
  | .tooDeep pos => ∃ t ∈ seen, t.pos = pos
  | .endOfInput _ | .malformedExpression _ => False

namespace SyntaxError.StandsIn
variable {seen : List Token} {e : SyntaxError}

theorem ne_nil (h : e.StandsIn seen) : seen ≠ [] := by
  intro hnil
  subst hnil
  cases e <;> simp [StandsIn] at h

theorem append_left (h : e.StandsIn seen) (before : List Token) : e.StandsIn (before ++ seen) := by
  cases e with
  | unexpected construct received expected =>
    show (before ++ seen).getLast? = some received
    rw [List.getLast?_append, show seen.getLast? = some received from h]
    rfl
  | malformedWidth token =>
    show (before ++ seen).getLast? = some token
    rw [List.getLast?_append, show seen.getLast? = some token from h]
    rfl
  | tooDeep pos =>
    obtain ⟨t, ht, hpos⟩ := h
    exact ⟨t, List.mem_append_right before ht, hpos⟩
  | endOfInput => exact h
  | malformedExpression => exact h

end SyntaxError.StandsIn

/-- What begins a list still begins it when the rest changes behind the first token. -/
theorem take_one_append {u v w : List Token} (h : v.take 1 <+: w) : (u ++ v).take 1 <+: u ++ w := by
  cases u with
  | nil => exact h
  | cons t u => exact ⟨u ++ w, rfl⟩

theorem take_one_append_of_ne_nil {u : List Token} (hu : u ≠ []) (v w : List Token) :
    (u ++ v).take 1 <+: u ++ w := by
  cases u with
  | nil => exact absurd rfl hu
  | cons t u => exact ⟨u ++ w, rfl⟩

namespace Reader
open Grammar
variable {α β : Type}

theorem bind_of_ok {x : Reader α} {f : α → Reader β} {q q₁ : TokenQueue} {a : α} (h : x q = .ok (a, q₁)) :
    (x >>= f) q = f a q₁ := by
  show Except.bind (x q) (fun y => f y.1 y.2) = _
  rw [h]
  rfl

theorem bind_of_error {x : Reader α} {f : α → Reader β} {q : TokenQueue} {e : SyntaxError}
    (h : x q = .error e) : (x >>= f) q = .error e := by
  show Except.bind (x q) (fun y => f y.1 y.2) = _
  rw [h]
  rfl

theorem bind_eq_error_iff {x : Reader α} {f : α → Reader β} {q : TokenQueue} {e : SyntaxError} :
    (x >>= f) q = .error e ↔ x q = .error e ∨ ∃ a q₁, x q = .ok (a, q₁) ∧ f a q₁ = .error e := by
  cases hx : x q with
  | error e' => simp [bind_of_error hx]
  | ok y =>
    obtain ⟨a, q₁⟩ := y
    rw [bind_of_ok hx]
    constructor
    · intro h
      exact .inr ⟨a, q₁, rfl, h⟩
    · intro h
      rcases h with h | ⟨a', q₁', hok, h⟩
      · cases h
      · cases hok
        exact h

/-! ## Local readers -/

/-- The result of a reader on some tokens depends on those that it takes and on one more. -/
structure LocalAt (r : Reader α) (ts : List Token) : Prop where
  ok {stop : Position} {a : α} {q : TokenQueue} (h : r ⟨ts, stop⟩ = .ok (a, q)) :
    q.stop = stop ∧ ∃ taken, ts = taken ++ q.pending ∧
      ∀ rest stop', q.pending.take 1 <+: rest → r ⟨taken ++ rest, stop'⟩ = .ok (a, ⟨rest, stop'⟩)
  error {stop : Position} {e : SyntaxError} (h : r ⟨ts, stop⟩ = .error e) :
    e = .endOfInput ⟨stop⟩ ∨ ∃ seen rest, ts = seen ++ rest ∧ e.StandsIn seen ∧
      ∀ rest' stop', r ⟨seen ++ rest', stop'⟩ = .error e

/-- The result of a reader depends on the tokens it takes and on one more. -/
def Local (r : Reader α) : Prop := ∀ ts, LocalAt r ts

theorem local_pure (a : α) : Local (pure a : Reader α) := by
  intro ts
  constructor
  · intro stop b q h
    obtain ⟨rfl, rfl⟩ := pure_eq_ok_iff.mp h
    exact ⟨rfl, [], rfl, fun rest stop' _ => rfl⟩
  · intro stop e h
    cases h

/-- Running out of tokens is local. -/
theorem localAt_of_endOfInput {r : Reader α} {ts : List Token}
    (h : ∀ stop, r ⟨ts, stop⟩ = .error (.endOfInput ⟨stop⟩)) : LocalAt r ts := by
  constructor
  · intro stop a q ha
    rw [h] at ha
    cases ha
  · intro stop e he
    rw [h] at he
    exact .inl (Except.error.inj he).symm

theorem LocalAt.bind {x : Reader α} {f : α → Reader β} {ts : List Token} (hx : LocalAt x ts)
    (hf : ∀ {stop a q}, x ⟨ts, stop⟩ = .ok (a, q) → LocalAt (f a) q.pending) : LocalAt (x >>= f) ts := by
  constructor
  · intro stop b q h
    obtain ⟨a, ⟨ts₁, stop₁⟩, hxa, hfb⟩ := bind_eq_ok_iff.mp h
    obtain ⟨hstop, taken, hts, hstable⟩ := hx.ok hxa
    obtain ⟨hstop', taken', hts₁, hstable'⟩ := (hf hxa).ok hfb
    dsimp only at hstop hts hts₁
    subst hstop hts hts₁
    refine ⟨hstop', taken ++ taken', by simp, ?_⟩
    intro rest stop' hrest
    rw [List.append_assoc, bind_of_ok (hstable _ stop' (take_one_append hrest))]
    exact hstable' rest stop' hrest
  · intro stop e h
    rcases bind_eq_error_iff.mp h with hxe | ⟨a, ⟨ts₁, stop₁⟩, hxa, hfe⟩
    · rcases hx.error hxe with heof | ⟨seen, rest, hts, he, hstable⟩
      · exact .inl heof
      · exact .inr ⟨seen, rest, hts, he, fun rest' stop' => bind_of_error (hstable rest' stop')⟩
    · obtain ⟨hstop, taken, hts, hstable⟩ := hx.ok hxa
      have herror := (hf hxa).error hfe
      dsimp only at hstop hts herror
      subst hstop hts
      rcases herror with heof | ⟨seen, rest, hts₁, he, hstable'⟩
      · exact .inl heof
      · -- the second step fails at tokens of its own, and the first one looks at most at one of them
        subst hts₁
        refine .inr ⟨taken ++ seen, rest, by simp, he.append_left taken, ?_⟩
        intro rest' stop'
        rw [List.append_assoc, bind_of_ok (hstable _ stop' (take_one_append_of_ne_nil he.ne_nil rest rest'))]
        exact hstable' rest' stop'

theorem Local.bind {x : Reader α} {f : α → Reader β} (hx : Local x) (hf : ∀ a, Local (f a)) :
    Local (x >>= f) :=
  fun ts => (hx ts).bind fun _ => hf _ _

theorem Local.map {x : Reader α} (hx : Local x) (f : α → β) : Local (f <$> x) :=
  hx.bind fun a => local_pure (f a)

/-- What goes on from a token, or fails at it. -/
def LocalFrom (t : Token) (r : Reader α) (ts : List Token) : Prop :=
  LocalAt r ts ∨ ∃ e, r = fail e ∧ e.StandsIn [t]

/-- Taking a token and going on from it. -/
theorem localAt_next {f : Token → Reader α} {ts : List Token}
    (hf : ∀ {t ts'}, ts = t :: ts' → LocalFrom t (f t) ts') : LocalAt (next >>= f) ts := by
  cases ts with
  | nil => exact localAt_of_endOfInput fun _ => rfl
  | cons t ts =>
    constructor
    · intro stop a q h
      have ha : f t ⟨ts, stop⟩ = .ok (a, q) := h
      rcases hf rfl with hlocal | ⟨e, hfail, -⟩
      · obtain ⟨hstop, taken, hts, hstable⟩ := hlocal.ok ha
        exact ⟨hstop, t :: taken, congrArg (t :: ·) hts, fun rest stop' hrest => hstable rest stop' hrest⟩
      · rw [hfail] at ha
        exact absurd ha fail_ne_ok
    · intro stop e h
      have ha : f t ⟨ts, stop⟩ = .error e := h
      rcases hf rfl with hlocal | ⟨e', hfail, he'⟩
      · rcases hlocal.error ha with heof | ⟨seen, rest, hts, he, hstable⟩
        · exact .inl heof
        · exact .inr ⟨t :: seen, rest, congrArg (t :: ·) hts, he.append_left [t], hstable⟩
      · rw [hfail] at ha
        obtain rfl := Except.error.inj ha
        refine .inr ⟨[t], ts, rfl, he', ?_⟩
        intro rest' stop'
        show f t ⟨rest', stop'⟩ = _
        rw [hfail]
        rfl

theorem local_next {f : Token → Reader α} (hf : ∀ t ts, LocalFrom t (f t) ts) : Local (next >>= f) :=
  fun _ => localAt_next fun _ => hf _ _

/-- Looking at a token and going on with it still in the queue. -/
theorem local_peek {f : Token → Reader α} (hf : ∀ t ts, LocalFrom t (f t) ts) : Local (peek >>= f) := by
  intro ts
  cases ts with
  | nil => exact localAt_of_endOfInput fun _ => rfl
  | cons t ts =>
    constructor
    · intro stop a q h
      have ha : f t ⟨t :: ts, stop⟩ = .ok (a, q) := h
      rcases hf t (t :: ts) with hlocal | ⟨e, hfail, -⟩
      · obtain ⟨hstop, taken, hts, hstable⟩ := hlocal.ok ha
        refine ⟨hstop, taken, hts, ?_⟩
        intro rest stop' hrest
        -- the first token is still the one that was looked at
        obtain ⟨others, hothers⟩ : [t] <+: taken ++ rest := by
          have hfirst := take_one_append (u := taken) hrest
          rwa [← hts] at hfirst
        have ha' := hstable rest stop' hrest
        rw [← hothers] at ha' ⊢
        exact ha'
      · rw [hfail] at ha
        exact absurd ha fail_ne_ok
    · intro stop e h
      have ha : f t ⟨t :: ts, stop⟩ = .error e := h
      rcases hf t (t :: ts) with hlocal | ⟨e', hfail, he'⟩
      · rcases hlocal.error ha with heof | ⟨seen, rest, hts, he, hstable⟩
        · exact .inl heof
        · refine .inr ⟨seen, rest, hts, he, ?_⟩
          intro rest' stop'
          obtain ⟨others, hothers⟩ : [t] <+: seen ++ rest' := by
            have hfirst := take_one_append_of_ne_nil he.ne_nil rest rest'
            rwa [← hts] at hfirst
          have ha' := hstable rest' stop'
          rw [← hothers] at ha' ⊢
          exact ha'
      · rw [hfail] at ha
        obtain rfl := Except.error.inj ha
        refine .inr ⟨[t], ts, rfl, he', ?_⟩
        intro rest' stop'
        show f t ⟨t :: rest', stop'⟩ = _
        rw [hfail]
        rfl

theorem local_nextIs (kind : Token.Kind) : Local (nextIs kind) :=
  local_peek fun _ _ => .inl (local_pure _ _)

theorem local_accept (kind : Token.Kind) : Local (accept kind) := by
  apply (local_nextIs kind).bind
  intro b
  cases b with
  | false => exact local_pure none
  | true => exact local_next fun t _ => .inl (local_pure (some t) _)

theorem local_refuse (construct : Construct) (expected : List Token.Kind) :
    Local (refuse construct expected : Reader α) :=
  local_next fun _ _ => .inr ⟨_, rfl, rfl⟩

/-- A token of some kind, and what follows it. -/
theorem expect_bind (kind : Token.Kind) (construct : Construct) (f : Token → Reader α) :
    expect kind construct >>= f = (do
      let token ← next
      if token.kind = kind then f token else fail (.unexpected construct token [kind])) := by
  funext q
  obtain ⟨ts, stop⟩ := q
  cases ts with
  | nil => rfl
  | cons t ts =>
    have hexpect : expect kind construct ⟨t :: ts, stop⟩ =
        (if t.kind = kind then return t else fail (.unexpected construct t [kind]) : Reader Token) ⟨ts, stop⟩ := rfl
    show _ = (if t.kind = kind then f t else fail (.unexpected construct t [kind]) : Reader α) ⟨ts, stop⟩
    by_cases hk : t.kind = kind
    · rw [if_pos hk] at hexpect ⊢
      exact bind_of_ok hexpect
    · rw [if_neg hk] at hexpect ⊢
      exact bind_of_error hexpect

/-- What follows an expected token may still fail at it. -/
theorem local_expect_bind (kind : Token.Kind) (construct : Construct) {f : Token → Reader α}
    (hf : ∀ t ts, LocalFrom t (f t) ts) : Local (expect kind construct >>= f) := by
  rw [expect_bind]
  apply local_next
  intro t ts
  by_cases hk : t.kind = kind
  · rw [if_pos hk]
    exact hf t ts
  · rw [if_neg hk]
    exact .inr ⟨_, rfl, rfl⟩

theorem local_expect (kind : Token.Kind) (construct : Construct) : Local (expect kind construct) := by
  have h := local_expect_bind kind construct fun t ts => .inl (local_pure t ts)
  rwa [bind_pure] at h

/-! ## Expressions -/

theorem mem_tokens_of_joint {t : Term} : ∀ j ∈ t.joints, j.1.token ∈ t.tokens := by
  induction t with
  | name | number => simp [Term.joints]
  | group opening inner closing ih =>
    intro j hj
    simp [Term.tokens, ih j hj]
  | join lhs sign rhs ihl ihr =>
    intro j hj
    simp only [Term.joints, List.mem_append, List.mem_singleton] at hj
    simp only [Term.tokens, List.mem_append, List.mem_cons]
    rcases hj with hj | hj | rfl
    · exact .inl (ihl j hj)
    · exact .inr (.inr (ihr j hj))
    · exact .inr (.inl rfl)

theorem EndsBefore.of_take_one {r rest : List Token} (h : EndsBefore r) (hrest : r.take 1 <+: rest) :
    EndsBefore rest := by
  obtain ⟨t, ht, hop⟩ := h
  obtain ⟨ts, rfl⟩ := List.head?_eq_some_iff.mp ht
  obtain ⟨others, rfl⟩ := hrest
  exact ⟨t, rfl, hop⟩

theorem local_expression : Local expression := by
  intro ts
  constructor
  · intro stop e q h
    obtain ⟨t, ht, hheight, hend, hq, rfl⟩ := expression_eq_ok_iff.mp h
    obtain ⟨hts, hstop⟩ := TokenQueue.mk.inj hq
    refine ⟨hstop.symm, t.tokens, hts, ?_⟩
    intro rest stop' hrest
    exact expression_tokens ht hheight (EndsBefore.of_take_one hend hrest) stop'
  · intro stop e h
    rw [expression_apply] at h
    cases hscan : Rpn.scan stop true 0 [] [] ts with
    | error e' =>
      rw [hscan] at h
      obtain rfl := Except.error.inj h
      rcases scan_eq_error hscan with heof | ⟨u, token, rest, p, hts, -, hrefuses, hstable⟩
      · exact .inl heof
      · refine .inr ⟨u ++ [token], rest, by simp [hts], ?_, ?_⟩
        · cases hrefuses <;> exact List.getLast?_concat
        · intro rest' stop'
          rw [expression_apply, List.append_assoc, List.singleton_append, hstable stop' rest']
    | ok result =>
      -- the tokens form an expression, so the error is that of a tree that is too high
      obtain ⟨items, r⟩ := result
      obtain ⟨t, ht, hts, hend, hitems⟩ := scan_eq_ok_iff.mp hscan
      rw [hscan] at h
      subst hts hitems
      by_cases hheight : t.height ≤ Rpn.maxHeight
      · simp [Term.toExpr_rpn hheight, Except.map] at h
      · obtain ⟨sign, hsign, htree⟩ := Term.toExpr_rpn_tooDeep (Nat.lt_of_not_le hheight)
        simp only [htree, Except.map, Except.error.injEq] at h
        subst h
        obtain ⟨token, hhead, hop⟩ := hend
        obtain ⟨rest, rfl⟩ := List.head?_eq_some_iff.mp hhead
        obtain ⟨j, hj, rfl⟩ := Option.map_eq_some_iff.mp hsign
        refine .inr ⟨t.tokens ++ [token], rest, by simp, ⟨j.1.token, ?_, rfl⟩, ?_⟩
        · exact List.mem_append_left _ (mem_tokens_of_joint j (List.mem_of_find?_eq_some hj))
        · intro rest' stop'
          obtain ⟨sign', hsign', htree'⟩ := expression_tooDeep ht (Nat.lt_of_not_le hheight)
            (r := token :: rest') ⟨token, rfl, hop⟩ stop'
          rw [hsign] at hsign'
          obtain rfl := Option.some.inj hsign'
          simpa using htree'

/-! ## Signals -/

theorem local_ident (construct : Construct) : Local (ident construct) :=
  (local_expect .identifier construct).bind fun _ => local_pure _

theorem local_width : Local width := by
  apply (local_accept .leftBracket).bind
  intro o
  cases o with
  | none => exact local_pure 1
  | some opening =>
    apply local_expect_bind
    intro token ts
    cases bitWidth? token.text with
    | none => exact .inr ⟨.malformedWidth token, rfl, rfl⟩
    | some n => exact .inl ((local_expect .rightBracket .bitWidth).bind (fun _ => local_pure n) ts)

theorem local_clock : Local clock := by
  apply (local_expect .atMark .clock).bind
  intro mark
  apply local_next
  intro token ts
  cases token.kind with
  | bang => exact .inl ((local_ident .clock).bind (fun _ => local_pure _) ts)
  | identifier => exact .inl (local_pure _ ts)
  | _ => exact .inr ⟨_, rfl, rfl⟩

theorem local_signal (construct : Construct) : Local (signal construct) := by
  apply (local_accept .storage).bind
  intro storage
  apply local_width.bind
  intro n
  apply (local_ident construct).bind
  intro name
  apply (local_nextIs .atMark).bind
  intro b
  cases b with
  | false => exact (local_pure none).bind fun c => local_pure _
  | true => exact (local_clock.map some).bind fun c => local_pure _

theorem local_port : Local port := by
  rw [port_eq]
  apply local_next
  intro token ts
  by_cases hk : token.kind = .direction
  · left
    rw [if_pos hk]
    exact (local_signal .port).bind (fun _ => local_pure _) ts
  · right
    exact ⟨_, if_neg hk, rfl⟩

/-! ## Rounds

A loop is given a budget of tokens, so that it ends. Its rounds are the same whatever the budget
is: `step go` makes one round and goes on with `go`. A round that goes on has taken a token, so a
budget that is not smaller than the queue has no part in the result. -/

/-- The rounds of a loop over a queue, with the results `read` so far. -/
structure Rounds {β ρ : Type} (loop : List Token → List β → TokenQueue → ρ)
    (step : (List β → TokenQueue → ρ) → List β → TokenQueue → ρ) : Prop where
  cons (t : Token) (budget : List Token) (read : List β) (q : TokenQueue) :
    loop (t :: budget) read q = step (loop budget) read q
  nil (go : List β → TokenQueue → ρ) (read : List β) (stop : Position) :
    loop [] read ⟨[], stop⟩ = step go read ⟨[], stop⟩
  congr {go go' : List β → TokenQueue → ρ} {read : List β} {q : TokenQueue}
    (h : ∀ read' q', q'.pending.length < q.pending.length → go read' q' = go' read' q') :
    step go read q = step go' read q

namespace Rounds
variable {β ρ : Type} {loop : List Token → List β → TokenQueue → ρ}
  {step : (List β → TokenQueue → ρ) → List β → TokenQueue → ρ} (h : Rounds loop step)
include h

/-- With no tokens left a loop makes its last round, whatever its budget. -/
theorem of_pending_nil (budget : List Token) (go : List β → TokenQueue → ρ) (read : List β) (stop : Position) :
    loop budget read ⟨[], stop⟩ = step go read ⟨[], stop⟩ := by
  cases budget with
  | nil => exact h.nil go read stop
  | cons t budget =>
    rw [h.cons]
    exact h.congr fun read' q' hlt => absurd hlt (Nat.not_lt_zero _)

theorem budget_eq (budget budget' : List Token) (read : List β) (q : TokenQueue)
    (hbudget : q.pending.length ≤ budget.length) (hbudget' : q.pending.length ≤ budget'.length) :
    loop budget read q = loop budget' read q := by
  induction budget generalizing budget' read q with
  | nil =>
    obtain ⟨ts, stop⟩ := q
    obtain rfl : ts = [] := List.length_eq_zero_iff.mp (Nat.le_zero.mp hbudget)
    rw [h.of_pending_nil [] (loop []), h.of_pending_nil budget' (loop [])]
  | cons t budget ih =>
    obtain ⟨ts, stop⟩ := q
    cases ts with
    | nil => rw [h.of_pending_nil _ (loop []), h.of_pending_nil budget' (loop [])]
    | cons t₁ ts =>
      cases budget' with
      | nil => simp at hbudget'
      | cons t' budget' =>
        rw [h.cons, h.cons]
        apply h.congr
        intro read' q' hlt
        simp only [List.length_cons] at hbudget hbudget' hlt
        exact ih budget' read' q' (by omega) (by omega)

/-- A loop whose budget is the queue is one round and then such a loop. -/
theorem pending_eq (read : List β) (q : TokenQueue) :
    loop q.pending read q = step (fun read' q' => loop q'.pending read' q') read q := by
  obtain ⟨ts, stop⟩ := q
  cases ts with
  | nil => exact h.nil _ read stop
  | cons t ts =>
    rw [h.cons]
    apply h.congr
    intro read' q' hlt
    exact h.budget_eq ts q'.pending read' q' (Nat.le_of_lt_succ hlt) (Nat.le_refl _)

end Rounds

/-- A reader that takes a token whenever it succeeds. -/
def Consumes (r : Reader α) : Prop :=
  ∀ {q q' : TokenQueue} {a : α}, r q = .ok (a, q') → q'.pending.length < q.pending.length

theorem lt_length_put {q : TokenQueue} {ts : List Token} (h : ts ≠ []) :
    q.pending.length < (q.put ts).pending.length := by
  rw [TokenQueue.pending_put, List.length_append]
  have := List.length_pos_iff.mpr h
  omega

theorem consumes_stmt (levels : Nat) : Consumes (stmt levels) := by
  intro q q' s h
  obtain ⟨x, -, rfl, -, -⟩ := (stmt_reads levels q s q').mp h
  obtain ⟨t, ts, hx, -⟩ := x.tokens_eq_cons
  exact lt_length_put (by simp [hx])

theorem consumes_port : Consumes port := by
  intro q q' p h
  obtain ⟨x, -, rfl, -, -⟩ := port_eq_ok_iff.mp h
  exact lt_length_put (by simp [PortTree.tokens])

theorem bind_congr_of_ok {x : Reader α} {f g : α → Reader β} {q : TokenQueue}
    (h : ∀ a q₁, x q = .ok (a, q₁) → f a q₁ = g a q₁) : (x >>= f) q = (x >>= g) q := by
  cases hx : x q with
  | error e => rw [bind_of_error hx, bind_of_error hx]
  | ok y => rw [bind_of_ok hx, bind_of_ok hx, h y.1 y.2 hx]

/-- Statements up to a closing brace, with a budget that is large enough. -/
def stmtRounds (r : Reader Stmt) (read : List Stmt) : Reader (List Stmt) := do
  stmtsUntilBrace r (← pending) read

/-- Ports up to the closing parenthesis, with a budget that is large enough. -/
def portRounds (read : List Port) : Reader (List Port) := do
  portsUntilParen (← pending) read

def stmtStep (r : Reader Stmt) (go : List Stmt → Reader (List Stmt)) (read : List Stmt) : Reader (List Stmt) := do
  if ← nextIs .rightBrace then return read.reverse
  else go ((← r) :: read)

def portStep (go : List Port → Reader (List Port)) (read : List Port) : Reader (List Port) := do
  let p ← port
  let token ← next
  match token.kind with
  | .rightParen => return (p :: read).reverse
  | .comma => go (p :: read)
  | _ => fail (.unexpected .portList token [.comma, .rightParen])

theorem rounds_stmtsUntilBrace {r : Reader Stmt} (hr : Consumes r) : Rounds (stmtsUntilBrace r) (stmtStep r) where
  cons t budget read q := by rw [stmtsUntilBrace]; rfl
  nil go read stop := rfl
  congr {go go' read q} h := by
    apply bind_congr_of_ok
    intro b q₁ hq₁
    obtain ⟨rfl, -⟩ := nextIs_eq_ok_iff.mp hq₁
    cases b with
    | true => rfl
    | false => exact bind_congr_of_ok fun s q₂ hq₂ => h (s :: read) q₂ (hr hq₂)

theorem stmtRounds_eq {r : Reader Stmt} (hr : Consumes r) (read : List Stmt) : stmtRounds r read = (do
    if ← nextIs .rightBrace then return read.reverse
    else stmtRounds r ((← r) :: read)) :=
  funext ((rounds_stmtsUntilBrace hr).pending_eq read)

theorem rounds_portsUntilParen : Rounds portsUntilParen portStep where
  cons t budget read q := by rw [portsUntilParen]; rfl
  nil go read stop := by
    rw [portsUntilParen]
    exact bind_congr_of_ok fun p q hq => absurd (consumes_port hq) (Nat.not_lt_zero _)
  congr {go go' read q} h := by
    apply bind_congr_of_ok
    intro p q₁ hq₁
    apply bind_congr_of_ok
    intro token q₂ hq₂
    have hlt := consumes_port hq₁
    rw [next_eq_ok_iff.mp hq₂, TokenQueue.pending_put, List.length_append] at hlt
    cases token.kind with
    | comma => exact h (p :: read) q₂ (by omega)
    | _ => rfl

theorem portRounds_eq (read : List Port) : portRounds read = (do
    let p ← port
    let token ← next
    match token.kind with
    | .rightParen => return (p :: read).reverse
    | .comma => portRounds (p :: read)
    | _ => fail (.unexpected .portList token [.comma, .rightParen])) :=
  funext (rounds_portsUntilParen.pending_eq read)

theorem local_stmtRounds {r : Reader Stmt} (hlocal : Local r) (hr : Consumes r) (read : List Stmt) :
    Local (stmtRounds r read) := by
  intro ts
  -- every round takes a token, so the induction is on how many there are
  induction hlength : ts.length using Nat.strongRecOn generalizing ts read with
  | ind n ih =>
    subst hlength
    rw [stmtRounds_eq hr]
    apply (local_nextIs .rightBrace ts).bind
    intro stop b q hb
    obtain ⟨rfl, -⟩ := nextIs_eq_ok_iff.mp hb
    cases b with
    | true => exact local_pure _ ts
    | false =>
      apply (hlocal ts).bind
      intro stop s q hs
      exact ih _ (hr hs) (s :: read) q.pending rfl

theorem local_portRounds (read : List Port) : Local (portRounds read) := by
  intro ts
  induction hlength : ts.length using Nat.strongRecOn generalizing ts read with
  | ind n ih =>
    subst hlength
    rw [portRounds_eq]
    apply (local_port ts).bind
    intro stop p q hp
    have hlt := consumes_port hp
    apply localAt_next
    intro token ts' hts'
    rw [hts', List.length_cons] at hlt
    cases token.kind with
    | rightParen => exact .inl (local_pure _ ts')
    | comma => exact .inl (ih _ (by dsimp only at hlt; omega) (p :: read) ts' rfl)
    | _ => exact .inr ⟨_, rfl, rfl⟩

/-! ## Statements and modules -/

theorem block_eq (r : Reader Stmt) : block r = (do
    let opening ← expect .leftBrace .block
    let stmts ← stmtRounds r []
    let closing ← expect .rightBrace .block
    return ⟨stmts, opening.pos, closing.pos⟩) := by
  simp only [block, stmtRounds, bind_assoc]

theorem local_block {r : Reader Stmt} (hlocal : Local r) (hr : Consumes r) : Local (block r) := by
  rw [block_eq]
  apply (local_expect .leftBrace .block).bind
  intro opening
  apply (local_stmtRounds hlocal hr []).bind
  intro ss
  exact (local_expect .rightBrace .block).bind fun _ => local_pure _

theorem local_assignment : Local assignment := by
  apply (local_ident .assignment).bind
  intro lhs
  apply (local_expect .assign .assignment).bind
  intro token
  apply local_expression.bind
  intro rhs
  exact (local_expect .endOfStatement .assignment).bind fun _ => local_pure _

theorem local_alternative {r : Reader Stmt} (hlocal : Local r) : Local (alternative r) := by
  apply (local_accept .elseWord).bind
  intro o
  cases o with
  | none => exact local_pure none
  | some other =>
    apply local_peek
    intro t ts
    cases t.kind with
    | ifWord => exact .inl (hlocal.map some ts)
    | leftBrace => exact .inl (hlocal.map some ts)
    | _ => exact .inl (local_refuse .alternative [.ifWord, .leftBrace] ts)

theorem local_conditional {r : Reader Stmt} (hlocal : Local r) : Local (conditional r) := by
  apply (local_expect .ifWord .conditional).bind
  intro word
  apply local_expression.bind
  intro cond
  apply hlocal.bind
  intro body
  exact (local_alternative hlocal).bind fun _ => local_pure _

theorem local_declaration : Local declaration := by
  apply local_peek
  intro first ts
  left
  apply Local.bind (local_signal .declaration)
  intro signal
  exact (local_expect .endOfStatement .declaration).bind fun _ => local_pure _

theorem local_sequence {r : Reader Stmt} (hlocal : Local r) : Local (sequence r) := by
  apply local_peek
  intro first ts
  left
  apply Local.bind local_clock
  intro clock
  exact hlocal.bind fun _ => local_pure _

theorem local_stmt (levels : Nat) : Local (stmt levels) := by
  induction levels with
  | zero =>
    apply local_peek
    intro t ts
    exact .inr ⟨.tooDeep t.pos, rfl, t, List.mem_singleton_self t, rfl⟩
  | succ levels ih =>
    apply local_peek
    intro t ts
    left
    cases t.kind with
    | identifier => exact local_assignment ts
    | ifWord => exact local_conditional ih ts
    | leftBrace => exact (local_block ih (consumes_stmt levels)).map Stmt.block ts
    | storage => exact local_declaration ts
    | atMark => exact local_sequence ih ts
    | _ => exact local_refuse .statement [.identifier, .ifWord, .leftBrace, .storage, .atMark] ts

theorem local_ports : Local ports := by
  apply (local_expect .leftParen .portList).bind
  intro opening
  apply (local_accept .rightParen).bind
  intro o
  cases o with
  | none => exact local_portRounds []
  | some closing => exact local_pure []

/-- The reader of modules looks at no token behind those of its result. -/
theorem local_module : Local module := by
  apply (local_ident .moduleName).bind
  intro name
  apply local_ports.bind
  intro ports
  exact (local_block (local_stmt maxNesting) (consumes_stmt maxNesting)).bind fun _ => local_pure _

end Reader

end Gateware

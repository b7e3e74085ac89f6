import Gateware.Event

/- Results with a record of what happened. A `Report` holds the events of a
   computation beside its result, and keeps them when the computation fails. No
   step can look at the events of the steps before it, so the result never
   depends on them (`result_bind`). A result is taken apart step by step: a
   sequence of steps succeeds exactly if each of them does (`Except.bind_eq_ok_iff`,
   `Report.result_bind_eq_ok_iff`). -/

namespace Except
variable {ε α β : Type}

theorem bind_eq_ok_iff {x : Except ε α} {f : α → Except ε β} {b : β} :
    (x >>= f) = .ok b ↔ ∃ a, x = .ok a ∧ f a = .ok b := by
  cases x with
  | error e => simp [bind, Except.bind]
  | ok a => simp [bind, Except.bind]

theorem pure_eq_ok_iff {a b : α} : (pure a : Except ε α) = .ok b ↔ b = a := by
  simp only [pure, Except.pure, Except.ok.injEq]
  exact eq_comm

/-- A function of the value changes neither whether there is one nor the error. -/
theorem map_eq_iff (f : α → β) (r : Except ε α) :
    ((∃ b, r.map f = .ok b) ↔ ∃ a, r = .ok a) ∧ ∀ e, r.map f = .error e ↔ r = .error e := by
  cases r <;> simp [Except.map]

end Except

namespace Gateware

/-- The events of a computation, in order, and its result. -/
structure Report (ε α : Type) where
  events : List Event
  result : Except ε α

namespace Report

/-- The events of a step, after earlier ones. Most steps have none, and then
nothing is copied. -/
def join (earlier later : List Event) : List Event :=
  match later with
  | [] => earlier
  | later => earlier ++ later

/-- The first computation, then the second on its value; an error ends both. -/
def bind {ε α β : Type} (x : Report ε α) (f : α → Report ε β) : Report ε β :=
  match x.result with
  | .error e => ⟨x.events, .error e⟩
  | .ok a => let y := f a; ⟨join x.events y.events, y.result⟩

instance {ε : Type} : Monad (Report ε) where
  pure a := ⟨[], .ok a⟩
  bind := Report.bind

instance {ε : Type} : MonadLift (Except ε) (Report ε) where
  monadLift r := ⟨[], r⟩

def note {ε : Type} (event : Event) : Report ε Unit :=
  ⟨[event], .ok ()⟩

/-- The same report with its error put into a larger type. -/
def mapError {ε ε' α : Type} (f : ε → ε') (x : Report ε α) : Report ε' α :=
  ⟨x.events, x.result.mapError f⟩

@[simp] theorem result_pure {ε α : Type} (a : α) :
    (pure a : Report ε α).result = .ok a := rfl

theorem result_bind {ε α β : Type} (x : Report ε α) (f : α → Report ε β) :
    (x >>= f).result = x.result >>= fun a => (f a).result := by
  show (Report.bind x f).result = _
  unfold Report.bind
  cases x.result <;> rfl

theorem result_bind_eq_ok_iff {ε α β : Type} {x : Report ε α} {f : α → Report ε β} {b : β} :
    (x >>= f).result = .ok b ↔ ∃ a, x.result = .ok a ∧ (f a).result = .ok b := by
  rw [result_bind, Except.bind_eq_ok_iff]

end Report

end Gateware

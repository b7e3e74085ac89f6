import Gateware.Lowering.Module

/- Delivering text to a sink of bytes. A sink takes as much of what it is offered
   as it likes; the rest is offered again until all is taken or the sink refuses.
   Taking nothing counts as a refusal. Nothing is offered unless the whole text is
   known, and the sink is flushed only after all of it was taken. -/
namespace Gateware

inductive Sink.Reply where
  /-- So many bytes were taken, from the front. -/
  | taken (count : Nat)
  /-- Nothing was taken, for a reason. -/
  | refused (reason : String)
  deriving DecidableEq, Repr

/-- A taker of bytes, with a state of its own. -/
structure Sink (σ : Type) where
  /-- Offers bytes, of which there is at least one. -/
  offer : σ → List UInt8 → Sink.Reply × σ
  /-- Asks for what was taken to be made final; the answer is a reason against
  it, if there is one. -/
  flush : σ → Option String × σ

namespace Sink

/-- A sink with room for `capacity` bytes that takes at most `chunk` of them at a
time, both unlimited if absent. `whenFull` is its reason to refuse an offer of
which it can take nothing; without one it takes zero bytes. The state is the
number of bytes taken. -/
def bounded (capacity chunk : Option Nat) (whenFull onFlush : Option String) : Sink Nat where
  offer taken bytes :=
    let room := match capacity with
      | none => bytes.length
      | some capacity => min bytes.length (capacity - taken)
    let count := match chunk with
      | none => room
      | some chunk => min room chunk
    match count, whenFull with
    | 0, some reason => (.refused reason, taken)
    | count, _ => (.taken count, taken + count)
  flush taken := (onFlush, taken)

/-- The end of an attempt to hand over bytes: how many were taken, why it ended
early, if it did, and the state of the sink. -/
structure Transfer (σ : Type) where
  taken : Nat
  failure : Option String
  state : σ

/-- The reason given where a sink takes nothing. -/
def tookNothing : String := "failed to write whole buffer"

/-- Hands over bytes until all are taken or the sink refuses. Every round takes a
byte, so `limit` need not be more than their number. -/
def transfer {σ : Type} (sink : Sink σ) : (limit : Nat) → (state : σ) → (done : Nat) →
    (bytes : List UInt8) → Transfer σ
  | _, state, done, [] => ⟨done, none, state⟩
  | 0, state, done, _ :: _ => ⟨done, some tookNothing, state⟩
  | limit + 1, state, done, bytes =>
    match sink.offer state bytes with
    | (.refused reason, state) => ⟨done, some reason, state⟩
    | (.taken 0, state) => ⟨done, some tookNothing, state⟩
    | (.taken count, state) =>
      let count := min count bytes.length
      transfer sink limit state (done + count) (bytes.drop count)

end Sink

inductive DeliveryError where
  | lowering (e : LoweringError)
  | refused (reason : String)
  deriving DecidableEq, Repr

namespace DeliveryError

def message : DeliveryError → String
  | .lowering e => e.message
  | .refused reason => s!"failed to write output: {reason}"

def cause : DeliveryError → Option String
  | .lowering _ => none
  | .refused reason => some reason

end DeliveryError

/-- The end of a delivery: the bytes that the sink has taken, the error, if there
was one, and the state of the sink. -/
structure Delivery (σ : Type) where
  received : List UInt8
  failure : Option DeliveryError
  state : σ
  deriving DecidableEq, Repr

/-- Delivers a text to a sink and flushes it. -/
def deliver {σ : Type} (sink : Sink σ) (state : σ) (text : String) : Delivery σ :=
  let bytes := text.toUTF8.toList
  let transfer := sink.transfer bytes.length state 0 bytes
  let received := bytes.take transfer.taken
  match transfer.failure with
  | some reason => ⟨received, some (.refused reason), transfer.state⟩
  | none =>
    let (failure, state) := sink.flush transfer.state
    ⟨received, failure.map .refused, state⟩

/-- Delivers the Verilog text of modules to a sink. -/
def emitTo {σ : Type} (ms : List Module) (sink : Sink σ) (state : σ) : Delivery σ :=
  match (emit ms).result with
  | .error e => ⟨[], some (.lowering e), state⟩
  | .ok text => deliver sink state text

end Gateware

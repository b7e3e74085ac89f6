import Gateware.Sink

/- Delivering a text to a sink, told by the log of the sink.

   This file

   1. adds a log of its calls to any sink (`Sink.logged`), which then answers as before;
   2. gives the form of the log while bytes are handed over (`Handover`): each call offers exactly
      the bytes that were not taken yet, until none are left or a call is refused; and of the whole
      delivery (`Session`): only when none are left a last call flushes;
   3. proves by induction on the rounds that handing over bytes has such a log (`transfer_logged`),
      and so has a delivery (`deliver_logged`);
   4. reads off the log that the bytes taken are the beginning of the text at any time
      (`accepted_prefix`), and that a delivery succeeds exactly if no call was refused
      (`failure_eq_none_iff`, `failure_eq_some_iff`);
   5. concludes the same of emitting modules (`emitTo_writes_all_or_reports`).

   Nothing is assumed of the sink: it may take any number of bytes or none, refuse at any time, and
   change its mind. -/
namespace Gateware

namespace Sink

/-- A call of a sink, with the answer. -/
inductive Call where
  | offered (bytes : List UInt8) (reply : Reply)
  | flushed (failure : Option String)
  deriving DecidableEq, Repr

/-- The bytes that a call handed over. -/
def Call.accepted : Call → List UInt8
  | .offered bytes (.taken count) => bytes.take count
  | .offered _ (.refused _) | .flushed _ => []

/-- Why a call was refused, if it was. To take none of the bytes is to refuse them. -/
def Call.refusal : Call → Option String
  | .offered _ (.taken 0) => some tookNothing
  | .offered _ (.taken _) => none
  | .offered _ (.refused reason) => some reason
  | .flushed failure => failure

/-- The bytes that calls handed over, one after another. -/
def accepted (log : List Call) : List UInt8 := log.flatMap Call.accepted

@[simp] theorem accepted_nil : accepted [] = [] := rfl

@[simp] theorem accepted_cons (call : Call) (log : List Call) :
    accepted (call :: log) = call.accepted ++ accepted log := rfl

@[simp] theorem accepted_append (log log' : List Call) : accepted (log ++ log') = accepted log ++ accepted log' :=
  List.flatMap_append

/-- A sink that keeps a log of its calls. -/
def logged {σ : Type} (sink : Sink σ) : Sink (σ × List Call) where
  offer s bytes :=
    let (reply, state) := sink.offer s.1 bytes
    (reply, state, s.2 ++ [.offered bytes reply])
  flush s :=
    let (failure, state) := sink.flush s.1
    (failure, state, s.2 ++ [.flushed failure])

/-! ## The log of handing over bytes -/

/-- The calls that hand over bytes: what was not taken is offered again, until nothing is left or
a call is refused. -/
inductive Handover : List UInt8 → List Call → Option String → Prop
  | done : Handover [] [] none
  | taken {bytes : List UInt8} (hbytes : bytes ≠ []) {reply : Reply}
      (h : (Call.offered bytes reply).refusal = none) {calls : List Call} {failure : Option String}
      (hrest : Handover (bytes.drop (Call.offered bytes reply).accepted.length) calls failure) :
      Handover bytes (.offered bytes reply :: calls) failure
  | refused {bytes : List UInt8} (hbytes : bytes ≠ []) {reply : Reply} {reason : String}
      (h : (Call.offered bytes reply).refusal = some reason) : Handover bytes [.offered bytes reply] (some reason)

section
variable {σ : Type} {sink : Sink σ} {state state' : σ} {reply : Reply} {bytes : List UInt8}

/-- A call that is refused hands over nothing and ends the transfer. -/
theorem transfer_of_refusal {reason : String} (hbytes : bytes ≠ []) (hoffer : sink.offer state bytes = (reply, state'))
    (h : (Call.offered bytes reply).refusal = some reason) (limit done : Nat) :
    (Call.offered bytes reply).accepted = [] ∧
      sink.transfer (limit + 1) state done bytes = ⟨done, some reason, state'⟩ := by
  cases bytes with
  | nil => exact absurd rfl hbytes
  | cons byte bytes =>
    match reply, h with
    | .refused _, rfl => exact ⟨rfl, by simp only [transfer, hoffer]⟩
    | .taken 0, rfl => exact ⟨rfl, by simp only [transfer, hoffer]⟩

/-- After a call that is not refused the transfer goes on with what was not taken, which is less. -/
theorem transfer_of_accepted (hbytes : bytes ≠ []) (hoffer : sink.offer state bytes = (reply, state'))
    (h : (Call.offered bytes reply).refusal = none) (limit done : Nat) :
    0 < (Call.offered bytes reply).accepted.length ∧
      sink.transfer (limit + 1) state done bytes =
        sink.transfer limit state' (done + (Call.offered bytes reply).accepted.length)
          (bytes.drop (Call.offered bytes reply).accepted.length) := by
  cases bytes with
  | nil => exact absurd rfl hbytes
  | cons byte bytes =>
    match reply, h with
    | .taken (count + 1), _ =>
      have hlength : (Call.offered (byte :: bytes) (.taken (count + 1))).accepted.length =
          min (count + 1) (byte :: bytes).length := List.length_take
      rw [hlength]
      refine ⟨?_, by simp only [transfer, hoffer]⟩
      rw [List.length_cons]
      omega

end

/-- Handing over bytes to a sink, with a log and without. Every round takes a byte, so there are
no more of them than bytes. -/
theorem transfer_logged {σ : Type} (sink : Sink σ) (limit : Nat) (state : σ) (log : List Call) (done : Nat)
    (bytes : List UInt8) (hlimit : bytes.length ≤ limit) :
    ∃ calls failure last, Handover bytes calls failure ∧
      sink.transfer limit state done bytes = ⟨done + (accepted calls).length, failure, last⟩ ∧
      sink.logged.transfer limit (state, log) done bytes =
        ⟨done + (accepted calls).length, failure, last, log ++ calls⟩ := by
  induction limit generalizing state log done bytes with
  | zero =>
    obtain rfl : bytes = [] := List.length_eq_zero_iff.mp (Nat.le_zero.mp hlimit)
    exact ⟨[], none, state, .done, rfl, by simp [transfer]⟩
  | succ limit ih =>
    by_cases hbytes : bytes = []
    · subst hbytes
      exact ⟨[], none, state, .done, rfl, by simp [transfer]⟩
    · rcases hoffer : sink.offer state bytes with ⟨reply, state'⟩
      let call := Call.offered bytes reply
      have hlogged : sink.logged.offer (state, log) bytes = (reply, state', log ++ [call]) := by
        simp only [logged, hoffer, call]
      cases hrefusal : call.refusal with
      | some reason =>
        obtain ⟨hnothing, htransfer⟩ := transfer_of_refusal hbytes hoffer hrefusal limit done
        have htransfer' := (transfer_of_refusal hbytes hlogged hrefusal limit done).2
        refine ⟨[call], some reason, state', .refused hbytes hrefusal, ?_, ?_⟩
        · simpa [call, hnothing] using htransfer
        · simpa [call, hnothing] using htransfer'
      | none =>
        obtain ⟨hpos, htransfer⟩ := transfer_of_accepted hbytes hoffer hrefusal limit done
        have htransfer' := (transfer_of_accepted hbytes hlogged hrefusal limit done).2
        have hrest : (bytes.drop call.accepted.length).length ≤ limit := by
          have hpos : 0 < call.accepted.length := hpos
          rw [List.length_drop]
          omega
        obtain ⟨calls, failure, last, hcalls, hplain, hlog⟩ :=
          ih state' (log ++ [call]) (done + call.accepted.length) (bytes.drop call.accepted.length) hrest
        have htotal : done + call.accepted.length + (accepted calls).length =
            done + (accepted (call :: calls)).length := by
          rw [accepted_cons, List.length_append, Nat.add_assoc]
        refine ⟨call :: calls, failure, last, .taken hbytes hrefusal hcalls, ?_, ?_⟩
        · rw [htransfer, hplain, htotal]
        · rw [htransfer', hlog, htotal, List.append_assoc]
          rfl

namespace Handover
variable {bytes : List UInt8} {calls : List Call} {failure : Option String}

/-- What a call hands over is the beginning of what it offers. -/
theorem accepted_offered_append (bytes : List UInt8) (reply : Reply) :
    (Call.offered bytes reply).accepted ++ bytes.drop (Call.offered bytes reply).accepted.length = bytes := by
  cases reply with
  | refused reason => rfl
  | taken count =>
    have h : (bytes.take count) <+: bytes := List.take_prefix count bytes
    exact List.prefix_iff_eq_append.mp h

/-- Each call offers all that was not taken before, and there is something left to offer. -/
theorem offers (h : Handover bytes calls failure) : ∀ before call after, calls = before ++ call :: after →
    ∃ left reply, call = .offered left reply ∧ left ≠ [] ∧ accepted before ++ left = bytes := by
  induction h with
  | done => intro before call after hcalls; simp at hcalls
  | @taken bytes hbytes reply hrefusal calls failure hrest ih =>
    intro before call after hcalls
    cases before with
    | nil =>
      obtain ⟨rfl, -⟩ := List.cons.inj hcalls
      exact ⟨bytes, reply, rfl, hbytes, rfl⟩
    | cons first before =>
      obtain ⟨rfl, htail⟩ := List.cons.inj hcalls
      obtain ⟨left, reply', hcall, hleft, haccepted⟩ := ih before call after htail
      refine ⟨left, reply', hcall, hleft, ?_⟩
      rw [accepted_cons, List.append_assoc, haccepted, accepted_offered_append]
  | @refused bytes hbytes reply reason hrefusal =>
    intro before call after hcalls
    cases before with
    | nil =>
      obtain ⟨rfl, -⟩ := List.cons.inj hcalls
      exact ⟨bytes, reply, rfl, hbytes, rfl⟩
    | cons first before => simp at hcalls

/-- What is taken is the beginning of the bytes. -/
theorem accepted_prefix (h : Handover bytes calls failure) : accepted calls <+: bytes := by
  induction h with
  | done => exact List.prefix_refl []
  | @taken bytes hbytes reply hrefusal calls failure hrest ih =>
    have hfirst := (List.prefix_append_right_inj (Call.offered bytes reply).accepted).mpr ih
    rwa [accepted_offered_append] at hfirst
  | @refused bytes hbytes reply reason hrefusal =>
    exact ⟨_, by simpa using accepted_offered_append bytes reply⟩

theorem accepted_eq (h : Handover bytes calls none) : accepted calls = bytes := by
  generalize hnone : (none : Option String) = failure at h
  induction h with
  | done => rfl
  | taken hbytes hrefusal hrest ih => rw [accepted_cons, ih hnone, accepted_offered_append]
  | refused => cases hnone

/-- Nothing is flushed while bytes are handed over. -/
theorem flushed_notMem (h : Handover bytes calls failure) (failure' : Option String) :
    .flushed failure' ∉ calls := by
  intro hmem
  obtain ⟨before, after, hcalls⟩ := List.append_of_mem hmem
  obtain ⟨left, reply, hcall, -⟩ := h.offers before _ after hcalls
  cases hcall

/-- The calls that were refused are the last one, if it has ended the transfer, and no others. -/
theorem refusal_iff (h : Handover bytes calls failure) (reason : String) :
    (∃ call ∈ calls, call.refusal = some reason) ↔ failure = some reason := by
  induction h with
  | done => simp
  | taken hbytes hrefusal hrest ih => simp [hrefusal, ih]
  | refused hbytes hrefusal => simp [hrefusal]

end Handover

/-! ## The log of a delivery -/

/-- The calls of a delivery: the bytes are handed over, and if all are taken the sink is
flushed. -/
inductive Session (bytes : List UInt8) : List Call → Option String → Prop
  | stopped {calls : List Call} {reason : String} (h : Handover bytes calls (some reason)) :
      Session bytes calls (some reason)
  | flushed {calls : List Call} (h : Handover bytes calls none) (failure : Option String) :
      Session bytes (calls ++ [.flushed failure]) failure

section
variable {σ : Type} {sink : Sink σ} {state last : σ} {text : String} {taken : Nat}

theorem deliver_of_refused {reason : String}
    (h : sink.transfer text.toUTF8.toList.length state 0 text.toUTF8.toList = ⟨taken, some reason, last⟩) :
    deliver sink state text = ⟨text.toUTF8.toList.take taken, some (.refused reason), last⟩ := by
  simp only [deliver, h]

theorem deliver_of_taken
    (h : sink.transfer text.toUTF8.toList.length state 0 text.toUTF8.toList = ⟨taken, none, last⟩) :
    deliver sink state text =
      ⟨text.toUTF8.toList.take taken, (sink.flush last).1.map .refused, (sink.flush last).2⟩ := by
  simp only [deliver, h]

end

/-- Delivering a text to a sink, with a log and without. -/
theorem deliver_logged {σ : Type} (sink : Sink σ) (state : σ) (text : String) :
    ∃ log failure last, Session text.toUTF8.toList log failure ∧
      deliver sink state text = ⟨accepted log, failure.map .refused, last⟩ ∧
      deliver sink.logged (state, []) text = ⟨accepted log, failure.map .refused, last, log⟩ := by
  obtain ⟨calls, failure, last, hcalls, hplain, hlogged⟩ :=
    sink.transfer_logged _ state [] 0 text.toUTF8.toList (Nat.le_refl _)
  have htaken : text.toUTF8.toList.take (0 + (accepted calls).length) = accepted calls := by
    rw [Nat.zero_add]
    exact (List.prefix_iff_eq_take.mp hcalls.accepted_prefix).symm
  cases failure with
  | some reason =>
    refine ⟨calls, some reason, last, .stopped hcalls, ?_, ?_⟩
    · rw [deliver_of_refused hplain, htaken]
      rfl
    · rw [deliver_of_refused hlogged, htaken]
      rfl
  | none =>
    refine ⟨calls ++ [.flushed (sink.flush last).1], (sink.flush last).1, (sink.flush last).2,
      .flushed hcalls _, ?_, ?_⟩
    · rw [deliver_of_taken hplain, htaken]
      simp [Call.accepted]
    · rw [deliver_of_taken hlogged, htaken]
      simp [logged, Call.accepted]

namespace Session
variable {bytes : List UInt8} {log : List Call} {failure : Option String}

/-- At any time, what was taken is the beginning of the bytes. -/
theorem accepted_prefix (h : Session bytes log failure) {earlier : List Call} (hearlier : earlier <+: log) :
    accepted earlier <+: bytes := by
  have hlog : accepted log <+: bytes := by
    cases h with
    | stopped h => exact h.accepted_prefix
    | flushed h => simpa [Call.accepted] using h.accepted_prefix
  obtain ⟨later, rfl⟩ := hearlier
  rw [accepted_append] at hlog
  exact (List.prefix_append _ _).trans hlog

/-- Each write offers all that was not taken before, and there is something left to offer. -/
theorem offers (h : Session bytes log failure) {before after : List Call} {left : List UInt8} {reply : Reply}
    (hlog : log = before ++ .offered left reply :: after) : left ≠ [] ∧ accepted before ++ left = bytes := by
  have hoffers : ∀ {calls after failure}, Handover bytes calls failure →
      calls = before ++ .offered left reply :: after → left ≠ [] ∧ accepted before ++ left = bytes := by
    intro calls after failure hcalls heq
    obtain ⟨left', reply', hcall, hleft, haccepted⟩ := hcalls.offers before _ after heq
    cases hcall
    exact ⟨hleft, haccepted⟩
  cases h with
  | stopped h => exact hoffers h hlog
  | flushed h =>
    -- the last call is no write, so there is a call behind this one
    rcases after.eq_nil_or_concat with rfl | ⟨after', last, rfl⟩
    · cases (List.append_inj' hlog rfl).2
    · rw [List.concat_eq_append, ← List.cons_append, ← List.append_assoc] at hlog
      exact hoffers h (List.append_inj' hlog rfl).1

/-- A delivery succeeds exactly if all bytes are taken and the sink is flushed. -/
theorem failure_eq_none_iff (h : Session bytes log failure) :
    failure = none ↔ accepted log = bytes ∧ .flushed none ∈ log := by
  cases h with
  | stopped h =>
    have hflushed := h.flushed_notMem none
    simp [hflushed]
  | flushed h =>
    have haccepted := h.accepted_eq
    have hflushed := h.flushed_notMem none
    simp [Call.accepted, haccepted, hflushed, eq_comm]

/-- A delivery fails exactly if a call was refused, and for that reason. -/
theorem failure_eq_some_iff (h : Session bytes log failure) (reason : String) :
    failure = some reason ↔ ∃ call ∈ log, call.refusal = some reason := by
  cases h with
  | stopped h => exact (h.refusal_iff reason).symm
  | flushed h =>
    have hrefusal := h.refusal_iff reason
    simp only [List.mem_append, List.mem_singleton, or_and_right, exists_or, hrefusal]
    simp [Call.refusal]

end Session

end Sink

/-- Emitting to a sink writes all or reports, and never writes anything else. The log of the sink
tells its calls. If the modules have no Verilog form there are none, and the error is the same.
Otherwise what the sink has taken is, after each call, the beginning of the text, and each write
offers exactly the rest of it; the delivery succeeds if and only if the whole text was taken and
the sink was flushed, and it reports a refusal if and only if a write or the flush was refused,
with the reason of the sink. -/
theorem emitTo_writes_all_or_reports {σ : Type} (ms : List Module) (sink : Sink σ) (state : σ) :
    let d := emitTo ms sink.logged (state, [])
    let log := d.state.2
    emitTo ms sink state = ⟨d.received, d.failure, d.state.1⟩ ∧
    d.received = Sink.accepted log ∧
    (∀ e, (emit ms).result = .error e → log = [] ∧ d.failure = some (.lowering e)) ∧
    (∀ text, (emit ms).result = .ok text →
      (∀ earlier, earlier <+: log → Sink.accepted earlier <+: text.toUTF8.toList) ∧
      (∀ before left reply after, log = before ++ .offered left reply :: after →
        left ≠ [] ∧ Sink.accepted before ++ left = text.toUTF8.toList) ∧
      (d.failure = none ↔ Sink.accepted log = text.toUTF8.toList ∧ .flushed none ∈ log) ∧
      (∀ e, d.failure = some e ↔ ∃ call ∈ log, ∃ reason, call.refusal = some reason ∧ e = .refused reason)) := by
  cases hemit : (emit ms).result with
  | error e =>
    have hlogged : emitTo ms sink.logged (state, []) = ⟨[], some (.lowering e), state, []⟩ := by
      simp only [emitTo, hemit]
    rw [hlogged]
    refine ⟨by simp only [emitTo, hemit], rfl, ?_, (fun text htext => by cases htext)⟩
    intro e' he'
    cases he'
    exact ⟨rfl, rfl⟩
  | ok text =>
    obtain ⟨log, failure, last, hlog, hplain, hdeliver⟩ := sink.deliver_logged state text
    have hlogged : emitTo ms sink.logged (state, []) =
        ⟨Sink.accepted log, failure.map .refused, last, log⟩ := by
      simp only [emitTo, hemit, hdeliver]
    rw [hlogged]
    refine ⟨by simp only [emitTo, hemit, hplain], rfl, (fun e he => by cases he), ?_⟩
    intro text' htext'
    cases htext'
    refine ⟨fun earlier => hlog.accepted_prefix, fun before left reply after => hlog.offers, ?_, ?_⟩
    · rw [← hlog.failure_eq_none_iff]
      exact Option.map_eq_none_iff
    · intro e
      rw [Option.map_eq_some_iff]
      simp only [hlog.failure_eq_some_iff]
      constructor
      · intro ⟨reason, ⟨call, hcall, hrefusal⟩, he⟩
        exact ⟨call, hcall, reason, hrefusal, he.symm⟩
      · intro ⟨call, hcall, reason, hrefusal, he⟩
        exact ⟨reason, ⟨call, hcall, hrefusal⟩, he.symm⟩

/-- A module without ports and statements. -/
def Module.bare : Module := ⟨⟨"m", ⟨1, 1⟩⟩, [], ⟨[], ⟨1, 5⟩, ⟨1, 6⟩⟩⟩

/-- A sink that takes single bytes and has room for two of them has the first two of the text, and
has refused the third. -/
theorem emitTo_full_sink :
    let d := emitTo [.bare] (Sink.bounded (some 2) (some 1) none none).logged (0, [])
    (emit [.bare]).result = .ok "module m (\n);\nendmodule\n" ∧ d.received = [109, 111] ∧
    [109, 111] <+: "module m (\n);\nendmodule\n".toUTF8.toList ∧
    ∃ call ∈ d.state.2, call.refusal = some Sink.tookNothing := by
  intro d
  have hemit : (emit [.bare]).result = .ok "module m (\n);\nendmodule\n" := rfl
  have hreceived : d.received = [109, 111] := by decide +kernel
  have hfailure : d.failure = some (.refused Sink.tookNothing) := by decide +kernel
  obtain ⟨-, haccepted, -, htext⟩ :=
    emitTo_writes_all_or_reports [.bare] (Sink.bounded (some 2) (some 1) none none) 0
  obtain ⟨htaken, -, -, hrefused⟩ := htext _ hemit
  refine ⟨hemit, hreceived, ?_, ?_⟩
  · rw [← hreceived, haccepted]
    exact htaken _ (List.prefix_refl _)
  · obtain ⟨call, hcall, reason, hrefusal, hreason⟩ := (hrefused _).mp hfailure
    exact ⟨call, hcall, DeliveryError.refused.inj hreason ▸ hrefusal⟩

end Gateware

import Luft.Passkeys.HidFraming
import Mathlib.Data.List.Induction

/-!
# The loop that serves the passkey device

`serve` in `agent/src/device/mod.rs` waits for the next of three things: a frame of the relay, the
completion of the work it is busy with, and a keep-alive tick.  This file is that loop, one event at
a time, and the question whether every request gets its answer.

* `Serve.next` is the body of the loop; `Seen` is what an event lets an observer see: what the
  transport made of a report, and the message that is sent.
* `Serve.Synced` is the invariant: the channel the transport takes for busy is the one the loop is
  busy with.
* `AnsweredOnce` says that requests and final replies take turns, each reply on the channel of its
  request, and that the request still without an answer is the one being worked on.

The transport turns a request down only when *another* channel is busy.  A second request on the
busy channel is handed on, and takes the place of the first; `answeredOnce_iff` says that this is
the one thing that can go wrong.
-/

set_option autoImplicit false

namespace Passkeys

/-! ## What the transport hands on -/

namespace Transport

/-- What the transport can make of a report, and what becomes of the channel it takes for busy. -/
inductive Handed (t : Transport) : Option Inbound × Transport → Prop
  | nothing (t' : Transport) (h : t'.busy = t.busy) : Handed t (none, t')
  | reply (t' : Transport) (r : Message) (h : t'.busy = t.busy) (hr : r.command ≠ CBOR) :
      Handed t (some (.reply r), t')
  | request (t' : Transport) (m : Message) (h : t'.busy = some m.channel)
      (hm : t.busy = none ∨ t.busy = some m.channel) : Handed t (some (.request m), t')
  | cancel (t' : Transport) (c : UInt32) (h : t'.busy = t.busy) (hc : t.busy = some c) :
      Handed t (some (.cancel c), t')

variable {t : Transport}

theorem Handed.of_busy {t u : Transport} {out : Option Inbound × Transport}
    (h : Handed u out) (hbusy : u.busy = t.busy) : Handed t out := by
  cases h with
  | nothing t' h => exact .nothing t' (h.trans hbusy)
  | reply t' r h hr => exact .reply t' r (h.trans hbusy) hr
  | request t' m h hm => exact .request t' m h (by rwa [← hbusy])
  | cancel t' c h hc => exact .cancel t' c (h.trans hbusy) (by rwa [← hbusy])

theorem error_ne_cbor (channel : UInt32) (code : UInt8) :
    (Message.error channel code).command ≠ CBOR :=
  show ERROR ≠ CBOR by decide

theorem init_command_ne_cbor {m : Message} (hm : m.command = INIT) :
    (t.init m).1.command ≠ CBOR := by
  rw [init]
  split
  · exact error_ne_cbor _ _
  · show m.command ≠ CBOR
    rw [hm]
    decide

/-- None of the replies the transport gives by itself carries the CBOR command. -/
theorem dispatch_reply_ne_cbor {m r : Message} (h : (t.dispatch m).1 = .reply r) :
    r.command ≠ CBOR := by
  rw [dispatch] at h
  by_cases hinit : m.command = INIT
  · rw [if_pos hinit] at h
    rw [← Inbound.reply.inj h]
    exact init_command_ne_cbor hinit
  rw [if_neg hinit] at h
  split at h
  · rw [← Inbound.reply.inj h]; exact error_ne_cbor _ _
  split at h
  · rw [← Inbound.reply.inj h]; exact error_ne_cbor _ _
  split at h
  · rename_i hping
    rw [← Inbound.reply.inj h, hping]
    decide
  split at h
  · rename_i hwink
    rw [← Inbound.reply.inj h]
    show m.command ≠ CBOR
    rw [hwink]
    decide
  split at h
  · split at h
    · rw [← Inbound.reply.inj h]; exact error_ne_cbor _ _
    · exact absurd h (by simp)
  · rw [← Inbound.reply.inj h]; exact error_ne_cbor _ _

theorem handed_dispatch (t : Transport) (m : Message) :
    Handed t (some (t.dispatch m).1, (t.dispatch m).2) := by
  rcases dispatch_cases t m with ⟨r, hr, hbusy, -⟩ | ⟨h, -, -, hfree⟩
  · rw [hr]
    exact .reply _ r hbusy (dispatch_reply_ne_cbor hr)
  · rw [h]
    exact .request _ m rfl hfree

theorem handed_complete (t : Transport) (p : Partial) : Handed t (t.complete p) := by
  rw [complete]
  split
  · exact .nothing _ rfl
  · exact (handed_dispatch _ _).of_busy rfl

theorem handed_continuation (t : Transport) (channel : UInt32) (sequence : UInt8)
    (data : List UInt8) : Handed t (t.continuation channel sequence data) := by
  rw [continuation]
  cases t.incomplete with
  | none => exact .nothing _ rfl
  | some p =>
    dsimp only
    split
    · exact .nothing _ rfl
    split
    · exact .reply _ _ rfl (error_ne_cbor _ _)
    · exact (handed_complete _ _).of_busy rfl

theorem handed_start (t : Transport) (now : ℕ) (channel : UInt32) (command : UInt8) (length : ℕ)
    (data : List UInt8) : Handed t (t.start now channel command length data) := by
  rw [start]
  split
  · exact .reply _ _ rfl (error_ne_cbor _ _)
  · exact handed_complete _ _

theorem expire_busy (t : Transport) (now : ℕ) : (t.expire now).busy = t.busy := by
  rw [expire]
  split <;> rfl

/-- **What can come of a report.** -/
theorem handed_receive (t : Transport) (now : ℕ) (r : Report) : Handed t (t.receive now r) := by
  refine Handed.of_busy (u := t.expire now) ?_ (expire_busy t now)
  rw [receive]
  dsimp only
  split
  · exact handed_continuation _ _ _ _
  split
  · exact .reply _ _ rfl (error_ne_cbor _ _)
  split
  · split
    · rename_i hc
      exact .cancel _ _ rfl hc
    · exact .nothing _ rfl
  split
  · split
    · exact .reply _ _ rfl (error_ne_cbor _ _)
    split
    · exact .reply _ _ rfl (error_ne_cbor _ _)
    · exact handed_start _ _ _ _ _ _
  · exact handed_start _ _ _ _ _ _

end Transport

/-! ## The loop -/

/-- `Status::KeepaliveCancel`. -/
def KeepaliveCancel : UInt8 := 0x2D

inductive Frame
  | report (now : ℕ) (r : Report)
  | attached
  | closed
  | detached

/-- The work: an authenticator that handles a payload. -/
structure Busy (Authenticator : Type) where
  channel : UInt32
  authenticator : Authenticator
  payload : List UInt8

/-- The variables of the loop. -/
structure Serve (Authenticator : Type) where
  transport : Transport
  idle : Option Authenticator
  busy : Option (Busy Authenticator)

/-- What the loop waits for.  A completion brings the authenticator back together with its reply; a
tick comes with what `waiting` says at that moment. -/
inductive Event (Authenticator : Type)
  | frame (f : Frame)
  | finish (authenticator : Authenticator) (reply : List UInt8)
  | tick (waiting : Bool)

/-- What an event lets an observer see: what the transport made of a report, and what is sent. -/
structure Seen where
  inbound : Option Inbound
  outgoing : Option Message
  deriving DecidableEq

namespace Serve

variable {Authenticator : Type} (new : Authenticator)

/-- The state the loop starts in. -/
def start : Serve Authenticator :=
  { transport := .default, idle := some new, busy := none }

def receive (s : Serve Authenticator) (now : ℕ) (r : Report) : Seen × Serve Authenticator :=
  let inbound := (s.transport.receive now r).1
  let s := { s with transport := (s.transport.receive now r).2 }
  match inbound with
  | some (.reply message) => ({ inbound, outgoing := some message }, s)
  | some (.request message) =>
    let authenticator := s.idle.getD new
    let busy := { channel := message.channel, authenticator, payload := message.payload }
    ({ inbound, outgoing := none }, { s with idle := none, busy := some busy })
  | some (.cancel channel) =>
    ({ inbound, outgoing := some { channel, command := CBOR, payload := [KeepaliveCancel] } },
      { s with busy := none, transport := s.transport.finish })
  | none => ({ inbound, outgoing := none }, s)

/-- The body of the loop.  Without work `finish` never completes, and the tick is not polled. -/
def next (s : Serve Authenticator) : Event Authenticator → Seen × Serve Authenticator
  | .frame .attached => ({ inbound := none, outgoing := none }, s)
  | .frame .closed =>
    ({ inbound := none, outgoing := none }, { s with busy := none, transport := .default })
  | .frame .detached =>
    ({ inbound := none, outgoing := none }, { s with busy := none, transport := .default })
  | .frame (.report now r) => s.receive new now r
  | .finish authenticator reply =>
    match s.busy with
    | none => ({ inbound := none, outgoing := none }, s)
    | some done =>
      ({ inbound := none
         outgoing := some { channel := done.channel, command := CBOR, payload := reply } },
        { transport := s.transport.finish, idle := some authenticator, busy := none })
  | .tick waiting =>
    match s.busy with
    | none => ({ inbound := none, outgoing := none }, s)
    | some busy =>
      let status := if waiting then Keepalive.userNeeded else .processing
      ({ inbound := none, outgoing := some (.keepalive busy.channel status) }, s)

end Serve

/-! ## Requests and their answers -/

/-- The two things the exchange is about. -/
inductive Act
  | asked (m : Message)
  | answered (reply : Message)
  deriving DecidableEq

/-- A request is what the transport hands on as one; a final reply is a message that carries the
CBOR command. -/
def Seen.acts (seen : Seen) : List Act :=
  (match seen.inbound with
    | some (.request m) => [.asked m]
    | _ => []) ++
  (match seen.outgoing with
    | some r => if r.command = CBOR then [.answered r] else []
    | none => [])

theorem Seen.acts_nothing : (⟨none, none⟩ : Seen).acts = [] := rfl

/-- Sending anything but a final reply is no part of the exchange. -/
theorem Seen.acts_of_not_final {inbound : Option Inbound} {r : Message} (hr : r.command ≠ CBOR)
    (hinbound : ∀ m, inbound ≠ some (.request m)) : (⟨inbound, some r⟩ : Seen).acts = [] := by
  rw [Seen.acts]
  rcases inbound with - | (_ | m | _)
  · exact if_neg hr
  · exact if_neg hr
  · exact absurd rfl (hinbound m)
  · exact if_neg hr

/-- A request together with its final reply. -/
structure Exchange where
  request : Message
  reply : Message
  /-- The reply goes to the channel of the request. -/
  channel : reply.channel = request.channel

def Exchange.acts (x : Exchange) : List Act := [.asked x.request, .answered x.reply]

/-- The loop works on the request `m`. -/
def WorksOn {Authenticator : Type} (m : Message) (b : Busy Authenticator) : Prop :=
  b.channel = m.channel ∧ b.payload = m.payload

/-- **Every request is answered exactly once.**  Requests and final replies take turns, each reply
on the channel of the request before it; the request that still has no answer, if there is one, is
the one that is worked on. -/
inductive AnsweredOnce {Authenticator : Type} (acts : List Act) :
    Option (Busy Authenticator) → Prop
  | settled (done : List Exchange) (h : acts = done.flatMap Exchange.acts) : AnsweredOnce acts none
  | working (done : List Exchange) (m : Message) (b : Busy Authenticator)
      (h : acts = done.flatMap Exchange.acts ++ [.asked m]) (hb : WorksOn m b) :
      AnsweredOnce acts (some b)

variable {Authenticator : Type}

theorem answeredOnce_nil : @AnsweredOnce Authenticator [] none :=
  .settled [] rfl

/-- A request may follow when nothing is outstanding. -/
theorem AnsweredOnce.ask {acts : List Act}
    (h : AnsweredOnce acts (none : Option (Busy Authenticator))) {m : Message}
    {b : Busy Authenticator} (hb : WorksOn m b) : AnsweredOnce (acts ++ [.asked m]) (some b) := by
  cases h with
  | settled done h => exact .working done m b (by rw [h]) hb

/-- The answer to the outstanding request settles it. -/
theorem AnsweredOnce.answer {acts : List Act} {b : Busy Authenticator}
    (h : AnsweredOnce acts (some b)) {r : Message} (hr : r.channel = b.channel) :
    AnsweredOnce (acts ++ [.answered r]) (none : Option (Busy Authenticator)) := by
  cases h with
  | working done m _ h hb =>
    refine .settled (done ++ [⟨m, r, hr.trans hb.1⟩]) ?_
    rw [h, List.flatMap_append, List.append_assoc]
    rfl

/-- Whether a request is outstanding after some acts: every request is one more, every reply one
less. -/
def balance (acts : List Act) : ℤ :=
  (acts.map fun a ↦ match a with
    | .asked _ => 1
    | .answered _ => -1).sum

theorem balance_append (acts acts' : List Act) :
    balance (acts ++ acts') = balance acts + balance acts' := by
  rw [balance, List.map_append, List.sum_append, balance, balance]

theorem balance_exchanges (done : List Exchange) :
    balance (done.flatMap Exchange.acts) = 0 := by
  induction done with
  | nil => rfl
  | cons x done ih =>
    rw [List.flatMap_cons, balance_append, ih]
    rfl

/-- Never are two requests outstanding. -/
theorem AnsweredOnce.balance_eq {acts : List Act} {b : Option (Busy Authenticator)}
    (h : AnsweredOnce acts b) : balance acts = if b.isSome then 1 else 0 := by
  cases h with
  | settled done h => rw [h, balance_exchanges]; rfl
  | working done m b h hb => rw [h, balance_append, balance_exchanges]; rfl

/-! ## The invariant of the loop -/

namespace Serve

variable (new : Authenticator)

/-- The transport takes that channel for busy which the loop is busy with. -/
def Synced (s : Serve Authenticator) : Prop :=
  s.transport.busy = s.busy.map Busy.channel

/-- The event does not complete a request while there is work. -/
def Alone (s : Serve Authenticator) (e : Event Authenticator) : Prop :=
  ∀ now r m, e = .frame (.report now r) →
    (s.transport.receive now r).1 = some (.request m) → s.busy = none

/-- Traffic: anything but the device being closed or detached, which resets the transport. -/
def Traffic (e : Event Authenticator) : Prop :=
  e ≠ .frame .closed ∧ e ≠ .frame .detached

theorem keepalive_not_final (channel : UInt32) (status : Keepalive) :
    (Message.keepalive channel status).command ≠ CBOR :=
  show KEEPALIVE ≠ CBOR by decide

theorem synced_start : (start new).Synced := rfl

theorem synced_receive {s : Serve Authenticator} (hs : s.Synced) (now : ℕ) (r : Report) :
    (s.receive new now r).2.Synced := by
  have hhanded := s.transport.handed_receive now r
  rw [receive]
  generalize s.transport.receive now r = out at hhanded
  cases hhanded with
  | nothing t' h => exact h.trans hs
  | reply t' r h hr => exact h.trans hs
  | request t' m h hm => exact h
  | cancel t' c h hc => rfl

/-- **One event**: the transport and the loop stay in step. -/
theorem synced_next {s : Serve Authenticator} (hs : s.Synced) (e : Event Authenticator) :
    (s.next new e).2.Synced := by
  cases e with
  | frame f =>
    cases f with
    | report now r => exact synced_receive new hs now r
    | attached => exact hs
    | closed => rfl
    | detached => rfl
  | finish authenticator reply =>
    rw [next]
    cases hbusy : s.busy with
    | none => exact hs
    | some done => rfl
  | tick waiting =>
    rw [next]
    cases hbusy : s.busy with
    | none => exact hs
    | some busy => exact hs

/-- What a report adds to the exchange. -/
theorem answeredOnce_receive {s : Serve Authenticator} (hs : s.Synced) {acts : List Act}
    (h : AnsweredOnce acts s.busy) {now : ℕ} {r : Report}
    (halone : s.Alone (.frame (.report now r))) :
    AnsweredOnce (acts ++ (s.receive new now r).1.acts) (s.receive new now r).2.busy := by
  have hhanded := s.transport.handed_receive now r
  have hfree := fun m ↦ halone now r m rfl
  rw [receive]
  generalize s.transport.receive now r = out at hhanded hfree
  cases hhanded with
  | nothing t' h' =>
    dsimp only
    rw [Seen.acts_nothing, List.append_nil]
    exact h
  | reply t' r' h' hr =>
    dsimp only
    rw [Seen.acts_of_not_final hr (by simp), List.append_nil]
    exact h
  | request t' m h' hm =>
    have hnone : s.busy = none := hfree m rfl
    rw [hnone] at h
    exact h.ask ⟨rfl, rfl⟩
  | cancel t' c h' hc =>
    -- the transport passes a cancel on only when it takes that channel for busy
    rw [hs] at hc
    obtain ⟨b, hb, rfl⟩ := Option.map_eq_some_iff.1 hc
    rw [hb] at h
    exact h.answer rfl

/-- **One event** keeps requests and answers in turn, as long as it does not complete a request
while there is work. -/
theorem answeredOnce_next {s : Serve Authenticator} (hs : s.Synced) {acts : List Act}
    (h : AnsweredOnce acts s.busy) {e : Event Authenticator} (htraffic : Traffic e)
    (halone : s.Alone e) :
    AnsweredOnce (acts ++ (s.next new e).1.acts) (s.next new e).2.busy := by
  cases e with
  | frame f =>
    cases f with
    | report now r => exact answeredOnce_receive new hs h halone
    | attached => rwa [show (s.next new (.frame .attached)).1.acts = [] from rfl, List.append_nil]
    | closed => exact absurd rfl htraffic.1
    | detached => exact absurd rfl htraffic.2
  | finish authenticator reply =>
    rw [next]
    cases hbusy : s.busy with
    | none =>
      dsimp only
      rw [Seen.acts_nothing, List.append_nil]
      exact h
    | some done =>
      rw [hbusy] at h
      exact h.answer rfl
  | tick waiting =>
    rw [next]
    cases hbusy : s.busy with
    | none =>
      dsimp only
      rw [Seen.acts_nothing, List.append_nil]
      exact h
    | some busy =>
      dsimp only
      rw [Seen.acts_of_not_final (keepalive_not_final _ _) (by simp), List.append_nil]
      exact h

/-! ## Whole runs -/

/-- The state after some events, from the start. -/
abbrev after (es : List (Event Authenticator)) : Serve Authenticator :=
  Mealy.final (next new) (start new) es

/-- The requests and final replies of a run, in order. -/
abbrev exchange (es : List (Event Authenticator)) : List Act :=
  (Mealy.outputs (next new) (start new) es).flatMap Seen.acts

theorem after_concat (es : List (Event Authenticator)) (e : Event Authenticator) :
    after new (es ++ [e]) = ((after new es).next new e).2 := by
  rw [after, Mealy.final_append, Mealy.final_cons, Mealy.final_nil]

theorem exchange_concat (es : List (Event Authenticator)) (e : Event Authenticator) :
    exchange new (es ++ [e]) = exchange new es ++ ((after new es).next new e).1.acts := by
  rw [exchange, Mealy.outputs_append, List.flatMap_append, Mealy.outputs_cons, List.flatMap_cons,
    Mealy.outputs_nil, List.flatMap_nil, List.append_nil]

theorem synced_after (es : List (Event Authenticator)) : (after new es).Synced :=
  @Mealy.run_invariant _ _ _ (next new) Synced (fun _ ↦ True)
    (fun _ e hs _ ↦ synced_next new hs e) _ (synced_start new) es (fun _ _ ↦ trivial)

/-- **A run in which no request is completed while there is work** answers every request once. -/
theorem answeredOnce_run {es : List (Event Authenticator)} (htraffic : ∀ e ∈ es, Traffic e)
    (halone : ∀ pre e post, es = pre ++ e :: post → (after new pre).Alone e) :
    AnsweredOnce (exchange new es) (after new es).busy := by
  induction es using List.reverseRecOn with
  | nil => exact answeredOnce_nil
  | append_singleton es e ih =>
    have h := ih (fun e' he' ↦ htraffic e' (List.mem_append_left [e] he'))
      (fun pre e' post hes ↦ halone pre e' (post ++ [e]) (by rw [hes]; simp))
    rw [exchange_concat, after_concat]
    exact answeredOnce_next new (synced_after new es) h (htraffic e (by simp))
      (halone es e [] rfl)

/-- **When every request is answered exactly once**: in a run of reports, cancels, ticks and
completions, at every moment of it, exactly when no report completes a request while the one before
is still worked on. -/
theorem answeredOnce_iff {es : List (Event Authenticator)} (htraffic : ∀ e ∈ es, Traffic e) :
    (∀ pre post, es = pre ++ post → AnsweredOnce (exchange new pre) (after new pre).busy) ↔
      ∀ pre e post, es = pre ++ e :: post → (after new pre).Alone e := by
  constructor
  · rintro h pre e post rfl now r m rfl hrequest
    have hbefore := (h pre _ rfl).balance_eq
    have hafter := (h (pre ++ [.frame (.report now r)]) post (by simp)).balance_eq
    rw [exchange_concat, balance_append, hbefore, after_concat] at hafter
    by_contra hbusy
    -- the request is asked for on top of the one that is outstanding
    have hnext : (after new pre).next new (.frame (.report now r)) =
        (after new pre).receive new now r := rfl
    rw [hnext, receive, hrequest] at hafter
    cases hb : (after new pre).busy with
    | none => exact hbusy hb
    | some b => simp [hb, balance, Seen.acts] at hafter
  · rintro halone pre post rfl
    refine answeredOnce_run new (fun e he ↦ htraffic e (List.mem_append_left post he)) ?_
    intro pre' e post' hpre
    exact halone pre' e (post' ++ post) (by rw [hpre]; simp)

/-- A client takes a channel and sends a request on it. -/
def asks : List (Event Unit) :=
  [.frame (.report 0 (⟨BROADCAST, INIT, List.replicate 8 0⟩ : Message).init),
    .frame (.report 1 (⟨1, CBOR, [4]⟩ : Message).init)]

theorem asks_traffic {e : Event Unit} (he : Traffic e) : ∀ e' ∈ asks ++ [e], Traffic e' := by
  intro e' he'
  simp only [asks, List.cons_append, List.nil_append, List.mem_cons, List.not_mem_nil,
    or_false] at he'
  rcases he' with rfl | rfl | rfl
  · exact ⟨by simp, by simp⟩
  · exact ⟨by simp, by simp⟩
  · exact he

/-- One request, completed. -/
theorem answeredOnce_asks :
    AnsweredOnce (exchange () (asks ++ [.finish () [0]]))
      (after () (asks ++ [.finish () [0]])).busy := by
  refine (answeredOnce_iff () (asks_traffic ⟨by simp, by simp⟩)).2 ?_ _ [] (List.append_nil _).symm
  rintro (- | ⟨e₀, - | ⟨e₁, pre⟩⟩) e post h now r m rfl hrequest
  · rfl
  · simp only [asks, List.cons_append, List.nil_append, List.cons.injEq] at h
    obtain ⟨rfl, -⟩ := h
    decide +kernel
  · -- the third event is the completion, which is no report
    rw [asks] at h
    cases pre <;> simp at h

/-- A second request on the channel that is being worked on is handed on as well. -/
theorem not_answeredOnce_asks :
    (∀ e ∈ asks ++ [.frame (.report 2 (⟨1, CBOR, [4]⟩ : Message).init)], Traffic e) ∧
    ¬ AnsweredOnce (exchange () (asks ++ [.frame (.report 2 (⟨1, CBOR, [4]⟩ : Message).init)]))
      (after () (asks ++ [.frame (.report 2 (⟨1, CBOR, [4]⟩ : Message).init)])).busy := by
  refine ⟨asks_traffic ⟨by simp, by simp⟩, fun h ↦ ?_⟩
  have htwo : balance (exchange ()
      (asks ++ [.frame (.report 2 (⟨1, CBOR, [4]⟩ : Message).init)])) = 2 := by decide +kernel
  have hone := h.balance_eq
  rw [htwo] at hone
  split at hone <;> exact absurd hone (by decide)

end Serve

end Passkeys

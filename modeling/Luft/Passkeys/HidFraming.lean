import Luft.Passkeys.Hid

/-!
# Putting a message back together

What the transport reads off a report `Message.reports` wrote, and what happens when the reports of
a message come in one after the other: nothing until the last one, and then the message is
dispatched whole.

The invariant of the collection is `Collecting`: the slot holds the front of the payload, and the
next sequence number is the number of continuation reports already seen.  A message needs at most
128 of those, so the numbers never reach the bit that marks initialisation reports.
-/

set_option autoImplicit false

namespace Passkeys

open BigEndian Chunks

/-! ## Reading what was written -/

/-- A statement about bytes holds when it holds of all 256 of them. -/
private theorem forall_byte {p : UInt8 → Prop} (h : ∀ n : Fin 256, p (.ofNat n)) (c : UInt8) :
    p c := by
  have := h ⟨c.toNat, c.toNat_lt⟩
  rwa [UInt8.ofNat_toNat] at this

theorem or_top_ne_zero (c : UInt8) : (c ||| 0x80) &&& 0x80 ≠ 0 := by
  exact forall_byte (p := fun c ↦ (c ||| 0x80) &&& 0x80 ≠ 0) (by decide +kernel) c

theorem or_top_and {c : UInt8} (h : c &&& 0x80 = 0) : (c ||| 0x80) &&& 0x7F = c :=
  forall_byte (p := fun c ↦ c &&& 0x80 = 0 → (c ||| 0x80) &&& 0x7F = c) (by decide +kernel) c h

theorem sequence_and_top {i : ℕ} (h : i < 128) : UInt8.ofNat i &&& 0x80 = 0 := by
  have hall : ∀ n : Fin 128, UInt8.ofNat n &&& 0x80 = 0 := by decide +kernel
  exact hall ⟨i, h⟩

@[simp] theorem INIT_DATA_eq : INIT_DATA = 57 := rfl
@[simp] theorem CONT_DATA_eq : CONT_DATA = 59 := rfl
@[simp] theorem REPORT_eq : REPORT = 64 := rfl
@[simp] theorem MAX_MESSAGE_eq : MAX_MESSAGE = 7609 := rfl

private theorem getD_append_cons {a : List UInt8} {n : ℕ} (h : a.length = n) (b : UInt8)
    (c : List UInt8) : (a ++ ([b] ++ c)).getD n 0 = b := by
  rw [List.getD_eq_getElem?_getD, List.getElem?_append_right (by omega), ← h, Nat.sub_self]
  rfl

theorem ofNat_ofBe_channel (c : UInt32) : UInt32.ofNat (ofBe (be 4 c.toNat)) = c := by
  rw [ofBe_be (by have := c.toNat_lt; omega), UInt32.ofNat_toNat]

namespace Message

variable (m : Message)

theorem init_bytes :
    m.init.bytes = be 4 m.channel.toNat ++ ([m.command ||| 0x80] ++ (be 2 m.payload.length ++
      (m.payload.take INIT_DATA ++
        List.replicate (57 - (m.payload.take INIT_DATA).length) 0))) := by
  rw [init, Report.of_bytes (by simp; omega)]
  simp only [List.append_assoc, List.length_append, length_be, List.length_cons, List.length_nil,
    REPORT_eq]
  congr 5
  omega

theorem cont_bytes (sequence : UInt8) {chunk : List UInt8} (h : chunk.length ≤ CONT_DATA) :
    (m.cont sequence chunk).bytes = be 4 m.channel.toNat ++ ([sequence] ++ (chunk ++
      List.replicate (59 - chunk.length) 0)) := by
  rw [CONT_DATA_eq] at h
  rw [cont, Report.of_bytes (by simp; omega)]
  simp only [List.append_assoc, List.length_append, length_be, List.length_cons, List.length_nil,
    REPORT_eq]
  congr 4
  omega

@[simp] theorem init_channel : m.init.channel = m.channel := by
  rw [Report.channel, init_bytes, List.take_left' (length_be _ _), ofNat_ofBe_channel]

@[simp] theorem init_kind : m.init.kind = m.command ||| 0x80 := by
  rw [Report.kind, init_bytes, getD_append_cons (length_be _ _)]

theorem init_not_isCont : ¬ m.init.IsCont := by
  rw [Report.IsCont, init_kind]
  exact or_top_ne_zero _

theorem init_command (h : m.command &&& 0x80 = 0) : m.init.command = m.command := by
  rw [Report.command, init_kind, or_top_and h]

theorem init_length (h : m.payload.length < 2 ^ 16) : m.init.length = m.payload.length := by
  rw [Report.length, init_bytes, ← List.append_assoc, List.drop_left' (by simp),
    List.take_left' (length_be _ _), ofBe_be (by omega)]

theorem init_data : (m.init.bytes.drop 7).take (min m.payload.length INIT_DATA) =
    m.payload.take INIT_DATA := by
  rw [init_bytes, ← List.append_assoc, ← List.append_assoc, List.drop_left' (by simp),
    List.take_left' (by rw [List.length_take, Nat.min_comm])]

theorem cont_channel (sequence : UInt8) {chunk : List UInt8} (h : chunk.length ≤ CONT_DATA) :
    (m.cont sequence chunk).channel = m.channel := by
  rw [Report.channel, cont_bytes m sequence h, List.take_left' (length_be _ _),
    ofNat_ofBe_channel]

theorem cont_kind (sequence : UInt8) {chunk : List UInt8} (h : chunk.length ≤ CONT_DATA) :
    (m.cont sequence chunk).kind = sequence := by
  rw [Report.kind, cont_bytes m sequence h, getD_append_cons (length_be _ _)]

theorem cont_data (sequence : UInt8) {chunk : List UInt8} (h : chunk.length ≤ CONT_DATA) :
    ((m.cont sequence chunk).bytes.drop 5).take chunk.length = chunk := by
  rw [cont_bytes m sequence h, ← List.append_assoc, List.drop_left' (by simp),
    List.take_left' rfl]

theorem conts_nil (first : ℕ) : m.conts first [] = [] := rfl

theorem conts_of_ne_nil (first : ℕ) {rest : List UInt8} (h : rest ≠ []) :
    m.conts first rest =
      m.cont (.ofNat first) (rest.take CONT_DATA) ::
        m.conts (first + 1) (rest.drop CONT_DATA) := by
  rw [conts, chunks_of_ne_nil (by decide) h, List.zipIdx_cons, List.map_cons, conts]

/-- The continuation reports of `m` from the `i`-th on. -/
abbrev later (i : ℕ) : List Report :=
  m.conts i (m.payload.drop (INIT_DATA + CONT_DATA * i))

theorem later_of_le {i : ℕ} (h : m.payload.length ≤ INIT_DATA + CONT_DATA * i) :
    m.later i = [] := by
  rw [later, List.drop_eq_nil_of_le h, conts_nil]

/-- The part of the payload the `i`-th continuation report carries. -/
abbrev part (i : ℕ) : List UInt8 :=
  (m.payload.drop (INIT_DATA + CONT_DATA * i)).take CONT_DATA

theorem later_of_lt {i : ℕ} (h : INIT_DATA + CONT_DATA * i < m.payload.length) :
    m.later i = m.cont (.ofNat i) (m.part i) :: m.later (i + 1) := by
  have hne : m.payload.drop (INIT_DATA + CONT_DATA * i) ≠ [] := by
    rw [Ne, List.drop_eq_nil_iff]
    omega
  rw [later, conts_of_ne_nil m i hne, List.drop_drop]
  rfl

theorem reports_eq (h : m.payload.length ≤ MAX_MESSAGE) :
    m.reports = some (m.init :: m.later 0) := by
  rw [MAX_MESSAGE_eq] at h
  rw [reports, if_pos (by omega)]
  rfl

/-! ## Collecting -/

/-- What the slot holds once the first report and `i` continuation reports of `m` are in. -/
def collected (i started : ℕ) : Partial :=
  { message := { m with payload := m.payload.take (INIT_DATA + CONT_DATA * i) }
    length := m.payload.length, sequence := .ofNat i, started }

/-- The slot is waiting for the `i`-th continuation report of `m`. -/
structure Collecting (i started : ℕ) (t : Transport) : Prop where
  slot : t.incomplete = some (m.collected i started)
  more : INIT_DATA + CONT_DATA * i < m.payload.length
  fits : m.payload.length ≤ MAX_MESSAGE

/-- While the slot is collecting, the sequence number is one of the 128 that leave the top bit
clear. -/
theorem Collecting.lt_128 {m : Message} {i started : ℕ} {t : Transport}
    (h : m.Collecting i started t) : i < 128 := by
  obtain ⟨-, hmore, hfits⟩ := h
  simp only [INIT_DATA_eq, CONT_DATA_eq, MAX_MESSAGE_eq] at hmore hfits
  omega

end Message

namespace Transport

variable {t : Transport} {m : Message} {i started now : ℕ}

theorem expire_of_incomplete_none (h : t.incomplete = none) : t.expire now = t := by
  rw [expire, h]
  rfl

theorem expire_of_fresh {p : Partial} (h : t.incomplete = some p)
    (hnow : now ≤ p.started + STALE_MESSAGE) : t.expire now = t := by
  have hfresh : ¬ STALE_MESSAGE < now - p.started := by omega
  rw [expire, h, Option.any_some, if_neg (by simpa using hfresh)]

/-- Completing what is collected dispatches `m` once the whole payload is there, and waits for the
next continuation report before that. -/
theorem complete_collected (t : Transport) (m : Message) (i started : ℕ) :
    t.complete (m.collected i started) =
      if INIT_DATA + CONT_DATA * i < m.payload.length then
        (none, { t with incomplete := some (m.collected i started) })
      else
        (some (({ t with incomplete := none } : Transport).dispatch m).1,
          (({ t with incomplete := none } : Transport).dispatch m).2) := by
  have hlen : (m.collected i started).message.payload.length < (m.collected i started).length ↔
      INIT_DATA + CONT_DATA * i < m.payload.length := by
    show (m.payload.take _).length < m.payload.length ↔ _
    rw [List.length_take]
    omega
  rw [complete, if_congr hlen rfl rfl]
  split
  · rfl
  · rename_i h
    have hm : (m.collected i started).message = m := by
      rw [Message.collected, List.take_of_length_le (by omega)]
    rw [hm]

/-- The first report of a message starts the collection. -/
theorem receive_init (h0 : m.channel ≠ 0) (hc : m.command &&& 0x80 = 0)
    (hcancel : m.command ≠ CANCEL) (hlen : m.payload.length ≤ MAX_MESSAGE)
    (ht : t.incomplete = none) : t.receive now m.init = t.complete (m.collected 0 now) := by
  have hfit : m.payload.length < 2 ^ 16 := by rw [MAX_MESSAGE_eq] at hlen; omega
  have hstart : t.start now m.channel m.command m.payload.length (m.init.bytes.drop 7) =
      t.complete (m.collected 0 now) := by
    rw [start, if_neg (by omega), Message.init_data]
    rfl
  rw [receive, expire_of_incomplete_none ht]
  simp only [if_neg (Message.init_not_isCont m), Message.init_channel, Message.init_command m hc,
    Message.init_length m hfit, if_neg h0, if_neg hcancel, ht, hstart]

/-- The next continuation report adds its part of the payload. -/
theorem receive_cont (h : m.Collecting i started t) (hnow : now ≤ started + STALE_MESSAGE) :
    t.receive now (m.cont (.ofNat i) (m.part i)) =
      ({ t with incomplete := none } : Transport).complete (m.collected (i + 1) started) := by
  have hpart : (m.part i).length ≤ CONT_DATA := List.length_take_le _ _
  have hkind : (m.cont (.ofNat i) (m.part i)).IsCont := by
    rw [Report.IsCont, Message.cont_kind m _ hpart]
    exact sequence_and_top h.lt_128
  have hdata : ((m.cont (.ofNat i) (m.part i)).bytes.drop 5).take
      (min (m.payload.length - (m.payload.take (INIT_DATA + CONT_DATA * i)).length) CONT_DATA) =
        m.part i := by
    have hneeded : min (m.payload.length - (m.payload.take (INIT_DATA + CONT_DATA * i)).length)
        CONT_DATA = (m.part i).length := by
      have := h.more
      rw [List.length_take, Message.part, List.length_take, List.length_drop]
      omega
    rw [hneeded, Message.cont_data m _ hpart]
  have hnext : m.payload.take (INIT_DATA + CONT_DATA * i) ++ m.part i =
      m.payload.take (INIT_DATA + CONT_DATA * (i + 1)) := by
    rw [Message.part, ← List.take_add]
    rfl
  rw [receive, expire_of_fresh h.slot hnow]
  simp only [if_pos hkind, continuation, h.slot, Message.cont_channel m _ hpart,
    Message.cont_kind m _ hpart]
  simp only [Message.collected, ne_eq, not_true_eq_false, if_false, hdata, hnext,
    UInt8.ofNat_add]
  rfl

theorem complete_of_le (t : Transport) (started : ℕ)
    (h : m.payload.length ≤ INIT_DATA + CONT_DATA * i) :
    t.complete (m.collected i started) =
      (some (({ t with incomplete := none } : Transport).dispatch m).1,
        (({ t with incomplete := none } : Transport).dispatch m).2) := by
  rw [complete_collected, if_neg (by omega)]

theorem complete_of_lt (t : Transport) (started : ℕ)
    (h : INIT_DATA + CONT_DATA * i < m.payload.length) :
    t.complete (m.collected i started) =
      (none, { t with incomplete := some (m.collected i started) }) := by
  rw [complete_collected, if_pos h]

/-- **The rest of a message, report after report**: silence, and then the dispatch of the whole
message. -/
theorem feed_later (hlen : m.payload.length ≤ MAX_MESSAGE) {es : List (ℕ × Report)}
    (hes : es.map Prod.snd = m.later i) (hnow : ∀ e ∈ es, e.1 ≤ started + STALE_MESSAGE)
    (t : Transport) :
    (t.complete (m.collected i started)).1 ::
        Mealy.outputs step (t.complete (m.collected i started)).2 es =
      List.replicate es.length none ++
        [some (({ t with incomplete := none } : Transport).dispatch m).1] ∧
    Mealy.final step (t.complete (m.collected i started)).2 es =
      (({ t with incomplete := none } : Transport).dispatch m).2 := by
  induction es generalizing i t with
  | nil =>
    have hle : m.payload.length ≤ INIT_DATA + CONT_DATA * i := by
      by_contra hlt
      rw [m.later_of_lt (by omega)] at hes
      exact absurd hes (by simp)
    rw [complete_of_le t started hle]
    exact ⟨rfl, rfl⟩
  | cons e es ih =>
    have hlt : INIT_DATA + CONT_DATA * i < m.payload.length := by
      by_contra hle
      rw [m.later_of_le (by omega)] at hes
      exact absurd hes (by simp)
    rw [m.later_of_lt hlt, List.map_cons, List.cons_eq_cons] at hes
    obtain ⟨hhead, htail⟩ := hes
    have hcollecting : m.Collecting i started
        { t with incomplete := some (m.collected i started) } := ⟨rfl, hlt, hlen⟩
    have hstep : step { t with incomplete := some (m.collected i started) } e =
        ({ t with incomplete := none } : Transport).complete (m.collected (i + 1) started) := by
      rw [step, hhead, receive_cont hcollecting (hnow e List.mem_cons_self)]
    have hrest := ih htail (fun e' he' ↦ hnow e' (List.mem_cons_of_mem e he'))
      { t with incomplete := none }
    rw [complete_of_lt t started hlt, Mealy.outputs_cons, Mealy.final_cons, hstep]
    exact ⟨by rw [hrest.1, List.length_cons, List.replicate_succ]; rfl, hrest.2⟩

/-- **A message put back together**: its reports, fed one after the other to a transport that is
not collecting anything, are met with silence up to the last one, and that one dispatches it. -/
theorem feed_reports (h0 : m.channel ≠ 0) (hc : m.command &&& 0x80 = 0)
    (hcancel : m.command ≠ CANCEL) (hlen : m.payload.length ≤ MAX_MESSAGE)
    (ht : t.incomplete = none) {e : ℕ × Report} {es : List (ℕ × Report)}
    (hes : m.reports = some ((e :: es).map Prod.snd))
    (hnow : ∀ e' ∈ es, e'.1 ≤ e.1 + STALE_MESSAGE) :
    t.feed (e :: es) =
      (List.replicate es.length none ++ [some (t.dispatch m).1], (t.dispatch m).2) := by
  rw [m.reports_eq hlen, Option.some_inj, List.map_cons, List.cons_eq_cons] at hes
  obtain ⟨hhead, htail⟩ := hes
  have hslot : ({ t with incomplete := none } : Transport) = t := by rw [← ht]
  have hstep : step t e = t.complete (m.collected 0 e.1) := by
    rw [step, ← hhead, receive_init h0 hc hcancel hlen ht]
  have hrest := feed_later hlen htail.symm hnow t
  rw [hslot, ← hstep] at hrest
  rw [feed, Mealy.run_cons]
  exact Prod.ext hrest.1 hrest.2

/-! ## Requests -/

/-- A command the transport hands to the agent, in some state and with some payload. -/
def IsRequest (command : UInt8) : Prop :=
  ∃ (t : Transport) (m : Message), m.command = command ∧ (t.dispatch m).1 = .request m

/-- **What a dispatch can do**: reply, which leaves the note of the outstanding request as it is,
or hand on a CBOR request and note its channel.  The slot is not touched either way. -/
theorem dispatch_cases (t : Transport) (m : Message) :
    (∃ r, (t.dispatch m).1 = .reply r ∧ (t.dispatch m).2.busy = t.busy ∧
      (t.dispatch m).2.incomplete = t.incomplete) ∨
    (t.dispatch m = (.request m, { t with busy := some m.channel }) ∧ m.command = CBOR ∧
      m.payload ≠ [] ∧ (t.busy = none ∨ t.busy = some m.channel)) := by
  rw [dispatch]
  by_cases hinit : m.command = INIT
  · left
    rw [if_pos hinit, init]
    split
    · exact ⟨_, rfl, rfl, rfl⟩
    · refine ⟨_, rfl, ?_, ?_⟩ <;> by_cases hb : m.channel = BROADCAST <;> simp [hb]
  rw [if_neg hinit]
  split
  · exact .inl ⟨_, rfl, rfl, rfl⟩
  split
  · exact .inl ⟨_, rfl, rfl, rfl⟩
  rename_i hbusy
  split
  · exact .inl ⟨_, rfl, rfl, rfl⟩
  split
  · exact .inl ⟨_, rfl, rfl, rfl⟩
  split
  · rename_i hcbor
    split
    · exact .inl ⟨_, rfl, rfl, rfl⟩
    · rename_i hpayload
      refine .inr ⟨rfl, hcbor, hpayload, ?_⟩
      cases hb : t.busy with
      | none => exact .inl rfl
      | some c =>
        rw [hb, Option.any_some] at hbusy
        exact .inr (congrArg some (by simpa using hbusy))
  · exact .inl ⟨_, rfl, rfl, rfl⟩

/-- CBOR is the only command that is ever handed on. -/
theorem IsRequest.eq_CBOR {command : UInt8} (h : IsRequest command) : command = CBOR := by
  obtain ⟨t, m, rfl, hm⟩ := h
  rcases dispatch_cases t m with ⟨r, hr, -⟩ | ⟨-, hcbor, -⟩
  · exact absurd (hr.symm.trans hm) (by simp)
  · exact hcbor

/-- What happens to a CBOR message on a channel that has been given away, while nothing is
outstanding. -/
theorem dispatch_cbor (hm : m.command = CBOR) (hchannel : t.Allocated m.channel)
    (hbusy : t.busy = none) :
    t.dispatch m =
      if m.payload = [] then (.reply (.error m.channel ERR_INVALID_LEN), t)
      else (.request m, { t with busy := some m.channel }) := by
  obtain ⟨-, hbroadcast, hlt⟩ := hchannel
  have hvalid : ¬ (m.channel = BROADCAST ∨ t.nextChannel ≤ m.channel) := by
    rintro (h | h)
    · exact hbroadcast h
    · exact absurd hlt (UInt32.not_lt.2 h)
  have hfree : ¬ (t.busy.any fun c ↦ c ≠ m.channel) = true := by rw [hbusy]; simp
  rw [dispatch]
  simp only [hm, if_neg (show CBOR ≠ INIT by decide), if_neg hvalid, if_neg hfree,
    if_neg (show CBOR ≠ PING by decide), if_neg (show CBOR ≠ WINK by decide), if_true]

/-- **The round trip**: on a channel that has been given away, with nothing being collected and
nothing outstanding, the reports of a request are met with silence until the last one, and that one
yields the request as it was sent.  The empty payload is the one that is turned down, with a single
`ERR_INVALID_LEN`. -/
theorem feed_request {t : Transport} {channel : UInt32} {command : UInt8} {payload : List UInt8}
    (hcommand : IsRequest command) (hchannel : t.Allocated channel)
    (hslot : t.incomplete = none) (hbusy : t.busy = none)
    (hlen : payload.length ≤ MAX_MESSAGE) {e : ℕ × Report} {es : List (ℕ × Report)}
    (hes : (⟨channel, command, payload⟩ : Message).reports = some ((e :: es).map Prod.snd))
    (hnow : ∀ e' ∈ es, e'.1 ≤ e.1 + STALE_MESSAGE) :
    (t.feed (e :: es)).1 =
      List.replicate es.length none ++
        [some (if payload = [] then .reply (.error channel ERR_INVALID_LEN)
          else .request ⟨channel, command, payload⟩)] := by
  obtain rfl := hcommand.eq_CBOR
  rw [feed_reports (m := ⟨channel, CBOR, payload⟩) hchannel.1
    (show CBOR &&& 0x80 = 0 by decide) (show CBOR ≠ CANCEL by decide) hlen hslot hes hnow, dispatch_cbor rfl hchannel hbusy]
  split <;> rfl

/-- A transport that has given channel 1 away and is idle. -/
def one : Transport := { incomplete := none, nextChannel := 2, busy := none }

theorem one_allocated : one.Allocated 1 := ⟨by decide, by decide, by decide⟩

theorem isRequest_CBOR : IsRequest CBOR := ⟨one, ⟨1, CBOR, [4]⟩, rfl, by decide⟩

/-- Sixty bytes take two reports. -/
def sixty : Message := ⟨1, CBOR, List.replicate 60 4⟩

theorem feed_request_sixty :
    (one.feed [(0, sixty.init), (9, sixty.cont 0 (List.replicate 3 4))]).1 =
      [none, some (.request sixty)] :=
  @feed_request one 1 CBOR (List.replicate 60 4) isRequest_CBOR one_allocated rfl rfl (by decide)
    (0, _) [(9, _)] rfl (by decide)

/-- A request without a payload comes in one report and is turned down. -/
theorem feed_request_empty :
    IsRequest CBOR ∧ one.Allocated 1 ∧ one.incomplete = none ∧ one.busy = none ∧
    (⟨1, CBOR, []⟩ : Message).reports = some [(⟨1, CBOR, []⟩ : Message).init] ∧
    (one.feed [(0, (⟨1, CBOR, []⟩ : Message).init)]).1 ≠ [some (.request ⟨1, CBOR, []⟩)] :=
  ⟨isRequest_CBOR, one_allocated, rfl, rfl, rfl, by decide +kernel⟩

end Transport

end Passkeys

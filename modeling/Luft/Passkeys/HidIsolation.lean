import Luft.Passkeys.HidFraming

/-!
# Two channels at once

The transport collects one message at a time, and reports of other channels arrive between those of
the message it is collecting.  Which of them get in the way?

* `Harmless` reports are the initialisation packets the transport turns away: those on channel 0,
  and those of any command but `INIT`.  They leave the state as it is (`step_harmless`).
* Every other report of another channel costs the message: a continuation empties the slot before
  its channel is looked at, and an `INIT` puts its own message there (`step_harmful`).  From then
  on the rest of the message goes unheard (`deaf`).

`isolated_iff` puts the two together: the message gets through untouched exactly when all that
arrives from other channels in between is harmless.
-/

set_option autoImplicit false

namespace Passkeys

variable {m : Message} {t : Transport} {i started : ℕ}

/-! ## The setting -/

/-- A report of another channel that the transport turns away. -/
def Harmless (r : Report) : Prop := ¬ r.IsCont ∧ (r.channel = 0 ∨ r.command ≠ INIT)

/-- What another channel may hear while a message is being collected: that the transport is busy,
that the channel is none, or the answer to its own `INIT`.  A cancel is no reply: it is passed on to
the agent. -/
def Answer (channel : UInt32) : Option Inbound → Prop
  | none => True
  | some (.reply r) =>
    r = .error channel ERR_CHANNEL_BUSY ∨ r = .error channel ERR_INVALID_CHANNEL ∨
      (r.channel = channel ∧ r.command = INIT)
  | some (.request _) => False
  | some (.cancel c) => c = channel

/-- `m` is sent in order, with any reports of other channels in between, and its last report
arrives before the message goes stale. -/
structure Sent (m : Message) (t : Transport) (before : List (ℕ × Report)) (last : ℕ × Report) :
    Prop where
  channel : m.channel ≠ 0
  command : m.command &&& 0x80 = 0
  fits : m.payload.length ≤ MAX_MESSAGE
  slot : t.incomplete = none
  reports : m.reports = some
    (((before ++ [last]).filter fun e ↦ e.2.channel = m.channel).map Prod.snd)
  starts : ∀ e ∈ (before ++ [last]).head?, e.2.channel = m.channel
  ends : last.2.channel = m.channel
  inTime : ∀ f ∈ (before ++ [last]).head?, ∀ e ∈ before ++ [last], e.1 ≤ f.1 + STALE_MESSAGE

/-- `m` gets through: its reports are met with silence until the last one dispatches it, whatever
arrives from other channels, and these hear nothing but what they may. -/
structure Isolated (m : Message) (t : Transport) (before : List (ℕ × Report))
    (last : ℕ × Report) : Prop where
  quiet : ∀ x ∈ before.zip (Mealy.outputs Transport.step t before),
    x.1.2.channel = m.channel → x.2 = none
  others : ∀ x ∈ before.zip (Mealy.outputs Transport.step t before),
    x.1.2.channel ≠ m.channel → Answer x.1.2.channel x.2
  dispatched : (Mealy.final Transport.step t before).step last =
    let t' : Transport := { Mealy.final Transport.step t before with incomplete := none }
    (some (t'.dispatch m).1, (t'.dispatch m).2)

namespace Message

/-- What comes after the first report of a message are continuation reports. -/
theorem isCont_of_mem_later (hlen : m.payload.length ≤ MAX_MESSAGE) {r : Report}
    (hr : r ∈ m.later i) : r.IsCont := by
  induction hk : m.payload.length - i using Nat.strongRecOn generalizing i with
  | ind k ih =>
    by_cases hlt : INIT_DATA + CONT_DATA * i < m.payload.length
    · rw [m.later_of_lt hlt] at hr
      rcases List.mem_cons.1 hr with rfl | hr
      · rw [Report.IsCont, m.cont_kind _ (List.length_take_le _ _)]
        simp only [INIT_DATA_eq, CONT_DATA_eq, MAX_MESSAGE_eq] at hlt hlen
        exact sequence_and_top (by omega)
      · simp only [INIT_DATA_eq, CONT_DATA_eq] at hlt
        exact ih _ (by omega) hr rfl
    · rw [m.later_of_le (by omega)] at hr
      exact absurd hr List.not_mem_nil

end Message

namespace Transport

/-! ## Reports that are turned away -/

/-- **A harmless report changes nothing** while a message is being collected. -/
theorem step_harmless (h : m.Collecting i started t) {e : ℕ × Report}
    (he : e.2.channel ≠ m.channel) (hnow : e.1 ≤ started + STALE_MESSAGE)
    (hharmless : Harmless e.2) :
    (t.step e).2 = t ∧ Answer e.2.channel (t.step e).1 := by
  obtain ⟨hcont, hcommand⟩ := hharmless
  have hchannel : m.channel ≠ e.2.channel := fun heq ↦ he heq.symm
  rw [step, receive, expire_of_fresh h.slot hnow]
  simp only [if_neg hcont]
  split
  · exact ⟨rfl, .inr (.inl rfl)⟩
  rename_i h0
  have hinit : e.2.command ≠ INIT := hcommand.resolve_left h0
  split
  · refine ⟨rfl, ?_⟩
    split
    · exact rfl
    · trivial
  · simp only [h.slot, Message.collected, hchannel, hinit, ne_eq, not_false_eq_true, and_self,
      if_true]
    exact ⟨trivial, .inl rfl⟩

/-! ## Reports that cost the message -/

@[simp] theorem dispatch_incomplete (t : Transport) (m : Message) :
    (t.dispatch m).2.incomplete = t.incomplete := by
  rcases dispatch_cases t m with ⟨_, _, _, h⟩ | ⟨h, _⟩
  · exact h
  · rw [h]

/-- The slot holds nothing of the channel. -/
def NotFor (channel : UInt32) (t : Transport) : Prop :=
  ∀ p, t.incomplete = some p → p.message.channel ≠ channel

theorem notFor_of_none {channel : UInt32} (h : t.incomplete = none) : t.NotFor channel := by
  intro p hp
  rw [h] at hp
  exact absurd hp (by simp)

theorem notFor_complete {channel : UInt32} {p : Partial} (hp : p.message.channel ≠ channel)
    (t : Transport) : (t.complete p).2.NotFor channel := by
  rw [complete]
  split
  · rintro q hq
    rw [← Option.some_inj.1 hq]
    exact hp
  · refine notFor_of_none ?_
    rw [dispatch_incomplete]

theorem notFor_expire {channel : UInt32} (h : t.NotFor channel) (now : ℕ) :
    (t.expire now).NotFor channel := by
  rw [expire]
  split
  · exact notFor_of_none rfl
  · exact h

/-- A continuation empties the slot whoever it is for, and puts back only what is its own. -/
theorem notFor_continuation {channel other : UInt32} (hne : other ≠ channel) (t : Transport)
    (sequence : UInt8) (data : List UInt8) :
    (t.continuation other sequence data).2.NotFor channel := by
  rw [continuation]
  cases t.incomplete with
  | none => exact notFor_of_none rfl
  | some p =>
    dsimp only
    split
    · exact notFor_of_none rfl
    · rename_i hp
      split
      · exact notFor_of_none rfl
      · exact notFor_complete (by rwa [not_not.1 hp]) _

theorem notFor_start {channel other : UInt32} (hne : other ≠ channel) (ht : t.NotFor channel)
    (now : ℕ) (command : UInt8) (length : ℕ) (data : List UInt8) :
    (t.start now other command length data).2.NotFor channel := by
  rw [start]
  split
  · exact ht
  · exact notFor_complete hne _

/-- Reports of other channels do not put anything of the channel into the slot. -/
theorem notFor_step {channel : UInt32} (ht : t.NotFor channel) {e : ℕ × Report}
    (he : e.2.channel ≠ channel) : (t.step e).2.NotFor channel := by
  have hexpired := notFor_expire ht e.1
  rw [step, receive]
  dsimp only
  split
  · exact notFor_continuation he _ _ _
  split
  · exact hexpired
  split
  · exact hexpired
  split
  · split
    · exact hexpired
    split
    · exact notFor_of_none rfl
    · exact notFor_start he hexpired _ _ _ _
  · exact notFor_start he hexpired _ _ _ _

/-- A continuation of a channel the slot holds nothing of goes unheard. -/
theorem step_deaf {channel : UInt32} (ht : t.NotFor channel) {e : ℕ × Report}
    (he : e.2.channel = channel) (hcont : e.2.IsCont) :
    (t.step e).1 = none ∧ (t.step e).2.NotFor channel := by
  have hexpired := notFor_expire ht e.1
  rw [step, receive]
  dsimp only
  rw [if_pos hcont, continuation]
  cases hslot : (t.expire e.1).incomplete with
  | none => exact ⟨rfl, notFor_of_none rfl⟩
  | some p =>
    dsimp only
    rw [if_pos (by rw [he]; exact hexpired p hslot)]
    exact ⟨rfl, notFor_of_none rfl⟩

/-- **Once the slot holds nothing of a channel**, the continuations of that channel go unheard,
whatever else arrives. -/
theorem deaf {channel : UInt32} {es : List (ℕ × Report)} {last : ℕ × Report}
    (ht : t.NotFor channel)
    (hcont : ∀ e ∈ es ++ [last], e.2.channel = channel → e.2.IsCont)
    (hlast : last.2.channel = channel) :
    ((Mealy.final step t es).step last).1 = none := by
  have hfinal : (Mealy.final step t es).NotFor channel := by
    refine Mealy.run_invariant step ?_ ht
      (fun e he ↦ hcont e (List.mem_append_left [last] he))
    intro s e hs he
    by_cases hchannel : e.2.channel = channel
    · exact (step_deaf hs hchannel (he hchannel)).2
    · exact notFor_step hs hchannel
  exact (step_deaf hfinal hlast (hcont last (by simp) hlast)).1

/-- **A report of another channel that is not harmless** empties the slot or puts its own message
there, or else hears an error that is neither about a busy transport nor about its channel. -/
theorem step_harmful (h : m.Collecting i started t) {e : ℕ × Report}
    (he : e.2.channel ≠ m.channel) (hnow : e.1 ≤ started + STALE_MESSAGE)
    (hharmful : ¬ Harmless e.2) :
    (t.step e).2.NotFor m.channel ∨ ¬ Answer e.2.channel (t.step e).1 := by
  rw [step, receive, expire_of_fresh h.slot hnow]
  by_cases hcont : e.2.IsCont
  · simp only [if_pos hcont]
    exact .inl (notFor_continuation he _ _ _)
  have hinit : e.2.channel ≠ 0 ∧ e.2.command = INIT := by
    rw [Harmless, not_and] at hharmful
    simpa using hharmful hcont
  simp only [if_neg hcont, hinit.1, hinit.2, show INIT ≠ CANCEL by decide, h.slot, ne_eq,
    not_true_eq_false, and_false, if_false, start]
  split
  · right
    rintro (hanswer | hanswer | ⟨-, hanswer⟩)
    · exact absurd hanswer (by simp [Message.error, ERR_INVALID_LEN, ERR_CHANNEL_BUSY])
    · exact absurd hanswer (by simp [Message.error, ERR_INVALID_LEN, ERR_INVALID_CHANNEL])
    · exact absurd hanswer (show ERROR ≠ INIT by decide)
  · exact .inl (notFor_complete he _)

/-! ## A message among other reports -/

/-- The reports of a channel among the events. -/
abbrev ofChannel (channel : UInt32) (es : List (ℕ × Report)) : List Report :=
  (es.filter fun e ↦ e.2.channel = channel).map Prod.snd

theorem ofChannel_cons_of_eq {channel : UInt32} {e : ℕ × Report} (he : e.2.channel = channel)
    (es : List (ℕ × Report)) : ofChannel channel (e :: es) = e.2 :: ofChannel channel es := by
  rw [ofChannel, List.filter_cons_of_pos (by simpa using he), List.map_cons]

theorem ofChannel_cons_of_ne {channel : UInt32} {e : ℕ × Report} (he : e.2.channel ≠ channel)
    (es : List (ℕ × Report)) : ofChannel channel (e :: es) = ofChannel channel es := by
  rw [ofChannel, List.filter_cons_of_neg (by simpa using he)]

theorem ofChannel_append_ne_nil {last : ℕ × Report} (es : List (ℕ × Report)) :
    ofChannel last.2.channel (es ++ [last]) ≠ [] := by
  rw [ofChannel, List.filter_append, List.filter_cons_of_pos (by simp)]
  simp

/-- An own report, not the last one, moves the collection on by one report. -/
theorem step_own (h : m.Collecting i started t) {e last : ℕ × Report} {es : List (ℕ × Report)}
    (hes : ofChannel m.channel (e :: (es ++ [last])) = m.later i)
    (he : e.2.channel = m.channel) (hlast : last.2.channel = m.channel)
    (hnow : e.1 ≤ started + STALE_MESSAGE) :
    (t.step e).1 = none ∧
      (t.step e).2 = { t with incomplete := some (m.collected (i + 1) started) } ∧
      m.Collecting (i + 1) started (t.step e).2 ∧
      ofChannel m.channel (es ++ [last]) = m.later (i + 1) := by
  rw [ofChannel_cons_of_eq he, m.later_of_lt h.more, List.cons_eq_cons] at hes
  obtain ⟨hhead, htail⟩ := hes
  have hmore : INIT_DATA + CONT_DATA * (i + 1) < m.payload.length := by
    by_contra hle
    rw [m.later_of_le (by omega), ← hlast] at htail
    exact ofChannel_append_ne_nil es htail
  rw [step, hhead, receive_cont h hnow, complete_of_lt _ _ hmore]
  exact ⟨rfl, rfl, ⟨rfl, hmore, h.fits⟩, htail⟩

/-- The last report dispatches the message. -/
theorem step_last (h : m.Collecting i started t) {last : ℕ × Report}
    (hes : ofChannel m.channel [last] = m.later i) (hlast : last.2.channel = m.channel)
    (hnow : last.1 ≤ started + STALE_MESSAGE) :
    t.step last = (some (({ t with incomplete := none } : Transport).dispatch m).1,
      (({ t with incomplete := none } : Transport).dispatch m).2) := by
  rw [ofChannel_cons_of_eq hlast, m.later_of_lt h.more, List.cons_eq_cons] at hes
  obtain ⟨hhead, htail⟩ := hes
  have hle : m.payload.length ≤ INIT_DATA + CONT_DATA * (i + 1) := by
    by_contra hlt
    rw [m.later_of_lt (by omega)] at htail
    exact absurd htail (List.cons_ne_nil _ _).symm
  rw [step, hhead, receive_cont h hnow, complete_of_le _ _ hle]

theorem isolated_cons_iff {e last : ℕ × Report} {es : List (ℕ × Report)} :
    Isolated m t (e :: es) last ↔
      (e.2.channel = m.channel → (t.step e).1 = none) ∧
      (e.2.channel ≠ m.channel → Answer e.2.channel (t.step e).1) ∧
      Isolated m (t.step e).2 es last := by
  constructor
  · rintro ⟨hquiet, hothers, hdispatched⟩
    rw [Mealy.outputs_cons, List.zip_cons_cons, List.forall_mem_cons] at hquiet hothers
    exact ⟨hquiet.1, hothers.1, hquiet.2, hothers.2, hdispatched⟩
  · rintro ⟨hquiet, hothers, hrest⟩
    refine ⟨?_, ?_, hrest.dispatched⟩ <;> rw [Mealy.outputs_cons, List.zip_cons_cons]
    · exact List.forall_mem_cons.2 ⟨hquiet, hrest.quiet⟩
    · exact List.forall_mem_cons.2 ⟨hothers, hrest.others⟩

/-- The rest of a message, with harmless reports in between, gets through. -/
theorem isolated_of_harmless (h : m.Collecting i started t) {es : List (ℕ × Report)}
    {last : ℕ × Report} (hes : ofChannel m.channel (es ++ [last]) = m.later i)
    (hlast : last.2.channel = m.channel)
    (hnow : ∀ e ∈ es ++ [last], e.1 ≤ started + STALE_MESSAGE)
    (hharmless : ∀ e ∈ es, e.2.channel ≠ m.channel → Harmless e.2) :
    Isolated m t es last := by
  induction es generalizing i t with
  | nil => exact ⟨by simp, by simp, step_last h hes hlast (hnow last (by simp))⟩
  | cons e es ih =>
    have hnow' : ∀ e ∈ es ++ [last], e.1 ≤ started + STALE_MESSAGE :=
      fun e' he' ↦ hnow e' (List.mem_cons_of_mem e he')
    have hharmless' : ∀ e ∈ es, e.2.channel ≠ m.channel → Harmless e.2 :=
      fun e' he' ↦ hharmless e' (List.mem_cons_of_mem e he')
    by_cases he : e.2.channel = m.channel
    · obtain ⟨hout, -, hnext, htail⟩ := step_own h hes he hlast (hnow e (by simp))
      exact isolated_cons_iff.2 ⟨fun _ ↦ hout, fun hne ↦ absurd he hne,
        ih hnext htail hnow' hharmless'⟩
    · obtain ⟨hsame, hanswer⟩ :=
        step_harmless h he (hnow e (by simp)) (hharmless e List.mem_cons_self he)
      rw [List.cons_append, ofChannel_cons_of_ne he] at hes
      have hrest := ih h hes hnow' hharmless'
      rw [← hsame] at hrest
      exact isolated_cons_iff.2 ⟨fun heq ↦ absurd heq he, fun _ ↦ hanswer, hrest⟩

/-- Without a place in the slot the rest of a message goes unheard, its last report included. -/
theorem not_isolated_of_notFor (ht : t.NotFor m.channel) (hlen : m.payload.length ≤ MAX_MESSAGE)
    {es : List (ℕ × Report)} {last : ℕ × Report}
    (hes : ofChannel m.channel (es ++ [last]) = m.later i) (hlast : last.2.channel = m.channel) :
    ¬ Isolated m t es last := by
  intro hisolated
  have hcont : ∀ e ∈ es ++ [last], e.2.channel = m.channel → e.2.IsCont := by
    intro e he hchannel
    refine m.isCont_of_mem_later hlen (i := i) ?_
    rw [← hes]
    exact List.mem_map_of_mem (List.mem_filter.2 ⟨he, by simpa using hchannel⟩)
  have hunheard := deaf ht hcont hlast
  rw [hisolated.dispatched] at hunheard
  exact absurd hunheard (by simp)

/-- If the rest of a message gets through, all that arrived in between was harmless. -/
theorem harmless_of_isolated (h : m.Collecting i started t) {es : List (ℕ × Report)}
    {last : ℕ × Report} (hes : ofChannel m.channel (es ++ [last]) = m.later i)
    (hlast : last.2.channel = m.channel)
    (hnow : ∀ e ∈ es ++ [last], e.1 ≤ started + STALE_MESSAGE)
    (hisolated : Isolated m t es last) :
    ∀ e ∈ es, e.2.channel ≠ m.channel → Harmless e.2 := by
  induction es generalizing i t with
  | nil => simp
  | cons e es ih =>
    have hnow' : ∀ e ∈ es ++ [last], e.1 ≤ started + STALE_MESSAGE :=
      fun e' he' ↦ hnow e' (List.mem_cons_of_mem e he')
    obtain ⟨-, hother, hrest⟩ := isolated_cons_iff.1 hisolated
    by_cases he : e.2.channel = m.channel
    · obtain ⟨-, -, hnext, htail⟩ := step_own h hes he hlast (hnow e (by simp))
      exact List.forall_mem_cons.2 ⟨fun hne ↦ absurd he hne, ih hnext htail hnow' hrest⟩
    · rw [List.cons_append, ofChannel_cons_of_ne he] at hes
      have hharmless : Harmless e.2 := by
        by_contra hharmful
        rcases step_harmful h he (hnow e (by simp)) hharmful with hnot | hanswer
        · exact not_isolated_of_notFor hnot h.fits hes hlast hrest
        · exact hanswer (hother he)
      obtain ⟨hsame, -⟩ := step_harmless h he (hnow e (by simp)) hharmless
      rw [hsame] at hrest
      exact List.forall_mem_cons.2 ⟨fun _ ↦ hharmless, ih h hes hnow' hrest⟩

theorem dispatch_ne_cancel (t : Transport) (m : Message) (channel : UInt32) :
    (t.dispatch m).1 ≠ .cancel channel := by
  rcases dispatch_cases t m with ⟨r, h, -⟩ | ⟨h, -⟩ <;> rw [h] <;> simp

/-- A cancel is a signal about the request that is worked on, not a message: it is never
dispatched, and the state stays as it is. -/
theorem receive_cancel (h0 : m.channel ≠ 0) (hcancel : m.command = CANCEL)
    (ht : t.incomplete = none) (now : ℕ) :
    t.receive now m.init = (if t.busy = some m.channel then some (.cancel m.channel) else none, t)
    := by
  have hcommand : m.init.command = CANCEL := by
    rw [m.init_command (by rw [hcancel]; decide), hcancel]
  rw [receive, expire_of_incomplete_none ht]
  simp only [if_neg m.init_not_isCont, m.init_channel, if_neg h0, hcommand, if_true]

end Transport

open Transport

/-- A message of a single report gets through exactly when it is not a cancel. -/
theorem isolated_single_iff {last : ℕ × Report} (h : Sent m t [] last) :
    Isolated m t [] last ↔ m.command ≠ CANCEL := by
  obtain ⟨h0, hc, hlen, hslot, hreports, -, hends, -⟩ := h
  have hidle : ({ t with incomplete := none } : Transport) = t := by rw [← hslot]
  rw [m.reports_eq hlen, Option.some_inj, List.nil_append] at hreports
  have hes : m.init :: m.later 0 = [last.2] := hreports.trans (ofChannel_cons_of_eq hends [])
  rw [List.cons_eq_cons] at hes
  obtain ⟨hinit, hlater⟩ := hes
  constructor
  · intro hisolated hcancel
    have hdispatched := congrArg Prod.fst hisolated.dispatched
    rw [Mealy.final_nil, hidle, step, ← hinit, receive_cancel h0 hcancel hslot] at hdispatched
    dsimp only at hdispatched
    split at hdispatched
    · exact dispatch_ne_cancel t m m.channel (Option.some_inj.1 hdispatched).symm
    · exact absurd hdispatched (by simp)
  · intro hcancel
    have hle : m.payload.length ≤ INIT_DATA + CONT_DATA * 0 := by
      by_contra hlt
      rw [m.later_of_lt (by omega)] at hlater
      exact absurd hlater (List.cons_ne_nil _ _)
    refine ⟨by simp, by simp, ?_⟩
    rw [Mealy.final_nil, step, ← hinit, receive_init h0 hc hcancel hlen hslot,
      complete_of_le _ _ hle]

/-- **A message gets through exactly when** it is not a cancel and everything that arrives on other
channels between its reports is harmless: initialisation packets of other commands than `INIT`, or
on channel 0. -/
theorem isolated_iff {before : List (ℕ × Report)} {last : ℕ × Report}
    (h : Sent m t before last) :
    Isolated m t before last ↔
      m.command ≠ CANCEL ∧ ∀ e ∈ before, e.2.channel ≠ m.channel → Harmless e.2 := by
  cases before with
  | nil => rw [isolated_single_iff h]; simp
  | cons first es =>
    obtain ⟨h0, hc, hlen, hslot, hreports, hstarts, hends, hinTime⟩ := h
    have hfirst : first.2.channel = m.channel := hstarts first (by simp)
    have hnow : ∀ e ∈ es ++ [last], e.1 ≤ first.1 + STALE_MESSAGE :=
      fun e he ↦ hinTime first (by simp) e (List.mem_cons_of_mem first he)
    rw [m.reports_eq hlen, Option.some_inj] at hreports
    have hes : m.init :: m.later 0 = first.2 :: ofChannel m.channel (es ++ [last]) :=
      hreports.trans (ofChannel_cons_of_eq hfirst _)
    rw [List.cons_eq_cons] at hes
    obtain ⟨hinit, hlater⟩ := hes
    have hmore : INIT_DATA + CONT_DATA * 0 < m.payload.length := by
      by_contra hle
      rw [m.later_of_le (by omega), ← hends] at hlater
      exact ofChannel_append_ne_nil es hlater.symm
    by_cases hcancel : m.command = CANCEL
    · -- the cancel itself leaves the slot empty, so what follows it is not heard
      refine iff_of_false (fun hisolated ↦ ?_) (fun hand ↦ hand.1 hcancel)
      have hstep : (t.step first).2 = t := by
        rw [step, ← hinit, receive_cancel h0 hcancel hslot]
      obtain ⟨-, -, hrest⟩ := isolated_cons_iff.1 hisolated
      rw [hstep] at hrest
      exact not_isolated_of_notFor (notFor_of_none hslot) hlen hlater.symm hends hrest
    have hstep : t.step first =
        (none, { t with incomplete := some (m.collected 0 first.1) }) := by
      rw [step, ← hinit, receive_init h0 hc hcancel hlen hslot, complete_of_lt _ _ hmore]
    have hcollecting : m.Collecting 0 first.1 (t.step first).2 := by
      rw [hstep]
      exact ⟨rfl, hmore, hlen⟩
    constructor
    · intro hisolated
      obtain ⟨-, -, hrest⟩ := isolated_cons_iff.1 hisolated
      exact ⟨hcancel, List.forall_mem_cons.2 ⟨fun hne ↦ absurd hfirst hne,
        harmless_of_isolated hcollecting hlater.symm hends hnow hrest⟩⟩
    · rintro ⟨-, hharmless⟩
      exact isolated_cons_iff.2 ⟨fun _ ↦ by rw [hstep], fun hne ↦ absurd hfirst hne,
        isolated_of_harmless hcollecting hlater.symm hends hnow
          fun e he ↦ hharmless e (List.mem_cons_of_mem first he)⟩

/-- The two reports of `sixty`, with `foreign` in between. -/
theorem sent_sixty {foreign : Report} (h : foreign.channel = 2) :
    Sent sixty one [(0, sixty.init), (1, foreign)] (2, sixty.cont 0 (List.replicate 3 4)) where
  channel := by decide
  command := by decide
  fits := by decide
  slot := rfl
  reports := by
    have h1 : sixty.init.channel = 1 := sixty.init_channel
    simp [h, h1, show sixty.channel = 1 from rfl]
    rfl
  starts := by
    intro e he
    obtain rfl := Option.mem_some.1 he
    exact sixty.init_channel
  ends := sixty.cont_channel 0 (by decide)
  inTime := by
    intro f hf e he
    obtain rfl := Option.mem_some.1 hf
    simp only [List.cons_append, List.nil_append, List.mem_cons, List.not_mem_nil, or_false] at he
    rcases he with rfl | rfl | rfl <;> simp [STALE_MESSAGE]

/-- A ping on channel 2 does no harm. -/
theorem isolated_sixty_ping :
    Isolated sixty one [(0, sixty.init), (1, (⟨2, PING, []⟩ : Message).init)]
      (2, sixty.cont 0 (List.replicate 3 4)) := by
  refine (isolated_iff (sent_sixty (by decide +kernel))).2 ⟨by decide, ?_⟩
  simp only [List.forall_mem_cons, List.not_mem_nil, false_implies, implies_true, and_true]
  refine ⟨fun hne ↦ absurd sixty.init_channel hne, fun _ ↦ ?_⟩
  unfold Harmless
  decide +kernel

/-- One continuation on channel 2, which nobody asked for, loses the message on channel 1. -/
theorem not_isolated_sixty_cont :
    Sent sixty one [(0, sixty.init), (1, (⟨2, PING, []⟩ : Message).cont 0 [])]
      (2, sixty.cont 0 (List.replicate 3 4)) ∧
    ¬ Isolated sixty one [(0, sixty.init), (1, (⟨2, PING, []⟩ : Message).cont 0 [])]
      (2, sixty.cont 0 (List.replicate 3 4)) := by
  refine ⟨sent_sixty (by decide +kernel), fun h ↦ ?_⟩
  have hunheard : ((Mealy.final step one
      [(0, sixty.init), (1, (⟨2, PING, []⟩ : Message).cont 0 [])]).step
        (2, sixty.cont 0 (List.replicate 3 4))).1 = none := by decide +kernel
  rw [h.dispatched] at hunheard
  exact absurd hunheard (by simp)

end Passkeys

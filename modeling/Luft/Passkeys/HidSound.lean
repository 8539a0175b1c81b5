import Luft.Lib.Checked
import Luft.Passkeys.HidFraming
import Mathlib.Data.List.Induction

/-!
# The transport, whatever comes in

The bytes of every report come from the peer: the channel, the length it declares, the sequence
number.  `takeChecked` is the transport with each sum and difference checked, `none` where the
machine's would wrap or stop.  `sound_run` follows a transport through any run of reports and of
requests that finish:

* it computes every sum and difference exactly (`takeChecked_eq`);
* what it collects misses bytes of a length that fits into a message, and that length is the one
  that the report the message began with declared (`Gathering`);
* every request it hands on has just the bytes that were declared, and `INIT` handed out its
  channel (`Proper`).

The last one needs the channels below `nextChannel` to have been handed out all along: the counter
goes back to 1 before it reaches the broadcast channel, and then fewer channels are taken, never one
that was not handed out.
-/

set_option autoImplicit false

namespace Passkeys

open BigEndian

/-- What happens to the transport. -/
inductive Input where
  | report (now : ℕ) (r : Report)
  | finished

namespace Transport

variable {t : Transport} {ins : List Input} {outs : List (Option Inbound)}

def take (t : Transport) : Input → Option Inbound × Transport
  | .report now r => t.receive now r
  | .finished => (none, t.finish)

/-! ## With the arithmetic checked -/

def initChecked (t : Transport) (message : Message) : Option (Message × Transport) :=
  if message.payload.length ≠ 8 then some (.error message.channel ERR_INVALID_LEN, t)
  else if message.channel = BROADCAST ∧ t.nextChannel ≠ BROADCAST - 1 then
    (Checked.add 4294967296 t.nextChannel.toNat 1).map fun _ ↦ t.init message
  else some (t.init message)

def dispatchChecked (t : Transport) (message : Message) : Option (Inbound × Transport) :=
  if message.command = INIT then
    (t.initChecked message).map fun answer ↦ (.reply answer.1, answer.2)
  else some (t.dispatch message)

def completeChecked (t : Transport) (p : Partial) : Option (Option Inbound × Transport) :=
  if p.message.payload.length < p.length then some (none, { t with incomplete := some p })
  else
    let t := { t with incomplete := none }
    (t.dispatchChecked p.message).map fun said ↦ (some said.1, said.2)

def continuationChecked (t : Transport) (channel : UInt32) (sequence : UInt8) (data : List UInt8) :
    Option (Option Inbound × Transport) :=
  let taken := { t with incomplete := none }
  match t.incomplete with
  | none => some (none, taken)
  | some p =>
    if p.message.channel ≠ channel then some (none, taken)
    else if sequence ≠ p.sequence then some (some (.reply (.error channel ERR_INVALID_SEQ)), taken)
    else
      (Checked.sub p.length p.message.payload.length).bind fun needed ↦
        (Checked.add 256 p.sequence.toNat 1).bind fun sequence ↦
          taken.completeChecked { p with
            message := { p.message with
              payload := p.message.payload ++ data.take (min needed CONT_DATA) }
            sequence := .ofNat sequence }

def startChecked (t : Transport) (now : ℕ) (channel : UInt32) (command : UInt8) (length : ℕ)
    (data : List UInt8) : Option (Option Inbound × Transport) :=
  if MAX_MESSAGE < length then some (some (.reply (.error channel ERR_INVALID_LEN)), t)
  else t.completeChecked
    { message := { channel, command, payload := data.take (min length INIT_DATA) }
      length, sequence := 0, started := now }

def receiveChecked (t : Transport) (now : ℕ) (report : Report) :
    Option (Option Inbound × Transport) :=
  let channel := report.channel
  let t := t.expire now
  if report.IsCont then t.continuationChecked channel report.kind (report.bytes.drop 5)
  else
    let command := report.command
    let length := report.length
    let data := report.bytes.drop 7
    if channel = 0 then some (some (.reply (.error channel ERR_INVALID_CHANNEL)), t)
    else if command = CANCEL then
      some (if t.busy = some channel then some (.cancel channel) else none, t)
    else
      match t.incomplete with
      | some p =>
        if p.message.channel ≠ channel ∧ command ≠ INIT then
          some (some (.reply (.error channel ERR_CHANNEL_BUSY)), t)
        else if p.message.channel = channel ∧ command ≠ INIT then
          some (some (.reply (.error channel ERR_INVALID_SEQ)), { t with incomplete := none })
        else t.startChecked now channel command length data
      | none => t.startChecked now channel command length data

def takeChecked (t : Transport) : Input → Option (Option Inbound × Transport)
  | .report now r => t.receiveChecked now r
  | .finished => some (none, t.finish)

/-! ## What the run so far has to do with the state -/

/-- The answer of `INIT` on the broadcast channel that gives a channel away. -/
def GivesAway (c : UInt32) (out : Option Inbound) : Prop :=
  ∃ m, out = some (.reply m) ∧ m.channel = BROADCAST ∧ m.command = INIT ∧
    (m.payload.drop 8).take 4 = be 4 c.toNat

/-- The report a message began with declared its length. -/
def Declared (ins : List Input) (m : Message) (length : ℕ) : Prop :=
  ∃ now r, Input.report now r ∈ ins ∧ ¬ r.IsCont ∧ r.channel = m.channel ∧
    r.command = m.command ∧ r.length = length ∧
    (r.bytes.drop 7).take (min r.length INIT_DATA) <+: m.payload

/-- What the slot holds. -/
structure Gathering (ins : List Input) (p : Partial) : Prop where
  channel : p.message.channel ≠ 0
  missing : p.message.payload.length < p.length
  fits : p.length ≤ MAX_MESSAGE
  size : p.message.payload.length = INIT_DATA + CONT_DATA * p.sequence.toNat
  declared : Declared ins p.message p.length

/-- What is completed or collected further. -/
structure Gathered (ins : List Input) (p : Partial) : Prop where
  channel : p.message.channel ≠ 0
  enough : p.message.payload.length ≤ p.length
  fits : p.length ≤ MAX_MESSAGE
  size : p.message.payload.length < p.length →
    p.message.payload.length = INIT_DATA + CONT_DATA * p.sequence.toNat
  declared : Declared ins p.message p.length

/-- The invariant, with the inputs taken and the outputs given so far. -/
structure Sound (ins : List Input) (outs : List (Option Inbound)) (t : Transport) : Prop where
  next_pos : 1 ≤ t.nextChannel.toNat
  next_lt : t.nextChannel.toNat < 4294967295
  given : ∀ c : UInt32, c ≠ 0 → c < t.nextChannel → ∃ out ∈ outs, GivesAway c out
  slot : ∀ p, t.incomplete = some p → Gathering ins p

/-- What the transport says: a request has the bytes that were declared and came on a channel that
`INIT` gave away, and the channel in an answer of `INIT` is none of the reserved ones. -/
structure Proper (ins : List Input) (outs : List (Option Inbound)) (out : Option Inbound) :
    Prop where
  request : ∀ m, out = some (.request m) →
    Declared ins m m.payload.length ∧ ∃ out ∈ outs, GivesAway m.channel out
  assigned : ∀ m, out = some (.reply m) → m.command = INIT →
    ∃ c : UInt32, (m.payload.drop 8).take 4 = be 4 c.toNat ∧ c ≠ 0 ∧ c ≠ BROADCAST

/-! ## What does not change the invariant -/

theorem Declared.mono {m : Message} {length : ℕ} (h : Declared ins m length) (i : Input) :
    Declared (ins ++ [i]) m length := by
  obtain ⟨now, r, hr, h⟩ := h
  exact ⟨now, r, List.mem_append_left _ hr, h⟩

theorem Gathering.mono {p : Partial} (h : Gathering ins p) (i : Input) :
    Gathering (ins ++ [i]) p :=
  { h with declared := h.declared.mono i }

/-- The transport before what comes in is looked at. -/
theorem Sound.mono (h : Sound ins outs t) (i : Input) : Sound (ins ++ [i]) outs t :=
  { h with slot := fun p hp ↦ (h.slot p hp).mono i }

theorem Sound.said (h : Sound ins outs t) (out : Option Inbound) :
    Sound ins (outs ++ [out]) t where
  next_pos := h.next_pos
  next_lt := h.next_lt
  given := by
    intro c hc hlt
    obtain ⟨given, hmem, hgiven⟩ := h.given c hc hlt
    exact ⟨given, List.mem_append_left _ hmem, hgiven⟩
  slot := h.slot

/-- A transport that collects nothing. -/
theorem Sound.emptied (h : Sound ins outs t) : Sound ins outs { t with incomplete := none } :=
  ⟨h.next_pos, h.next_lt, h.given, fun p hp ↦ by cases hp⟩

theorem Sound.busied (h : Sound ins outs t) (busy : Option UInt32) :
    Sound ins outs { t with busy } :=
  ⟨h.next_pos, h.next_lt, h.given, h.slot⟩

theorem Sound.expire (h : Sound ins outs t) (now : ℕ) : Sound ins outs (t.expire now) := by
  rw [Transport.expire]
  split
  · exact h.emptied
  · exact h

theorem Proper.none : Proper ins outs none := by
  constructor <;> rintro m ⟨⟩

theorem Proper.cancel (channel : UInt32) : Proper ins outs (some (.cancel channel)) := by
  constructor <;> rintro m ⟨⟩

theorem Proper.reply {m : Message} (hm : m.command ≠ INIT) :
    Proper ins outs (some (.reply m)) := by
  constructor
  · rintro m ⟨⟩
  · rintro m ⟨⟩ hinit
    exact absurd hinit hm

theorem Proper.error (channel : UInt32) (code : UInt8) :
    Proper ins outs (some (.reply (.error channel code))) :=
  .reply (by show ERROR ≠ INIT; decide)

/-! ## One input -/

theorem assigned_bytes {nonce : List UInt8} (hnonce : nonce.length = 8) (c : ℕ)
    (rest : List UInt8) : ((nonce ++ be 4 c ++ rest).drop 8).take 4 = be 4 c := by
  rw [List.append_assoc, List.drop_left' hnonce, List.take_left' (length_be 4 c)]

/-- The channel after the one that is given away. -/
def following (channel : UInt32) : UInt32 := if channel = BROADCAST - 1 then 1 else channel + 1

theorem following_bounds {channel : UInt32} (hlt : channel.toNat < 4294967295) :
    1 ≤ (following channel).toNat ∧ (following channel).toNat < 4294967295 := by
  have hlast : (BROADCAST - 1).toNat = 4294967294 := rfl
  have hone : (1 : UInt32).toNat = 1 := rfl
  rw [following]
  split
  · omega
  · rename_i hne
    rw [← UInt32.toNat_inj, hlast] at hne
    rw [UInt32.toNat_add, hone]
    omega

/-- Below the next channel stands the one given away, and what stood below that. -/
theorem lt_following {channel c : UInt32} (hc : c ≠ 0) (hlt : channel.toNat < 4294967295)
    (h : c < following channel) : c = channel ∨ c < channel := by
  have hone : (1 : UInt32).toNat = 1 := rfl
  have hpos : c.toNat ≠ 0 := fun h0 ↦ hc (UInt32.toNat_inj.1 h0)
  rw [← UInt32.toNat_inj, UInt32.lt_iff_toNat_lt]
  rw [UInt32.lt_iff_toNat_lt, following] at h
  split at h
  · omega
  · rw [UInt32.toNat_add, hone] at h
    omega

/-- **The channel counter** stays between 1 and the last channel before the broadcast one. -/
theorem sound_init (h : Sound ins outs t) {m : Message} (hm : m.channel ≠ 0)
    (hcommand : m.command = INIT) :
    t.initChecked m = some (t.init m) ∧
      Sound ins (outs ++ [some (.reply (t.init m).1)]) (t.init m).2 ∧
      Proper ins outs (some (.reply (t.init m).1)) := by
  have hlt := h.next_lt
  have hpos := h.next_pos
  rw [initChecked, init]
  split
  · exact ⟨rfl, h.said _, .error _ _⟩
  rename_i hsize
  rw [not_not] at hsize
  by_cases hc : m.channel = BROADCAST
  · simp only [if_pos hc]
    obtain ⟨hnext, hnext'⟩ := following_bounds hlt
    refine ⟨?_, ⟨hnext, hnext', ?_, h.slot⟩, ?_, ?_⟩
    · split
      · rw [Checked.add_of_lt (by omega)]
        rfl
      · rfl
    · rintro c hc0 hcn
      rcases lt_following hc0 hlt hcn with rfl | hcn
      · refine ⟨_, List.mem_append_right _ List.mem_cons_self, _, rfl, hc, hcommand, ?_⟩
        exact assigned_bytes hsize _ _
      · exact (h.said _).given c hc0 hcn
    · rintro m ⟨⟩
    · rintro m ⟨⟩ -
      refine ⟨t.nextChannel, assigned_bytes hsize _ _, ?_, ?_⟩
      · rintro h0
        rw [h0] at hpos
        exact absurd hpos (by decide)
      · rintro h0
        rw [h0] at hlt
        exact absurd hlt (by decide)
  · simp only [if_neg hc]
    refine ⟨?_, h.said _, ?_, ?_⟩
    · rw [if_neg (fun hand ↦ hc hand.1)]
    · rintro m ⟨⟩
    · rintro m ⟨⟩ -
      exact ⟨_, assigned_bytes hsize _ _, hm, hc⟩

/-- What one input has to come to. -/
structure Taken (ins : List Input) (outs : List (Option Inbound))
    (checked : Option (Option Inbound × Transport)) (said : Option Inbound × Transport) :
    Prop where
  exact : checked = some said
  sound : Sound ins (outs ++ [said.1]) said.2
  proper : Proper ins outs said.1

theorem Taken.said {out : Option Inbound} (h : Sound ins outs t) (hout : Proper ins outs out) :
    Taken ins outs (some (out, t)) (out, t) :=
  ⟨rfl, h.said out, hout⟩

theorem taken_dispatch (h : Sound ins outs t) {m : Message} (hm : m.channel ≠ 0)
    (hdeclared : Declared ins m m.payload.length) :
    Taken ins outs ((t.dispatchChecked m).map fun said ↦ (some said.1, said.2))
      (some (t.dispatch m).1, (t.dispatch m).2) := by
  rw [dispatchChecked, dispatch]
  split
  · rename_i hcommand
    obtain ⟨heq, hsound, hproper⟩ := sound_init h hm hcommand
    rw [heq]
    exact ⟨rfl, hsound, hproper⟩
  rename_i hinit
  split
  · exact .said h (.error _ _)
  rename_i hallocated
  rw [not_or, UInt32.not_le] at hallocated
  split
  · exact .said h (.error _ _)
  split
  · exact .said h (.reply hinit)
  split
  · exact .said h (.reply hinit)
  split
  · split
    · exact .said h (.error _ _)
    · refine .said (h.busied _) ⟨?_, ?_⟩
      · rintro m ⟨⟩
        exact ⟨hdeclared, h.given _ hm hallocated.2⟩
      · rintro m ⟨⟩
  · exact .said h (.error _ _)

theorem taken_complete (h : Sound ins outs t) {p : Partial} (hp : Gathered ins p) :
    Taken ins outs (t.completeChecked p) (t.complete p) := by
  rw [completeChecked, complete]
  split
  · rename_i hmissing
    refine .said ⟨h.next_pos, h.next_lt, h.given, ?_⟩ .none
    rintro q ⟨⟩
    exact ⟨hp.channel, hmissing, hp.fits, hp.size hmissing, hp.declared⟩
  · rename_i hwhole
    have hlength : p.message.payload.length = p.length :=
      Nat.le_antisymm hp.enough (Nat.not_lt.1 hwhole)
    exact taken_dispatch h.emptied hp.channel (by rw [hlength]; exact hp.declared)

/-- The number of reports a message that is still missing bytes has had is below 128. -/
theorem Gathering.sequence_lt {p : Partial} (h : Gathering ins p) : p.sequence.toNat < 128 := by
  have hmissing := h.missing
  have hfits := h.fits
  rw [h.size, INIT_DATA_eq, CONT_DATA_eq] at hmissing
  rw [MAX_MESSAGE_eq] at hfits
  omega

theorem taken_continuation (h : Sound ins outs t) (channel : UInt32) (sequence : UInt8)
    {data : List UInt8} (hdata : data.length = CONT_DATA) :
    Taken ins outs (t.continuationChecked channel sequence data)
      (t.continuation channel sequence data) := by
  rw [continuationChecked, continuation]
  dsimp only
  cases hslot : t.incomplete with
  | none => exact .said h.emptied .none
  | some p =>
    dsimp only
    have hp := h.slot p hslot
    have hsequence := hp.sequence_lt
    split
    · exact .said h.emptied .none
    split
    · exact .said h.emptied (.error _ _)
    rw [Checked.sub_of_le (Nat.le_of_lt hp.missing), Option.bind_some,
      Checked.add_of_lt (by omega), Option.bind_some]
    have hnext : UInt8.ofNat (p.sequence.toNat + 1) = p.sequence + 1 := by
      rw [UInt8.ofNat_add, UInt8.ofNat_toNat]
      rfl
    rw [hnext]
    have hmissing := hp.missing
    refine taken_complete h.emptied ⟨hp.channel, ?_, hp.fits, ?_, ?_⟩
    · show (p.message.payload ++ _).length ≤ p.length
      rw [List.length_append, List.length_take]
      omega
    · show (p.message.payload ++ _).length < p.length → (p.message.payload ++ _).length = _
      intro hstill
      have hone : (p.sequence + 1).toNat = p.sequence.toNat + 1 := by
        rw [UInt8.toNat_add, UInt8.toNat_one]
        omega
      rw [List.length_append, List.length_take] at hstill ⊢
      have hsize := hp.size
      rw [hone, Nat.mul_succ]
      omega
    · obtain ⟨now, r, hr, hcont, hchannel, hcommand, hlength, hfirst⟩ := hp.declared
      exact ⟨now, r, hr, hcont, hchannel, hcommand, hlength,
        hfirst.trans (List.prefix_append _ _)⟩

theorem taken_start (h : Sound ins outs t) {now : ℕ} {r : Report}
    (hr : Input.report now r ∈ ins) (hcont : ¬ r.IsCont) (hchannel : r.channel ≠ 0) :
    Taken ins outs (t.startChecked now r.channel r.command r.length (r.bytes.drop 7))
      (t.start now r.channel r.command r.length (r.bytes.drop 7)) := by
  rw [startChecked, start]
  split
  · exact .said h (.error _ _)
  rename_i hfits
  have hdata : (r.bytes.drop 7).length = INIT_DATA := by
    rw [List.length_drop, r.size]
    rfl
  refine taken_complete h ⟨hchannel, ?_, Nat.not_lt.1 hfits, ?_, ?_⟩
  · show ((r.bytes.drop 7).take _).length ≤ r.length
    rw [List.length_take]
    omega
  · show ((r.bytes.drop 7).take _).length < r.length →
      ((r.bytes.drop 7).take _).length = INIT_DATA + CONT_DATA * 0
    intro hstill
    rw [List.length_take] at hstill ⊢
    omega
  · exact ⟨now, r, hr, hcont, rfl, rfl, rfl, List.prefix_refl _⟩

/-- **One input.** -/
theorem taken_take (h : Sound ins outs t) (i : Input) :
    Taken (ins ++ [i]) outs (t.takeChecked i) (t.take i) := by
  have hmono := h.mono i
  cases i with
  | finished => exact .said (hmono.busied none) .none
  | report now r =>
    have hexpired := hmono.expire now
    have hr : Input.report now r ∈ ins ++ [.report now r] :=
      List.mem_append_right _ List.mem_cons_self
    rw [takeChecked, take, receiveChecked, receive]
    dsimp only
    split
    · exact taken_continuation hexpired _ _ (by rw [List.length_drop, r.size]; rfl)
    rename_i hcont
    split
    · exact .said hexpired (.error _ _)
    rename_i hchannel
    split
    · refine .said hexpired ?_
      split
      · exact .cancel _
      · exact .none
    cases (t.expire now).incomplete with
    | none => exact taken_start hexpired hr hcont hchannel
    | some p =>
      dsimp only
      split
      · exact .said hexpired (.error _ _)
      split
      · exact .said hexpired.emptied (.error _ _)
      · exact taken_start hexpired hr hcont hchannel

/-! ## Any run -/

theorem sound_default : Sound [] [] default := by
  refine ⟨by decide, by decide, ?_, fun p hp ↦ by cases hp⟩
  intro c hc hlt
  have hone : default.nextChannel.toNat = 1 := rfl
  have hpos : c.toNat ≠ 0 := fun h0 ↦ hc (UInt32.toNat_inj.1 h0)
  rw [UInt32.lt_iff_toNat_lt, hone] at hlt
  omega

/-- **The invariant after any run.** -/
theorem sound_run (ins : List Input) :
    Sound ins (Mealy.outputs take default ins) (Mealy.final take default ins) := by
  induction ins using List.reverseRecOn with
  | nil => exact sound_default
  | append_singleton ins i ih =>
    rw [Mealy.outputs_append, Mealy.final_append]
    exact (taken_take ih i).sound

/-- **Any run of reports and of requests that finish.**  In the state each input arrives in, no sum
or difference wraps; the slot misses bytes of a length that fits into a message and its next number
is at most 128; and what the transport says has just the bytes that were declared, came on a channel
that `INIT` gave away, and gives away none of the reserved channels. -/
theorem transport_run (before : List Input) (i : Input) :
    let t := Mealy.final take default before
    t.takeChecked i = some (t.take i) ∧
      (∀ p, t.incomplete = some p → p.message.payload.length < p.length ∧
        p.length ≤ MAX_MESSAGE ∧ p.sequence ≤ 128) ∧
      Proper (before ++ [i]) (Mealy.outputs take default before) (t.take i).1 := by
  have htaken := taken_take (sound_run before) i
  refine ⟨htaken.exact, fun p hp ↦ ?_, htaken.proper⟩
  have hgathering := (sound_run before).slot p hp
  refine ⟨hgathering.missing, hgathering.fits, ?_⟩
  rw [UInt8.le_iff_toNat_le]
  exact Nat.le_of_lt hgathering.sequence_lt

end Transport

end Passkeys

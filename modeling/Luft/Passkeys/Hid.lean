import Luft.Lib.BigEndian
import Luft.Lib.Chunks
import Luft.Lib.Mealy

/-!
# The CTAPHID transport of the passkey device

A CTAPHID message travels as 64-byte reports: one *initialisation* report, which names the channel,
the command and the length of the payload, and then *continuation* reports numbered `0, 1, 2, …`
with what did not fit into the first.  This file is `ctap/src/hid.rs`:

* `Message.reports` cuts a message into reports;
* `Transport.receive` takes one report and either keeps collecting, answers by itself, or hands a
  request or a cancel to the agent;
* `Transport.feed` is a run of reports, each with the instant it arrived at.

The transport has a single slot for the message it is collecting (`incomplete`) and a single note
of the channel whose request the agent works on (`busy`).  Everything interesting about it is how
the reports of different channels fight over those two.

`Instant`s are counted in nanoseconds; `elapsed` saturates, so the difference is the truncated one.
-/

set_option autoImplicit false

namespace Passkeys

open BigEndian Chunks

/-! ## Reports and messages -/

/-- Bytes in a report. -/
def REPORT : ℕ := 64
/-- Payload bytes in an initialisation report. -/
def INIT_DATA : ℕ := REPORT - 7
/-- Payload bytes in a continuation report. -/
def CONT_DATA : ℕ := REPORT - 5
/-- The longest payload the 128 sequence numbers can carry. -/
def MAX_MESSAGE : ℕ := INIT_DATA + 128 * CONT_DATA
def BROADCAST : UInt32 := 0xFFFFFFFF
/-- Three seconds. -/
def STALE_MESSAGE : ℕ := 3 * 1000000000
def PROTOCOL_VERSION : UInt8 := 2
def CAPABILITIES : UInt8 := 0x01 ||| 0x04 ||| 0x08
/-- The major version of the package. -/
def VERSION_MAJOR : UInt8 := 0

def PING : UInt8 := 0x01
def INIT : UInt8 := 0x06
def WINK : UInt8 := 0x08
def CBOR : UInt8 := 0x10
def CANCEL : UInt8 := 0x11
def KEEPALIVE : UInt8 := 0x3B
def ERROR : UInt8 := 0x3F

def ERR_INVALID_CMD : UInt8 := 0x01
def ERR_INVALID_LEN : UInt8 := 0x03
def ERR_INVALID_SEQ : UInt8 := 0x04
def ERR_CHANNEL_BUSY : UInt8 := 0x06
def ERR_INVALID_CHANNEL : UInt8 := 0x0B

/-- A report: exactly `REPORT` bytes. -/
structure Report where
  /-- The bytes. -/
  bytes : List UInt8
  /-- There are `REPORT` of them. -/
  size : bytes.length = REPORT
  deriving DecidableEq

/-- What the keep-alive says while a request is worked on. -/
inductive Keepalive
  | processing
  | userNeeded
  deriving DecidableEq, Repr

def Keepalive.code : Keepalive → UInt8
  | .processing => 1
  | .userNeeded => 2

structure Message where
  channel : UInt32
  command : UInt8
  payload : List UInt8
  deriving DecidableEq, Repr

namespace Message

def keepalive (channel : UInt32) (status : Keepalive) : Message :=
  { channel, command := KEEPALIVE, payload := [status.code] }

def reply (m : Message) (payload : List UInt8) : Message :=
  { channel := m.channel, command := m.command, payload }

def error (channel : UInt32) (code : UInt8) : Message :=
  { channel, command := ERROR, payload := [code] }

end Message

/-- A fresh report is all zeros; the bytes given are copied over its front. -/
def Report.of (bytes : List UInt8) : Report where
  bytes := (bytes ++ List.replicate REPORT 0).take REPORT
  size := by simp

theorem Report.of_bytes {bytes : List UInt8} (h : bytes.length ≤ REPORT) :
    (Report.of bytes).bytes = bytes ++ List.replicate (REPORT - bytes.length) 0 := by
  show (bytes ++ List.replicate REPORT 0).take REPORT = _
  rw [List.take_append, List.take_of_length_le h, List.take_replicate,
    Nat.min_eq_left (Nat.sub_le _ _)]

/-- The first report of a message. -/
def Message.init (m : Message) : Report :=
  .of (be 4 m.channel.toNat ++ [m.command ||| 0x80] ++ be 2 m.payload.length ++
    m.payload.take INIT_DATA)

/-- The continuation report with the given number and part of the payload. -/
def Message.cont (m : Message) (sequence : UInt8) (chunk : List UInt8) : Report :=
  .of (be 4 m.channel.toNat ++ [sequence] ++ chunk)

/-- The continuation reports for what is left of the payload, numbered from `first` on. -/
def Message.conts (m : Message) (first : ℕ) (rest : List UInt8) : List Report :=
  ((chunks CONT_DATA rest).zipIdx first).map fun c ↦ m.cont (.ofNat c.2) c.1

/-- The reports of a message: `None` where `u16::try_from` would panic. -/
def Message.reports (m : Message) : Option (List Report) :=
  if m.payload.length < 2 ^ 16 then
    some (m.init :: m.conts 0 (m.payload.drop INIT_DATA))
  else none

/-! ## The transport -/

inductive Inbound
  | reply (message : Message)
  | request (message : Message)
  | cancel (channel : UInt32)
  deriving DecidableEq, Repr

/-- A message whose reports are still coming in. -/
structure Partial where
  message : Message
  length : ℕ
  sequence : UInt8
  started : ℕ
  deriving DecidableEq, Repr

structure Transport where
  /-- The one message being collected. -/
  incomplete : Option Partial
  nextChannel : UInt32
  /-- The channel whose request the agent works on. -/
  busy : Option UInt32
  deriving DecidableEq, Repr

namespace Transport

/-- `Transport::default()`. -/
def default : Transport := { incomplete := none, nextChannel := 1, busy := none }

def finish (t : Transport) : Transport := { t with busy := none }

/-- `init` gives a channel away when asked on the broadcast channel. -/
def init (t : Transport) (message : Message) : Message × Transport :=
  if message.payload.length ≠ 8 then (.error message.channel ERR_INVALID_LEN, t)
  else
    let assigned := if message.channel = BROADCAST then t.nextChannel else message.channel
    let t := if message.channel = BROADCAST then
        { t with nextChannel := if assigned = BROADCAST - 1 then 1 else assigned + 1 }
      else t
    (message.reply (message.payload ++ be 4 assigned.toNat ++
      [PROTOCOL_VERSION, VERSION_MAJOR, 0, 0, CAPABILITIES]), t)

def dispatch (t : Transport) (message : Message) : Inbound × Transport :=
  let channel := message.channel
  if message.command = INIT then (.reply (t.init message).1, (t.init message).2)
  else if channel = BROADCAST ∨ t.nextChannel ≤ channel then
    (.reply (.error channel ERR_INVALID_CHANNEL), t)
  else if t.busy.any (· ≠ channel) then (.reply (.error channel ERR_CHANNEL_BUSY), t)
  else if message.command = PING then (.reply message, t)
  else if message.command = WINK then (.reply (message.reply []), t)
  else if message.command = CBOR then
    if message.payload = [] then (.reply (.error channel ERR_INVALID_LEN), t)
    else (.request message, { t with busy := some channel })
  else (.reply (.error channel ERR_INVALID_CMD), t)

def complete (t : Transport) (p : Partial) : Option Inbound × Transport :=
  if p.message.payload.length < p.length then (none, { t with incomplete := some p })
  else
    let t := { t with incomplete := none }
    (some (t.dispatch p.message).1, (t.dispatch p.message).2)

/-- The slot is emptied (`take`) before anything about the report is checked. -/
def continuation (t : Transport) (channel : UInt32) (sequence : UInt8) (data : List UInt8) :
    Option Inbound × Transport :=
  let taken := { t with incomplete := none }
  match t.incomplete with
  | none => (none, taken)
  | some p =>
    if p.message.channel ≠ channel then (none, taken)
    else if sequence ≠ p.sequence then (some (.reply (.error channel ERR_INVALID_SEQ)), taken)
    else
      let needed := p.length - p.message.payload.length
      taken.complete { p with
        message := { p.message with
          payload := p.message.payload ++ data.take (min needed CONT_DATA) }
        sequence := p.sequence + 1 }

/-- The rest of `receive` once the slot does not stand in the way of an initialisation report. -/
def start (t : Transport) (now : ℕ) (channel : UInt32) (command : UInt8) (length : ℕ)
    (data : List UInt8) : Option Inbound × Transport :=
  if MAX_MESSAGE < length then (some (.reply (.error channel ERR_INVALID_LEN)), t)
  else t.complete
    { message := { channel, command, payload := data.take (min length INIT_DATA) }
      length, sequence := 0, started := now }

/-- A message that has been coming in for too long is dropped. -/
def expire (t : Transport) (now : ℕ) : Transport :=
  if t.incomplete.any (fun p ↦ STALE_MESSAGE < now - p.started) then
    { t with incomplete := none }
  else t

end Transport

namespace Report

/-- The channel a report is for. -/
def channel (r : Report) : UInt32 := .ofNat (ofBe (r.bytes.take 4))

/-- The byte that tells initialisation and continuation reports apart. -/
def kind (r : Report) : UInt8 := r.bytes.getD 4 0

/-- The command of an initialisation report. -/
def command (r : Report) : UInt8 := r.kind &&& 0x7F

/-- The length an initialisation report declares. -/
def length (r : Report) : ℕ := ofBe ((r.bytes.drop 5).take 2)

/-- Continuation reports leave the top bit clear. -/
abbrev IsCont (r : Report) : Prop := r.kind &&& 0x80 = 0

end Report

namespace Transport

def receive (t : Transport) (now : ℕ) (report : Report) : Option Inbound × Transport :=
  let channel := report.channel
  let t := t.expire now
  if report.IsCont then t.continuation channel report.kind (report.bytes.drop 5)
  else
    let command := report.command
    let length := report.length
    let data := report.bytes.drop 7
    if channel = 0 then (some (.reply (.error channel ERR_INVALID_CHANNEL)), t)
    else if command = CANCEL then
      (if t.busy = some channel then some (.cancel channel) else none, t)
    else
      match t.incomplete with
      | some p =>
        if p.message.channel ≠ channel ∧ command ≠ INIT then
          (some (.reply (.error channel ERR_CHANNEL_BUSY)), t)
        else if p.message.channel = channel ∧ command ≠ INIT then
          (some (.reply (.error channel ERR_INVALID_SEQ)), { t with incomplete := none })
        else t.start now channel command length data
      | none => t.start now channel command length data

/-- One report, with the instant it arrives at. -/
def step (t : Transport) (e : ℕ × Report) : Option Inbound × Transport := t.receive e.1 e.2

/-- A run of reports: what the transport says to each, and the state it ends in. -/
def feed (t : Transport) (es : List (ℕ × Report)) : List (Option Inbound) × Transport :=
  Mealy.run step t es

/-- A channel the transport takes messages on: given away already, and not yet handed out again. -/
def Allocated (t : Transport) (channel : UInt32) : Prop :=
  channel ≠ 0 ∧ channel ≠ BROADCAST ∧ channel < t.nextChannel

end Transport

end Passkeys

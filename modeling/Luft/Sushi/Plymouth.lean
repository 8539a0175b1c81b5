import Luft.Lib.Streaming
import Luft.Lib.Utf8
import Mathlib.Data.Nat.Digits.Defs

/-!
# Requests of the boot splash

A client sends a command, and an argument behind its size where it has one.  A connection reads what has
arrived, takes off the requests that are whole, and keeps the rest until more arrives.
-/

set_option autoImplicit false

namespace Plymouth

open Streaming

abbrev Bytes := List UInt8

/-! ## Requests -/

def WITH_ARGUMENT : UInt8 := 2

inductive Request where
  | ping
  | changeMode (mode : List Char)
  | systemUpdate (percent : UInt8)
  | showMessage (message : List Char)
  | hideMessage (message : List Char)
  | showSplash
  | hideSplash
  | deactivate
  | reactivate
  | quit (retain_splash : Bool)
  | newRoot (path : List Char)
  | hasActiveVt
  | cachedPassword
  | interactive
  | notice
  | unknown
deriving DecidableEq, Repr

inductive Malformed where
  | malformed
deriving DecidableEq, Repr

def text (argument : Bytes) : List Char := Utf8.lossy argument

/-- `text.parse::<u8>()`. -/
def parseU8 (text : List Char) : Option UInt8 :=
  let digits := if text.head? = some '+' then text.tail else text
  let number := Nat.ofDigitChars 10 digits 0
  if digits ≠ [] ∧ digits.all Char.isDigit ∧ number < 256 then some (UInt8.ofNat number) else none

/-- The percentage that an update says it has come to. -/
def percent (argument : Bytes) : UInt8 := ((parseU8 (text argument)).filter (· ≤ 100)).getD 0

def byte (c : Char) : UInt8 := UInt8.ofNat c.toNat

def request (command : UInt8) (argument : Bytes) : Request :=
  if command = byte 'P' then .ping
  else if command = byte 'C' then .changeMode (text argument)
  else if command = byte 'u' then .systemUpdate (percent argument)
  else if command = byte 'M' then .showMessage (text argument)
  else if command = byte 'm' then .hideMessage (text argument)
  else if command = byte '$' then .showSplash
  else if command = byte 'H' then .hideSplash
  else if command = byte 'D' then .deactivate
  else if command = byte 'r' then .reactivate
  else if command = byte 'Q' then .quit (argument.head?.any (· ≠ 0))
  else if command = byte 'R' then .newRoot (text argument)
  else if command = byte 'V' then .hasActiveVt
  else if command = byte 'c' then .cachedPassword
  else if (['*', 'W', 'K'].map byte).contains command then .interactive
  else if (['U', 'S', '!', 'l', 'L', 'A', 'a'].map byte).contains command then .notice
  else .unknown

/-- The request at the beginning of what was received, and how many bytes it takes. -/
def parse (received : Bytes) : Except Malformed (Option (Request × ℕ)) :=
  match received with
  | command :: marker :: rest =>
    if marker = 0 then .ok (some (request command [], 2))
    else if marker = WITH_ARGUMENT then
      match rest with
      | [] => .ok none
      | size :: rest =>
        if size.toNat ≤ rest.length then
          let argument := rest.take size.toNat
          if argument.getLast? = some 0 then .ok (some (request command argument.dropLast, 3 + size.toNat))
          else .error .malformed
        else .ok none
    else .error .malformed
  | _ => .ok none

/-! ## Connections -/

/-- What a read from the socket answers, apart from that nothing is there at the moment. -/
inductive Reading where
  | data (bytes : Bytes)
  | interrupted
  | closed
  | failed
deriving DecidableEq, Repr

structure Connection where
  client : ℕ
  received : Bytes
  from_root : Bool
deriving DecidableEq, Repr

/-- What has arrived until nothing is there, and whether the socket is still open. -/
def gather : List Reading → Bytes × Bool
  | [] => ([], true)
  | .data bytes :: readings => (bytes ++ (gather readings).1, (gather readings).2)
  | .interrupted :: readings => gather readings
  | .closed :: _ => ([], false)
  | .failed :: _ => ([], false)

/-- What one read of a connection found: the requests, whether they ended in something malformed, and whether the
connection goes on. -/
structure Found where
  requests : List Request
  malformed : Bool
  goes_on : Bool
deriving DecidableEq, Repr

def Connection.read (connection : Connection) (readings : List Reading) : Found × Connection :=
  let received := connection.received ++ (gather readings).1
  match drain parse received with
  | (requests, .error _) => (⟨requests, true, false⟩, { connection with received := received })
  | (requests, .ok rest) => (⟨requests, false, (gather readings).2⟩, { connection with received := rest })

/-- One read after the other, as long as the connection goes on. -/
def Connection.reads : Connection → List (List Reading) → Found
  | _, [] => ⟨[], false, true⟩
  | connection, readings :: more =>
    let (found, connection) := connection.read readings
    if found.goes_on then
      let later := connection.reads more
      { later with requests := found.requests ++ later.requests }
    else found

/-! ## Parsing does not change its mind -/

variable {command marker size : UInt8} {rest argument : Bytes}

theorem parse_plain (command : UInt8) (rest : Bytes) :
    parse (command :: 0 :: rest) = .ok (some (request command [], 2)) := rfl

theorem parse_other (command : UInt8) (rest : Bytes) (hzero : marker ≠ 0) (harg : marker ≠ WITH_ARGUMENT) :
    parse (command :: marker :: rest) = .error .malformed := by
  rw [parse.eq_def]
  dsimp only
  rw [if_neg hzero, if_neg harg]

/-- What an argument of `size` bytes is taken for. -/
def parseArgument (command size : UInt8) (argument : Bytes) : Except Malformed (Option (Request × ℕ)) :=
  if argument.getLast? = some 0 then .ok (some (request command argument.dropLast, 3 + size.toNat)) else .error .malformed

theorem parse_argument (command : UInt8) (h : argument.length = size.toNat) (rest : Bytes) :
    parse (command :: WITH_ARGUMENT :: size :: (argument ++ rest)) = parseArgument command size argument := by
  have hle : size.toNat ≤ (argument ++ rest).length := by
    rw [List.length_append]
    omega
  rw [parse, if_neg (by decide), if_pos rfl]
  dsimp only
  rw [if_pos hle, ← h, List.take_left, parseArgument, h]

theorem parse_short (command : UInt8) (h : rest.length < size.toNat) :
    parse (command :: WITH_ARGUMENT :: size :: rest) = .ok none := by
  rw [parse, if_neg (by decide), if_pos rfl]
  dsimp only
  rw [if_neg (by omega)]

/-- What has arrived is too little, or it is decided whatever follows. -/
theorem parse_cases (received : Bytes) : parse received = .ok none ∨
    ∃ taken rest, received = taken ++ rest ∧ taken ≠ [] ∧
      ((∃ request, ∀ more, parse (taken ++ more) = .ok (some (request, taken.length))) ∨
        ∀ more, parse (taken ++ more) = .error .malformed) := by
  match received with
  | [] => exact .inl rfl
  | [_] => exact .inl rfl
  | command :: marker :: rest =>
    by_cases hzero : marker = 0
    · subst hzero
      exact .inr ⟨[command, 0], rest, rfl, List.cons_ne_nil _ _, .inl ⟨request command [], parse_plain command⟩⟩
    by_cases harg : marker = WITH_ARGUMENT
    · subst harg
      match rest with
      | [] => exact .inl rfl
      | size :: rest =>
        by_cases hle : size.toNat ≤ rest.length
        · have hlength : (rest.take size.toNat).length = size.toNat := List.length_take_of_le hle
          have hparse : ∀ more, parse ((command :: WITH_ARGUMENT :: size :: rest.take size.toNat) ++ more) =
              parseArgument command size (rest.take size.toNat) := fun more ↦ parse_argument command hlength more
          refine .inr ⟨command :: WITH_ARGUMENT :: size :: rest.take size.toNat, rest.drop size.toNat, ?_,
            List.cons_ne_nil _ _, ?_⟩
          · simp only [List.cons_append, List.take_append_drop]
          · have htaken : (command :: WITH_ARGUMENT :: size :: rest.take size.toNat).length = 3 + size.toNat := by
              simp only [List.length_cons, hlength]
              omega
            rw [htaken]
            simp only [hparse, parseArgument]
            split
            · exact .inl ⟨_, fun _ ↦ rfl⟩
            · exact .inr fun _ ↦ rfl
        · exact .inl (parse_short command (by omega))
    · exact .inr ⟨[command, marker], rest, rfl, List.cons_ne_nil _ _, .inr fun more ↦ parse_other command more hzero harg⟩

theorem parse_steady : Steady parse where
  pos received a n h := by
    rcases parse_cases received with hnone | ⟨taken, rest, rfl, hne, ⟨request, hitem⟩ | herror⟩
    · rw [hnone] at h
      cases h
    · rw [hitem] at h
      cases h
      rw [List.length_append]
      exact ⟨List.length_pos_iff.2 hne, Nat.le_add_right _ _⟩
    · rw [herror] at h
      cases h
  item received a n more h := by
    rcases parse_cases received with hnone | ⟨taken, rest, rfl, hne, ⟨request, hitem⟩ | herror⟩
    · rw [hnone] at h
      cases h
    · rw [hitem] at h
      rw [List.append_assoc, hitem, h]
    · rw [herror] at h
      cases h
  malformed received e more h := by
    rcases parse_cases received with hnone | ⟨taken, rest, rfl, hne, ⟨request, hitem⟩ | herror⟩
    · rw [hnone] at h
      cases h
    · rw [hitem] at h
      cases h
    · rw [herror] at h
      rw [List.append_assoc, herror, h]

/-! ## Reads -/

theorem gather_append (readings more : List Reading) : gather (readings ++ more) =
    if (gather readings).2 then ((gather readings).1 ++ (gather more).1, (gather more).2) else gather readings := by
  induction readings with
  | nil => rfl
  | cons reading readings ih =>
    cases reading with
    | data bytes =>
      rw [List.cons_append, gather, gather, ih]
      split
      · rw [List.append_assoc]
      · rfl
    | interrupted => exact ih
    | closed => rfl
    | failed => rfl

variable {connection : Connection} {readings : List Reading} {requests : List Request} {left : Bytes}

theorem read_malformed {e : Malformed}
    (h : drain parse (connection.received ++ (gather readings).1) = (requests, .error e)) :
    (connection.read readings).1 = ⟨requests, true, false⟩ := by
  rw [Connection.read, h]

theorem read_ok (h : drain parse (connection.received ++ (gather readings).1) = (requests, .ok left)) :
    connection.read readings =
      (⟨requests, false, (gather readings).2⟩, { connection with received := left }) := by
  rw [Connection.read, h]

/-- A read that the connection does not survive is the last one. -/
theorem reads_ended {more : List (List Reading)} (h : (connection.read readings).1.goes_on = false) :
    connection.reads (readings :: more) = (connection.read readings).1 := by
  rw [Connection.reads]
  dsimp only
  rw [h]
  rfl

/-- **It makes no difference how the bytes arrive**, from a state in which nothing is left to take off. -/
theorem reads_flatten (h : parse connection.received = .ok none) (readings : List (List Reading)) :
    connection.reads readings = (connection.read readings.flatten).1 := by
  induction readings generalizing connection with
  | nil =>
    have hnil : drain parse (connection.received ++ (gather []).1) = ([], .ok connection.received) := by
      rw [gather, List.append_nil, drain_none h]
    rw [List.flatten_nil, read_ok hnil]
    rfl
  | cons reading readings ih =>
    rw [List.flatten_cons]
    have hgather := gather_append reading readings.flatten
    cases hdrain : drain parse (connection.received ++ (gather reading).1) with
    | mk requests result =>
      cases result with
      | error e =>
        -- What comes later is not looked at.
        have hwhole : drain parse (connection.received ++ (gather (reading ++ readings.flatten)).1) =
            (requests, .error e) := by
          rw [hgather]
          split
          · rw [← List.append_assoc, drain_append_malformed parse_steady _ hdrain]
          · exact hdrain
        rw [reads_ended (by rw [read_malformed hdrain]), read_malformed hdrain, read_malformed hwhole]
      | ok left =>
        cases hopen : (gather reading).2 with
        | false =>
          rw [hopen, if_neg Bool.false_ne_true] at hgather
          have hwhole : drain parse (connection.received ++ (gather (reading ++ readings.flatten)).1) =
              (requests, .ok left) := by
            rw [hgather, hdrain]
          rw [reads_ended (by rw [read_ok hdrain, hopen]), read_ok hdrain, read_ok hwhole, hgather]
        | true =>
          rw [hopen, if_pos rfl] at hgather
          have hleft : parse left = .ok none := parse_rest parse_steady (congrArg Prod.snd hdrain)
          have hlater : ({ connection with received := left } : Connection).reads readings =
              (({ connection with received := left } : Connection).read readings.flatten).1 := ih hleft
          have hwhole := drain_append parse_steady (gather readings.flatten).1 hdrain
          rw [List.append_assoc] at hwhole
          rw [Connection.reads, read_ok hdrain]
          dsimp only
          rw [hopen, if_pos rfl, hlater]
          cases hrest : drain parse (left ++ (gather readings.flatten).1) with
          | mk later result =>
            rw [hrest] at hwhole
            have hwhole' : drain parse (connection.received ++ (gather (reading ++ readings.flatten)).1) =
                (requests ++ later, result) := by
              rw [hgather]
              exact hwhole
            cases result with
            | error e => rw [read_malformed hwhole', read_malformed hrest]
            | ok rest => rw [read_ok hwhole', read_ok hrest, hgather]

/-! ## What clients send -/

/-- A command and its argument. -/
structure Message where
  command : UInt8
  argument : Option Bytes
  fits : ∀ bytes ∈ argument, bytes.length ≤ 254

namespace Message

def encode (message : Message) : Bytes :=
  match message.argument with
  | none => [message.command, 0]
  | some argument => message.command :: WITH_ARGUMENT :: UInt8.ofNat (argument.length + 1) :: (argument ++ [0])

def request (message : Message) : Request := Plymouth.request message.command (message.argument.getD [])

theorem parse_encode (message : Message) (rest : Bytes) :
    parse (message.encode ++ rest) = .ok (some (message.request, message.encode.length)) := by
  obtain ⟨command, argument, fits⟩ := message
  cases argument with
  | none => rfl
  | some argument =>
    have hle : argument.length ≤ 254 := fits argument rfl
    have hsize : (UInt8.ofNat (argument.length + 1)).toNat = argument.length + 1 := by
      rw [UInt8.toNat_ofNat']
      omega
    have hlength : (argument ++ [0]).length = (UInt8.ofNat (argument.length + 1)).toNat := by
      rw [List.length_append, hsize, List.length_singleton]
    have hlast : (argument ++ [0]).getLast? = some 0 := List.getLast?_concat
    simp only [encode, List.cons_append]
    rw [parse_argument command hlength rest, parseArgument, if_pos hlast, List.dropLast_concat, ← hlength]
    simp only [request, Option.getD_some, List.length_cons]
    rw [Nat.add_comm 3]

/-- The messages come out as their requests. -/
theorem drain_encode (messages : List Message) :
    drain parse (messages.flatMap encode) = (messages.map request, .ok []) := by
  induction messages with
  | nil => exact drain_none rfl
  | cons message messages ih =>
    rw [List.flatMap_cons, drain_item parse_steady (message.parse_encode _), List.drop_left, ih, List.map_cons]

end Message

/-- A text as an argument. -/
def textMessage (command : Char) (text : List Char) : Option Message :=
  if h : (Utf8.encode text).length ≤ 254 then
    some ⟨byte command, some (Utf8.encode text), fun bytes hbytes ↦ by
      cases hbytes
      exact h⟩
  else none

def plainMessage (command : Char) : Message := ⟨byte command, none, fun _ h ↦ nomatch h⟩

/-- How a client asks for something; the commands that are only answered have no one way to be sent. -/
def Request.message : Request → Option Message
  | .ping => some (plainMessage 'P')
  | .changeMode mode => textMessage 'C' mode
  | .systemUpdate percent => if percent ≤ 100 then textMessage 'u' (Nat.toDigits 10 percent.toNat) else none
  | .showMessage message => textMessage 'M' message
  | .hideMessage message => textMessage 'm' message
  | .showSplash => some (plainMessage '$')
  | .hideSplash => some (plainMessage 'H')
  | .deactivate => some (plainMessage 'D')
  | .reactivate => some (plainMessage 'r')
  | .quit retain_splash => textMessage 'Q' (if retain_splash then ['\x01'] else [])
  | .newRoot path => textMessage 'R' path
  | .hasActiveVt => some (plainMessage 'V')
  | .cachedPassword => some (plainMessage 'c')
  | .interactive => none
  | .notice => none
  | .unknown => none

theorem parseU8_toDigits {n : ℕ} (h : n < 256) : parseU8 (Nat.toDigits 10 n) = some (UInt8.ofNat n) := by
  have hdigits : (Nat.toDigits 10 n).all Char.isDigit :=
    List.all_eq_true.2 fun c hc ↦ Nat.isDigit_of_mem_toDigits (by decide) (by decide) hc
  have hplus : (Nat.toDigits 10 n).head? ≠ some '+' := fun hhead ↦ by
    have hdigit := Nat.isDigit_of_mem_toDigits (by decide) (by decide) (List.mem_of_mem_head? hhead)
    exact absurd hdigit (by decide)
  rw [parseU8, if_neg hplus, Nat.ofDigitChars_ten_toDigits, if_pos ⟨Nat.toDigits_ne_nil, hdigits, h⟩]

theorem percent_toDigits {percent : UInt8} (h : percent ≤ 100) :
    Plymouth.percent (Utf8.encode (Nat.toDigits 10 percent.toNat)) = percent := by
  rw [Plymouth.percent, text, Utf8.lossy_encode, parseU8_toDigits percent.toNat_lt, UInt8.ofNat_toNat,
    Option.filter_some, decide_eq_true h, if_pos rfl, Option.getD_some]

theorem textMessage_eq {command : Char} {text : List Char} {message : Message}
    (h : textMessage command text = some message) : message.request = request (byte command) (Utf8.encode text) := by
  rw [textMessage] at h
  split at h
  · cases h
    rfl
  · cases h

theorem quit_retain (retain_splash : Bool) :
    request (byte 'Q') (Utf8.encode (if retain_splash then ['\x01'] else [])) = .quit retain_splash := by
  cases retain_splash <;> decide

/-- What a client asks for is what is asked for. -/
theorem request_message {asked : Request} {message : Message} (h : asked.message = some message) :
    message.request = asked := by
  cases asked with
  | changeMode mode => exact (textMessage_eq h).trans (congrArg Request.changeMode (Utf8.lossy_encode mode))
  | showMessage shown => exact (textMessage_eq h).trans (congrArg Request.showMessage (Utf8.lossy_encode shown))
  | hideMessage hidden => exact (textMessage_eq h).trans (congrArg Request.hideMessage (Utf8.lossy_encode hidden))
  | newRoot path => exact (textMessage_eq h).trans (congrArg Request.newRoot (Utf8.lossy_encode path))
  | quit retain_splash => exact (textMessage_eq h).trans (quit_retain retain_splash)
  | systemUpdate percent =>
    rw [Request.message] at h
    split at h
    · next hle => exact (textMessage_eq h).trans (congrArg Request.systemUpdate (percent_toDigits hle))
    · cases h
  | _ => cases h <;> rfl

/-- A connection that was just accepted. -/
def Connection.new (client : ℕ) (from_root : Bool) : Connection := ⟨client, [], from_root⟩

/-- **Requests do not depend on how their bytes arrive**: all reads of a connection together find what one read of
everything finds, and of messages it finds the requests that were asked for. -/
theorem requests_arrive (client : ℕ) (from_root : Bool) (readings : List (List Reading)) :
    (Connection.new client from_root).reads readings =
        ((Connection.new client from_root).read readings.flatten).1 ∧
      (∀ messages : List Message, (gather readings.flatten).1 = messages.flatMap Message.encode →
        (Connection.new client from_root).reads readings =
          ⟨messages.map Message.request, false, (gather readings.flatten).2⟩) ∧
      ∀ (asked : Request) (message : Message), asked.message = some message → message.request = asked := by
  have hwhole : (Connection.new client from_root).reads readings =
      ((Connection.new client from_root).read readings.flatten).1 := reads_flatten rfl readings
  refine ⟨hwhole, fun messages hmessages ↦ ?_, fun _ _ ↦ request_message⟩
  have hdrain : drain parse ((Connection.new client from_root).received ++ (gather readings.flatten).1) =
      (messages.map Message.request, .ok []) := by
    rw [hmessages]
    exact Message.drain_encode messages
  rw [hwhole, read_ok hdrain]

end Plymouth

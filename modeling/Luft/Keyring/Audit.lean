import Luft.Keyring.File
import Luft.Lib.Frames
import Luft.Lib.Runs

/-!
# The access history

The keyring keeps a history of what was done with it: each record is sealed and appended to a file as
a frame with its length in front.  An append can fail with any part of its frame in the file.  `read`
goes through the frames from the start and leaves out what does not open; it has no way to tell where
a frame that was cut off ends, and takes the bytes of the next one for the rest of it.

`lossless_run` is what holds all the same.  As long as no record is acknowledged behind bytes that
`read` has left over, the history reads as the records that were acknowledged, but for those that
`trim` let go, with at most records in between whose append failed.
-/

set_option autoImplicit false

namespace Keyring

namespace Audit

open File (Bytes Error Fault)

def LOG_KEY : String := "luft-keyring audit log"
def LOG_CONTEXT : Bytes := LOG_KEY.toList.map fun c ↦ .ofNat c.toNat
def KEEP : ℕ := 2000

structure Crates (Key Record : Type) where
  cipher : File.Cipher Key
  record : File.Encoding Record

variable {Key Record : Type} (crates : Crates Key Record)

/-! ## As the source has it -/

/-- The record that a sealed text opens to. -/
def recordOf (key : Key) (sealed : Bytes) : Option Record :=
  (crates.cipher.opening (crates.cipher.derive key LOG_KEY) sealed LOG_CONTEXT).bind
    crates.record.decode

def frame (key : Key) (record : Record) (nonce : Bytes) : Except Error Bytes :=
  match crates.record.encode record with
  | none => .error (.corrupt "unencodable audit record")
  | some plaintext =>
    let sealed := crates.cipher.sealing (crates.cipher.derive key LOG_KEY) nonce plaintext
      LOG_CONTEXT
    if 4294967296 ≤ sealed.length then .error (.corrupt "oversized audit record")
    else .ok (Frames.frame sealed)

/-- Append a record; with a `cut` the file takes only that many bytes of the frame. -/
def append (key : Key) (record : Record) (nonce : Bytes) (cut : Option ℕ) (file : Bytes) :
    Except Error Unit × Bytes :=
  match frame crates key record nonce with
  | .error e => (.error e, file)
  | .ok frame =>
    match cut with
    | none => (.ok (), file ++ frame)
    | some n => (.error .io, file ++ frame.take n)

def read (key : Key) (file : Bytes) : List Record := (Frames.scan (recordOf crates key) file).1

/-- What `read` stops at. -/
def leftOver (key : Key) (file : Bytes) : Bytes := (Frames.scan (recordOf crates key) file).2

def frames (key : Key) : List Record → List Bytes → Except Error Bytes
  | [], _ => .ok []
  | record :: records, nonces => do
    let first ← frame crates key record (nonces.headD [])
    let rest ← frames key records nonces.tail
    return first ++ rest

/-- Keep the newest records if there are too many; the last part tells whether that replaced the
file. -/
def trim (key : Key) (nonces : List Bytes) (fault : Option Fault) (file : Bytes) :
    Except Error Unit × Bytes × Bool :=
  let records := read crates key file
  if records.length ≤ KEEP + KEEP / 4 then (.ok (), file, false)
  else
    match frames crates key (records.drop (records.length - KEEP)) nonces with
    | .error e => (.error e, file, false)
    | .ok bytes =>
      match File.replace fault bytes none with
      | (result, none) => (result, file, false)
      | (result, some bytes) => (result, bytes, true)

/-! ## What the history should be -/

/-- The file, and what it should hold: the records whose append succeeded, oldest first, and where an
append failed what that left readable. -/
structure History (Record : Type) where
  file : Bytes
  held : List (Record × Bool)

inductive Event (Record : Type) where
  | append (record : Record) (nonce : Bytes) (cut : Option ℕ)
  | trim (nonces : List Bytes) (fault : Option Fault)
  | clear

variable (key : Key)

def Event.step (e : Event Record) (h : History Record) : History Record :=
  match e with
  | .append record nonce cut =>
    match Audit.append crates key record nonce cut h.file with
    | (.ok (), file) => { file, held := h.held ++ [(record, true)] }
    | (.error _, file) =>
      { file, held := h.held ++ ((read crates key file).drop h.held.length).map (·, false) }
  | .trim nonces fault =>
    match Audit.trim crates key nonces fault h.file with
    | (_, file, true) => { file, held := h.held.drop (h.held.length - KEEP) }
    | (_, file, false) => { h with file }
  | .clear => { file := [], held := [] }

/-- The history reads as what it should hold. -/
def Lossless (h : History Record) : Prop := read crates key h.file = h.held.map Prod.fst

/-- No record is acknowledged behind bytes that are left over. -/
def Event.Behind (e : Event Record) (h : History Record) : Prop :=
  match e with
  | .append _ _ none => leftOver crates key h.file = []
  | _ => True

variable {crates} {key} {record : Record} {nonce file : Bytes}

/-! ## One event -/

theorem frame_eq_ok {bytes : Bytes} (h : frame crates key record nonce = .ok bytes) :
    Frames.scan (recordOf crates key) bytes = ([record], []) := by
  rw [frame] at h
  split at h
  · cases h
  rename_i plaintext hplaintext
  dsimp only at h
  split at h
  · cases h
  rename_i hsize
  cases h
  rw [Frames.scan_frame (Nat.lt_of_not_le hsize), recordOf, crates.cipher.opening_sealing,
    Option.bind_some, crates.record.decode_encode _ _ hplaintext]
  rfl

theorem frames_eq_ok {records : List Record} {nonces : List Bytes} {bytes : Bytes}
    (h : frames crates key records nonces = .ok bytes) :
    Frames.scan (recordOf crates key) bytes = (records, []) := by
  induction records generalizing nonces bytes with
  | nil =>
    cases h
    rfl
  | cons record records ih =>
    rw [frames] at h
    cases hfirst : frame crates key record (nonces.headD []) with
    | error e =>
      rw [hfirst] at h
      cases h
    | ok first =>
      cases hrest : frames crates key records nonces.tail with
      | error e =>
        rw [hfirst, hrest] at h
        cases h
      | ok rest =>
        rw [hfirst, hrest] at h
        cases h
        rw [Frames.scan_append, frame_eq_ok hfirst, List.nil_append, ih hrest]
        rfl

variable (crates key) in
/-- What was readable stays readable, in its place. -/
theorem read_prefix (file more : Bytes) : read crates key file <+: read crates key (file ++ more) := by
  rw [read, read, Frames.scan_append]
  exact List.prefix_append _ _

/-- **A record behind nothing left over** is read after the others. -/
theorem read_append {bytes : Bytes} (h : frame crates key record nonce = .ok bytes)
    (hleft : leftOver crates key file = []) :
    read crates key (file ++ bytes) = read crates key file ++ [record] := by
  rw [leftOver] at hleft
  rw [read, read, Frames.scan_append, hleft, List.nil_append, frame_eq_ok h]

theorem append_file (key : Key) (record : Record) (nonce : Bytes) (cut : Option ℕ) (file : Bytes) :
    ∃ more, (append crates key record nonce cut file).2 = file ++ more := by
  rw [append]
  split
  · exact ⟨[], (List.append_nil file).symm⟩
  · split
    · exact ⟨_, rfl⟩
    · exact ⟨_, rfl⟩

/-- **What an append comes to**: it succeeded and its whole frame is in the file, or it failed and
some bytes are. -/
theorem append_cases (key : Key) (record : Record) (nonce : Bytes) (cut : Option ℕ) (file : Bytes) :
    (cut = none ∧ ∃ bytes, frame crates key record nonce = .ok bytes ∧
      append crates key record nonce cut file = (.ok (), file ++ bytes)) ∨
    ∃ e more, append crates key record nonce cut file = (.error e, file ++ more) := by
  rw [append]
  cases frame crates key record nonce with
  | error e => exact .inr ⟨e, [], by rw [List.append_nil]⟩
  | ok bytes =>
    cases cut with
    | none => exact .inl ⟨rfl, bytes, rfl, rfl⟩
    | some n => exact .inr ⟨_, _, rfl⟩

/-- **What trimming comes to**: the file is as it was, or reads as the newest records. -/
theorem trim_cases (nonces : List Bytes) (fault : Option Fault) (file : Bytes) :
    (∃ result, trim crates key nonces fault file = (result, file, false)) ∨
    ∃ result bytes, trim crates key nonces fault file = (result, bytes, true) ∧
      read crates key bytes =
        (read crates key file).drop ((read crates key file).length - KEEP) := by
  rw [trim]
  split
  · exact .inl ⟨_, rfl⟩
  cases hframes : frames crates key
      ((read crates key file).drop ((read crates key file).length - KEEP)) nonces with
  | error e => exact .inl ⟨_, rfl⟩
  | ok bytes =>
    have hread : read crates key bytes = (read crates key file).drop
        ((read crates key file).length - KEEP) := by
      rw [read, frames_eq_ok hframes]
    dsimp only
    rw [File.replace.eq_def]
    split <;> rename_i hreplaced <;> split at hreplaced <;> cases hreplaced
    all_goals first
      | exact .inl ⟨_, rfl⟩
      | exact .inr ⟨_, _, rfl, hread⟩

theorem lossless_step (e : Event Record) (h : History Record) (hread : Lossless crates key h)
    (hbehind : e.Behind crates key h) : Lossless crates key (e.step crates key h) := by
  rw [Lossless] at hread
  cases e with
  | append record nonce cut =>
    rw [Event.step]
    rcases append_cases key record nonce cut h.file with
      ⟨rfl, bytes, hframe, happend⟩ | ⟨e, more, happend⟩
    · rw [happend]
      show read crates key (h.file ++ bytes) = (h.held ++ [(record, true)]).map Prod.fst
      rw [read_append hframe hbehind, hread, List.map_append]
      rfl
    · rw [happend]
      show read crates key (h.file ++ more) = (h.held ++ ((read crates key (h.file ++ more)).drop
        h.held.length).map (·, false)).map Prod.fst
      obtain ⟨late, hlate⟩ := read_prefix crates key h.file more
      have hlength : h.held.length = (h.held.map Prod.fst).length := List.length_map _ |>.symm
      have hunmarked : late.map (Prod.fst ∘ (·, false)) = late := List.map_id late
      rw [← hlate, hread, hlength, List.drop_left, List.map_append, List.map_map, hunmarked]
  | trim nonces fault =>
    rw [Event.step]
    rcases trim_cases nonces fault h.file with ⟨result, htrim⟩ | ⟨result, bytes, htrim, hkept⟩
    · rw [htrim]
      exact hread
    · rw [htrim]
      dsimp only
      rw [Lossless, hkept, hread, List.map_drop, List.length_map]
  | clear => rfl

/-! ## Any run -/

/-- The records whose append succeeded, but for those that trimming let go. -/
def History.acknowledged (h : History Record) : List Record :=
  (h.held.filter Prod.snd).map Prod.fst

theorem Lossless.acknowledged {h : History Record} (hread : Lossless crates key h) :
    h.acknowledged.Sublist (read crates key h.file) := by
  rw [hread]
  exact List.filter_sublist.map _

/-- **The history loses no record that was acknowledged**, in any run in which none is acknowledged
behind bytes that are left over: they all read back, in their order, with at most records in between
that a failed append left readable. -/
theorem lossless_run (crates : Crates Key Record) (key : Key) (es : List (Event Record))
    (h : Runs.Along (Event.step crates key) (Event.Behind crates key) es ⟨[], []⟩) :
    Runs.Throughout (Event.step crates key) (fun h ↦ Lossless crates key h ∧
      h.acknowledged.Sublist (read crates key h.file)) es ⟨[], []⟩ :=
  (h.throughout lossless_step rfl).mono fun _ hread ↦ ⟨hread, hread.acknowledged⟩

/-! ## A history of bytes -/

/-- A record is sealed between two marks. -/
def marked : Crates Unit UInt8 where
  cipher := ⟨fun key _ ↦ key, fun _ _ plaintext _ ↦ 0xA5 :: (plaintext ++ [0x5A]),
    fun _ sealed _ ↦ if sealed.head? = some 0xA5 ∧ sealed.getLast? = some 0x5A then
      some (sealed.drop 1).dropLast else none, by
        intro key nonce plaintext aad
        have hlast : (0xA5 :: (plaintext ++ [0x5A])).getLast? = some (0x5A : UInt8) := by
          rw [← List.cons_append, List.getLast?_concat]
        rw [if_pos ⟨rfl, hlast⟩, List.drop_one, List.tail_cons, List.dropLast_concat]⟩
  record := ⟨fun record ↦ some [record], fun bytes ↦ bytes.head?, by rintro x bytes ⟨⟩; rfl⟩

theorem lossless_run_marked :
    Runs.Throughout (Event.step marked ()) (fun h ↦ Lossless marked () h ∧
      h.acknowledged.Sublist (read marked () h.file))
      [.append 1 [] none, .append 2 [] (some 2), .clear, .append 3 [] none] ⟨[], []⟩ := by
  refine lossless_run marked () _ ⟨?_, trivial, trivial, ?_, trivial⟩
  · rfl
  · rfl

/-- A record is acknowledged behind two bytes of one whose append failed.  It does not read back, nor
does the next one. -/
theorem acknowledged_lost :
    let h := Runs.after (Event.step marked ())
      [.append 1 [] none, .append 2 [] (some 2), .append 3 [] none, .append 4 [] none] ⟨[], []⟩
    h.acknowledged = [1, 3, 4] ∧ read marked () h.file = [1] := by
  decide +kernel

end Audit

end Keyring

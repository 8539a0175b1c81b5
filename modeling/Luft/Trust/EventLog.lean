import Luft.Lib.Paired
import Luft.Lib.Reader

/-!
# The event log of the firmware

What the firmware measures it notes in a log: a header, the list of digest algorithms, and an event for each thing that
was measured.  `secure_boot_events` reads the events of the register for Secure Boot.  `Log` is what such a log is made
of, and `secure_boot_events_write` and `secure_boot_events_written` say that these are read as they should be and that
nothing else is read.
-/

set_option autoImplicit false

namespace Trust.EventLog

open Reader LittleEndian

abbrev Bytes := List UInt8

def SECURE_BOOT_PCR : ℕ := 7

def SHA256 : ℕ := 0x000b

def NO_ACTION : ℕ := 0x3

def VARIABLE_DRIVER_CONFIG : ℕ := 0x80000001

def LEGACY_HEADER : ℕ := 4 + 4 + 20

def SPEC_ID_HEADER : ℕ := 16 + 4 + 4

def VARIABLE_HEADER : ℕ := 16 + 8 + 8

abbrev Sha256Digest := { bytes : Bytes // bytes.length = 32 }

structure Event where
  kind : ℕ
  digest : Sha256Digest
  data : Bytes
deriving DecidableEq

/-! ## Reading -/

/-- `bytes.try_into().ok()`. -/
def exactly (bytes : Bytes) : Option Sha256Digest := if h : bytes.length = 32 then some ⟨bytes, h⟩ else none

def u16 : Reader ℕ := number 2

def u32 : Reader ℕ := number 4

def u64 : Reader ℕ := number 8

def sized : Reader Bytes := do take (← u32)

/-- One more algorithm and the size of its digests. -/
def takeAlgorithm (sizes : List (ℕ × ℕ)) : Reader (List (ℕ × ℕ)) := do
  let id ← u16
  let size ← u16
  pure (sizes ++ [(id, size)])

def digest_sizes (spec_id : Bytes) : Option (List (ℕ × ℕ)) :=
  let reader : Reader (List (ℕ × ℕ)) := do
    let _ ← take SPEC_ID_HEADER
    forCount takeAlgorithm (← u32) []
  (reader spec_id).map Prod.fst

/-- One more digest of an event. -/
def takeDigest (sizes : List (ℕ × ℕ)) (digest : Option Sha256Digest) : Reader (Option Sha256Digest) := do
  let algorithm ← u16
  let entry ← need (sizes.find? fun entry ↦ entry.1 = algorithm)
  let bytes ← take entry.2
  pure (if algorithm = SHA256 then exactly bytes else digest)

/-- One more event. -/
def takeEvent (sizes : List (ℕ × ℕ)) (events : List Event) : Reader (List Event) := do
  let pcr ← u32
  let kind ← u32
  let digest ← forCount (takeDigest sizes) (← u32) none
  let data ← sized
  if pcr = SECURE_BOOT_PCR ∧ kind ≠ NO_ACTION then do
    let digest ← need digest
    pure (events ++ [⟨kind, digest, data⟩])
  else pure events

def secure_boot_events (log : Bytes) : Option (List Event) :=
  let reader : Reader (List Event) := do
    let _ ← take LEGACY_HEADER
    let sizes ← need (digest_sizes (← sized))
    untilEmpty (takeEvent sizes) []
  (reader log).map Prod.fst

/-! ## What a log is made of -/

structure Algorithm where
  id : ℕ
  size : ℕ
  id_lt : id < 65536
  size_lt : size < 65536

def Algorithm.entry (algorithm : Algorithm) : ℕ × ℕ := (algorithm.id, algorithm.size)

def Algorithm.write (algorithm : Algorithm) : Bytes := le 2 algorithm.id ++ le 2 algorithm.size

/-- A digest of one of the algorithms, as long as those are. -/
structure Digest (sizes : List (ℕ × ℕ)) where
  algorithm : ℕ
  bytes : Bytes
  algorithm_lt : algorithm < 65536
  size_eq : (sizes.find? fun entry ↦ entry.1 = algorithm).map Prod.snd = some bytes.length

def Digest.write {sizes : List (ℕ × ℕ)} (digest : Digest sizes) : Bytes := le 2 digest.algorithm ++ digest.bytes

structure Measured (sizes : List (ℕ × ℕ)) where
  pcr : ℕ
  kind : ℕ
  digests : List (Digest sizes)
  data : Bytes
  pcr_lt : pcr < 4294967296
  kind_lt : kind < 4294967296
  count_lt : digests.length < 4294967296
  size_lt : data.length < 4294967296

namespace Measured

variable {sizes : List (ℕ × ℕ)} (measured : Measured sizes)

def write : Bytes :=
  le 4 measured.pcr ++ (le 4 measured.kind ++ (le 4 measured.digests.length ++
    (measured.digests.flatMap Digest.write ++ (le 4 measured.data.length ++ measured.data))))

/-- It extends the register for Secure Boot. -/
def extends? : Bool := measured.pcr = SECURE_BOOT_PCR && measured.kind ≠ NO_ACTION

/-- Its last digest of that algorithm. -/
def sha256? : Option Sha256Digest :=
  (measured.digests.filter fun digest ↦ digest.algorithm = SHA256).getLast?.bind fun digest ↦ exactly digest.bytes

def event? : Option Event := measured.sha256?.map fun digest ↦ ⟨measured.kind, digest, measured.data⟩

end Measured

structure Log where
  header : Bytes
  spec_header : Bytes
  algorithms : List Algorithm
  vendor : Bytes
  events : List (Measured (algorithms.map Algorithm.entry))
  header_length : header.length = LEGACY_HEADER
  spec_header_length : spec_header.length = SPEC_ID_HEADER
  count_lt : algorithms.length < 4294967296
  spec_lt : (spec_header ++ (le 4 algorithms.length ++ (algorithms.flatMap Algorithm.write ++ vendor))).length < 4294967296

namespace Log

variable (log : Log)

def spec_id : Bytes :=
  log.spec_header ++ (le 4 log.algorithms.length ++ (log.algorithms.flatMap Algorithm.write ++ log.vendor))

theorem spec_id_lt : log.spec_id.length < 4294967296 := log.spec_lt

def write : Bytes := log.header ++ (le 4 log.spec_id.length ++ (log.spec_id ++ log.events.flatMap Measured.write))

/-- The events that extend the register, in order. -/
def selected : Option (List Event) := (log.events.filter Measured.extends?).mapM Measured.event?

end Log

/-! ## One turn of each loop -/

theorem u16_append {n : ℕ} (h : n < 65536) (rest : Bytes) : u16 (le 2 n ++ rest) = some (n, rest) := number_append h rest

theorem u32_append {n : ℕ} (h : n < 4294967296) (rest : Bytes) : u32 (le 4 n ++ rest) = some (n, rest) :=
  number_append h rest

theorem u16_eq_some {data rest : Bytes} {n : ℕ} (h : u16 data = some (n, rest)) :
    n < 65536 ∧ data = le 2 n ++ rest := number_eq_some h

theorem u32_eq_some {data rest : Bytes} {n : ℕ} (h : u32 data = some (n, rest)) :
    n < 4294967296 ∧ data = le 4 n ++ rest := number_eq_some h

theorem sized_append {bytes : Bytes} (h : bytes.length < 4294967296) (rest : Bytes) :
    sized (le 4 bytes.length ++ (bytes ++ rest)) = some (bytes, rest) := by
  rw [sized, bind_eq (u32_append h _)]
  exact take_append rfl _

theorem sized_eq_some {data bytes rest : Bytes} (h : sized data = some (bytes, rest)) :
    bytes.length < 4294967296 ∧ data = le 4 bytes.length ++ (bytes ++ rest) := by
  obtain ⟨size, left, hsize, htake⟩ := bind_iff.1 h
  obtain ⟨hlt, rfl⟩ := u32_eq_some hsize
  obtain ⟨rfl, rfl⟩ := take_eq_some htake
  exact ⟨hlt, rfl⟩

theorem takeAlgorithm_turns : Turns takeAlgorithm Algorithm.write fun sizes algorithm ↦
    some (sizes ++ [algorithm.entry]) where
  read sizes algorithm rest := by
    rw [Algorithm.write, List.append_assoc, takeAlgorithm, bind_eq (u16_append algorithm.id_lt _),
      bind_eq (u16_append algorithm.size_lt _)]
    rfl
  written h := by
    obtain ⟨id, left, hid, h⟩ := bind_iff.1 h
    obtain ⟨size, left, hsize, h⟩ := bind_iff.1 h
    cases h
    obtain ⟨hlt, rfl⟩ := u16_eq_some hid
    obtain ⟨hlt', rfl⟩ := u16_eq_some hsize
    exact ⟨⟨id, size, hlt, hlt'⟩, (List.append_assoc _ _ _).symm⟩

section

variable (sizes : List (ℕ × ℕ))

/-- What a digest is for its event. -/
def nextDigest (digest : Option Sha256Digest) (next : Digest sizes) : Option (Option Sha256Digest) :=
  some (if next.algorithm = SHA256 then exactly next.bytes else digest)

theorem takeDigest_turns : Turns (takeDigest sizes) Digest.write (nextDigest sizes) where
  read digest next rest := by
    obtain ⟨entry, hentry, hsize⟩ := Option.map_eq_some_iff.1 next.size_eq
    rw [Digest.write, List.append_assoc, takeDigest, bind_eq (u16_append next.algorithm_lt _), hentry,
      bind_eq (need_some _ _), bind_eq (take_append hsize.symm _)]
    rfl
  written h := by
    obtain ⟨algorithm, left, halgorithm, h⟩ := bind_iff.1 h
    obtain ⟨entry, left, hentry, h⟩ := bind_iff.1 h
    obtain ⟨bytes, rest, hbytes, h⟩ := bind_iff.1 h
    cases h
    obtain ⟨hlt, rfl⟩ := u16_eq_some halgorithm
    obtain ⟨hfound, rfl⟩ := need_eq_some hentry
    obtain ⟨hsize, rfl⟩ := take_eq_some hbytes
    refine ⟨⟨algorithm, bytes, hlt, ?_⟩, (List.append_assoc _ _ _).symm⟩
    rw [hfound, Option.map_some, hsize]

theorem foldlM_nextDigest (digests : List (Digest sizes)) (digest : Option Sha256Digest) :
    digests.foldlM (nextDigest sizes) digest = some
      ((digests.filter fun next ↦ next.algorithm = SHA256).getLast?.elim digest fun next ↦ exactly next.bytes) := by
  induction digests generalizing digest with
  | nil => rfl
  | cons next digests ih =>
    rw [List.foldlM_cons, nextDigest, Option.bind_eq_bind, Option.bind_some, ih, List.filter_cons]
    by_cases halgorithm : next.algorithm = SHA256
    · rw [if_pos halgorithm, if_pos (decide_eq_true halgorithm), List.getLast?_cons]
      cases (digests.filter fun next ↦ next.algorithm = SHA256).getLast? <;> rfl
    · rw [if_neg halgorithm, if_neg (by rw [decide_eq_true_iff]; exact halgorithm)]

variable {sizes}

theorem forCount_digests (measured : Measured sizes) (rest : Bytes) :
    forCount (takeDigest sizes) measured.digests.length none (measured.digests.flatMap Digest.write ++ rest) =
      some (measured.sha256?, rest) := by
  rw [(takeDigest_turns sizes).forCount_write, foldlM_nextDigest, Measured.sha256?]
  cases (measured.digests.filter fun next ↦ next.algorithm = SHA256).getLast? <;> rfl

/-- What an event is for the result. -/
def nextEvent (events : List Event) (measured : Measured sizes) : Option (List Event) :=
  if measured.extends? then measured.event?.map fun event ↦ events ++ [event] else some events

variable (sizes)

theorem takeEvent_turns : Turns (takeEvent sizes) (Measured.write : Measured sizes → Bytes) nextEvent where
  read events measured rest := by
    rw [Measured.write]
    simp only [List.append_assoc]
    rw [takeEvent, bind_eq (u32_append measured.pcr_lt _), bind_eq (u32_append measured.kind_lt _),
      bind_eq (u32_append measured.count_lt _), bind_eq (forCount_digests measured _),
      bind_eq (sized_append measured.size_lt _), nextEvent, Measured.extends?, Measured.event?]
    by_cases hextends : measured.pcr = SECURE_BOOT_PCR ∧ measured.kind ≠ NO_ACTION
    · rw [if_pos hextends, if_pos (by simpa using hextends)]
      cases measured.sha256? <;> rfl
    · rw [if_neg hextends, if_neg (by simpa using hextends)]
      rfl
  written {events events' data rest} h := by
    obtain ⟨pcr, left, hpcr, h⟩ := bind_iff.1 h
    obtain ⟨kind, left, hkind, h⟩ := bind_iff.1 h
    obtain ⟨count, left, hcount, h⟩ := bind_iff.1 h
    obtain ⟨digest, left, hdigests, h⟩ := bind_iff.1 h
    obtain ⟨bytes, left, hbytes, h⟩ := bind_iff.1 h
    have hrest : rest = left := by
      split at h
      · obtain ⟨digest, left', hneed, hpure⟩ := bind_iff.1 h
        cases hpure
        exact (need_eq_some hneed).2
      · cases h
        rfl
    obtain ⟨hpcr_lt, rfl⟩ := u32_eq_some hpcr
    obtain ⟨hkind_lt, rfl⟩ := u32_eq_some hkind
    obtain ⟨hcount_lt, rfl⟩ := u32_eq_some hcount
    obtain ⟨digests, rfl, rfl⟩ := (takeDigest_turns sizes).forCount_written hdigests
    obtain ⟨hsize, rfl⟩ := sized_eq_some hbytes
    refine ⟨⟨pcr, kind, digests, bytes, hpcr_lt, hkind_lt, hcount_lt, hsize⟩, ?_⟩
    rw [hrest, Measured.write]
    simp only [List.append_assoc]

theorem write_pos (measured : Measured sizes) : 0 < measured.write.length := by
  rw [Measured.write, List.length_append, length_le]
  omega

variable {sizes}

theorem foldlM_nextEvent (measured : List (Measured sizes)) (events : List Event) :
    measured.foldlM nextEvent events =
      ((measured.filter Measured.extends?).mapM Measured.event?).map fun more ↦ events ++ more := by
  induction measured generalizing events with
  | nil =>
    rw [List.foldlM_nil, List.filter_nil, List.mapM_nil]
    exact congrArg some (List.append_nil _).symm
  | cons next measured ih =>
    rw [List.foldlM_cons, nextEvent, List.filter_cons]
    by_cases hextends : next.extends?
    · rw [if_pos hextends, if_pos hextends, List.mapM_cons]
      cases next.event? with
      | none => rfl
      | some event =>
        rw [Option.map_some, Option.bind_eq_bind, Option.bind_some, ih, Option.bind_eq_bind, Option.bind_some]
        cases (measured.filter Measured.extends?).mapM Measured.event? with
        | none => rfl
        | some more => exact congrArg some (List.append_assoc _ _ _)
    · rw [if_neg hextends, if_neg hextends, Option.bind_eq_bind, Option.bind_some, ih]

end

/-! ## Whole logs -/

theorem foldlM_algorithms (algorithms : List Algorithm) (sizes : List (ℕ × ℕ)) :
    algorithms.foldlM (fun sizes algorithm ↦ some (sizes ++ [algorithm.entry])) sizes =
      some (sizes ++ algorithms.map Algorithm.entry) := by
  induction algorithms generalizing sizes with
  | nil => exact congrArg some (List.append_nil _).symm
  | cons algorithm algorithms ih =>
    rw [List.foldlM_cons, Option.bind_eq_bind, Option.bind_some, ih, List.append_assoc]
    rfl

theorem digest_sizes_write (log : Log) : digest_sizes log.spec_id = some (log.algorithms.map Algorithm.entry) := by
  rw [digest_sizes, Log.spec_id, bind_eq (take_append log.spec_header_length _), bind_eq (u32_append log.count_lt _),
    takeAlgorithm_turns.forCount_write, foldlM_algorithms]
  rfl

/-- **A log is read** event by event. -/
theorem secure_boot_events_write (log : Log) : secure_boot_events log.write = log.selected := by
  rw [secure_boot_events, Log.write, bind_eq (take_append log.header_length _), bind_eq (sized_append log.spec_id_lt _), digest_sizes_write,
    bind_eq (need_some _ _), (takeEvent_turns _).untilEmpty_write (write_pos _), foldlM_nextEvent, Log.selected]
  cases (log.events.filter Measured.extends?).mapM Measured.event? <;> rfl

theorem digest_sizes_written {spec_id : Bytes} {sizes : List (ℕ × ℕ)} (h : digest_sizes spec_id = some sizes) :
    ∃ (spec_header : Bytes) (algorithms : List Algorithm) (vendor : Bytes), spec_header.length = SPEC_ID_HEADER ∧
      algorithms.length < 4294967296 ∧ sizes = algorithms.map Algorithm.entry ∧
      spec_id = spec_header ++ (le 4 algorithms.length ++ (algorithms.flatMap Algorithm.write ++ vendor)) := by
  obtain ⟨⟨sizes, vendor⟩, hread, rfl⟩ := Option.map_eq_some_iff.1 h
  obtain ⟨spec_header, left, hheader, h⟩ := bind_iff.1 hread
  obtain ⟨count, left, hcount, hloop⟩ := bind_iff.1 h
  obtain ⟨hlength, rfl⟩ := take_eq_some hheader
  obtain ⟨hlt, rfl⟩ := u32_eq_some hcount
  obtain ⟨algorithms, rfl, rfl⟩ := takeAlgorithm_turns.forCount_written hloop
  rw [takeAlgorithm_turns.forCount_write, foldlM_algorithms] at hloop
  cases hloop
  exact ⟨spec_header, algorithms, vendor, hlength, hlt, rfl, rfl⟩

/-- **Nothing else is read** than a log. -/
theorem secure_boot_events_written {bytes : Bytes} {events : List Event} (h : secure_boot_events bytes = some events) :
    ∃ log : Log, log.write = bytes := by
  obtain ⟨⟨events, rest⟩, hread, rfl⟩ := Option.map_eq_some_iff.1 h
  obtain ⟨header, left, hheader, h⟩ := bind_iff.1 hread
  obtain ⟨spec_id, left, hspec, h⟩ := bind_iff.1 h
  obtain ⟨sizes, left, hsizes, hloop⟩ := bind_iff.1 h
  obtain ⟨hlength, rfl⟩ := take_eq_some hheader
  obtain ⟨hlt, rfl⟩ := sized_eq_some hspec
  obtain ⟨hfound, rfl⟩ := need_eq_some hsizes
  obtain ⟨spec_header, algorithms, vendor, hspec_header, hcount, rfl, rfl⟩ := digest_sizes_written hfound
  obtain ⟨measured, rfl⟩ := (takeEvent_turns _).untilEmpty_written (write_pos _) hloop
  exact ⟨⟨header, spec_header, algorithms, vendor, measured, hlength, hspec_header, hcount, hlt⟩, rfl⟩

/-- What an event of the log is told as: its kind, its data and its last SHA-256 digest. -/
def Measured.Gives {sizes : List (ℕ × ℕ)} (measured : Measured sizes) (event : Event) : Prop :=
  event.kind = measured.kind ∧ event.data = measured.data ∧
    ∃ digest, (measured.digests.filter fun digest ↦ digest.algorithm = SHA256).getLast? = some digest ∧
      digest.bytes = event.digest.1

theorem exactly_iff (bytes : Bytes) (digest : Sha256Digest) : exactly bytes = some digest ↔ bytes = digest.1 := by
  rw [exactly]
  constructor
  · intro h
    obtain ⟨hlength, hdigest⟩ := Option.dite_none_right_eq_some.1 h
    rw [← Option.some.inj hdigest]
  · rintro rfl
    exact dif_pos digest.2

theorem Measured.event?_iff {sizes : List (ℕ × ℕ)} (measured : Measured sizes) (event : Event) :
    measured.event? = some event ↔ measured.Gives event := by
  rw [event?, sha256?, Option.map_eq_some_iff]
  constructor
  · rintro ⟨digest, hdigest, rfl⟩
    obtain ⟨found, hfound, hexactly⟩ := Option.bind_eq_some_iff.1 hdigest
    exact ⟨rfl, rfl, found, hfound, (exactly_iff _ _).1 hexactly⟩
  · rintro ⟨hkind, hdata, found, hfound, hbytes⟩
    refine ⟨event.digest, Option.bind_eq_some_iff.2 ⟨found, hfound, (exactly_iff _ _).2 hbytes⟩, ?_⟩
    rw [← hkind, ← hdata]

/-- **Exactly the logs are read**: the events that extend the register, in order, each with its digest and its data.
Of anything else, and of a log in which one of these events has no digest of 32 bytes, nothing is. -/
theorem secure_boot_events_iff (bytes : Bytes) (events : List Event) : secure_boot_events bytes = some events ↔
    ∃ log : Log, log.write = bytes ∧ List.Forall₂ Measured.Gives (log.events.filter Measured.extends?) events := by
  constructor
  · intro h
    obtain ⟨log, rfl⟩ := secure_boot_events_written h
    rw [secure_boot_events_write] at h
    exact ⟨log, rfl, (Paired.mapM_iff Measured.event?_iff).1 h⟩
  · rintro ⟨log, rfl, hevents⟩
    rw [secure_boot_events_write]
    exact (Paired.mapM_iff Measured.event?_iff).2 hevents

end Trust.EventLog

import Luft.AppImages.Elf
import Luft.Lib.Results
import Luft.Lib.Text

/-!
# Whether an update is the publisher's

An app that has a publisher's key is replaced only by a file that is signed with it.  The signature is in a section
of the new file, and so is its own key, which says nothing: what is signed is the hash of the file with both zeroed,
and the key is the one in the file that is installed.
-/

set_option autoImplicit false

namespace AppImages

def SIGNATURE : List Char := ".sha256_sig".toList

def KEY : List Char := ".sig_key".toList

/-- `-----BEGIN`. -/
def ARMOR : Bytes := Utf8.encode "-----BEGIN".toList

def VALID : List Char := "[GNUPG:] VALIDSIG ".toList

structure Signed where
  unsigned : List Range
  signature : Bytes
deriving DecidableEq, Repr

def key (contents : Bytes) : Option Bytes := do section_bytes contents (← sections contents) KEY

def range (sections : List Section) (name : List Char) : Option Range := do
  (← sections.find? fun found ↦ found.name = name).range

def signed (contents : Bytes) : Option Signed := do
  let sections ← sections contents
  pure
    { unsigned := [← range sections SIGNATURE, ← range sections KEY]
      signature := ← section_bytes contents sections SIGNATURE }

/-- What the rest of the system does for an update: the hashes, a private directory and what is written to it, what
`gpg` makes of an armored key, how `gpgv` ends and what it prints if it runs, and what the file is read as. -/
structure System (Bundle : Type) where
  hashes : Hashes
  private_new : Except String Unit
  dearmor : Bytes → Option Bytes
  write : Bytes → Bytes → List Char → Except String Unit
  gpgv : Bytes → Bytes → List Char → Option (Bool × Bytes)
  set_permissions : Except String Unit
  bundle : Bytes → Except String Bundle

section Verifying

variable {Bundle : Type} (system : System Bundle)

def unverifiable : String := "The update's signature couldn't be checked."

def ok_or {α : Type} (o : Option α) (e : String) : Except String α :=
  match o with
  | some a => .ok a
  | none => .error e

def dearmored (key : Bytes) : Except String Bytes :=
  if ¬ARMOR <+: key then .ok key else ok_or (system.dearmor key) unverifiable

def verify (key : Bytes) (signed : Signed) (digest : List Char) : Except String Unit := do
  system.private_new
  let keyring ← dearmored system key
  system.write keyring signed.signature digest
  let output ← ok_or (system.gpgv keyring signed.signature digest) unverifiable
  let valid := output.1 && (Text.lines (Utf8.lossy output.2)).any fun line ↦ VALID <+: line
  ok_or (if valid then some () else none) "The update isn't signed by this app's publisher."

structure Available where
  url : List Char
  expected : Expected

/-- The signature, for an app with a key. -/
def signedFor (key : Option Bytes) (contents : Bytes) : Except String (Option Signed) :=
  match key with
  | none => .ok none
  | some _ => (ok_or (signed contents) "The update isn't signed by this app's publisher.").map some

def verifyFor (key : Option Bytes) (signed : Option Signed) (digest : Option (List Char)) : Except String Unit :=
  match key, signed, digest with
  | some key, some signed, some digest => verify system key signed digest
  | _, _, _ => .ok ()

def verified (staging : File) (available : Available) (key : Option Bytes) : Except String Bundle := do
  let signed ← signedFor key staging.contents
  let checked ← check system.hashes staging available.expected (signed.map (·.unsigned))
  ok_or (if checked.«matches» then some () else none) "The download was damaged. Try again."
  verifyFor system key signed checked.signed
  system.set_permissions
  system.bundle staging.contents

/-- From the app that is installed to the one that replaces it. -/
def apply {AppImage : Type} (app : File) (check : Except String (Option Available))
    (download : List Char → Except String File) (install : File → Bundle → Except String AppImage) :
    Except String AppImage := do
  let available ← ok_or (← check) "This app is already up to date."
  let key := key app.contents
  let staging ← download available.url
  let bundle ← verified system staging available key
  install staging bundle

/-! ## What is accepted -/

/-- A key accepts a signature of a digest: `gpgv` ends well and says so. -/
def Accepts (key signature : Bytes) (digest : List Char) : Prop :=
  ∃ keyring stdout, dearmored system key = .ok keyring ∧
    system.gpgv keyring signature digest = some (true, stdout) ∧
    ∃ line ∈ Text.lines (Utf8.lossy stdout), VALID <+: line

/-- The digest that is signed, of a file whose sections of the signature and of the key are these. -/
def signedDigest (contents : Bytes) (found own : Section) : List Char :=
  hex (system.hashes.sha256
    (zeroed [⟨found.offset, found.offset + found.size⟩, ⟨own.offset, own.offset + own.size⟩] 0 contents))

variable {system} {key : Bytes} {digest : List Char}

theorem ok_or_eq_ok {α : Type} {o : Option α} {e : String} {a : α} (h : ok_or o e = .ok a) : o = some a := by
  cases o with
  | none => cases h
  | some b => rw [Except.ok.inj h]

theorem ok_or_ite {p : Bool} {e : String} (h : ok_or (if p then some () else none) e = .ok ()) : p = true := by
  cases p with
  | false => cases h
  | true => rfl

theorem verify_eq_ok {signed : Signed} (h : verify system key signed digest = .ok ()) :
    Accepts system key signed.signature digest := by
  rw [verify] at h
  obtain ⟨-, -, h⟩ := Results.bind_eq_ok h
  obtain ⟨keyring, hkeyring, h⟩ := Results.bind_eq_ok h
  obtain ⟨-, -, h⟩ := Results.bind_eq_ok h
  obtain ⟨⟨success, stdout⟩, hrun, h⟩ := Results.bind_eq_ok h
  obtain ⟨hsuccess, hlines⟩ := Bool.and_eq_true_iff.1 (ok_or_ite h)
  obtain ⟨line, hline, hvalid⟩ := List.any_eq_true.1 hlines
  have hgpgv := ok_or_eq_ok hrun
  rw [show success = true from hsuccess] at hgpgv
  exact ⟨keyring, stdout, hkeyring, hgpgv, line, hline, of_decide_eq_true hvalid⟩

theorem range_eq_some {all : List Section} {name : List Char} {r : Range} (h : range all name = some r) :
    ∃ found, all.find? (fun candidate ↦ candidate.name = name) = some found ∧
      r = ⟨found.offset, found.offset + found.size⟩ := by
  obtain ⟨found, hfound, h⟩ := Option.bind_eq_some_iff.1 h
  refine ⟨found, hfound, ?_⟩
  obtain ⟨stop, hstop, rfl⟩ := Option.map_eq_some_iff.1 h
  rw [Checked.add] at hstop
  split at hstop
  · rw [Option.some.inj hstop]
  · cases hstop

/-- The ranges that are zeroed are those of the first sections of the two names, and the signature is what the first
of them holds. -/
theorem signed_eq_some {contents : Bytes} {signed : Signed} (h : AppImages.signed contents = some signed) :
    ∃ found own, Names contents SIGNATURE found ∧ Names contents KEY own ∧
      signed.unsigned = [⟨found.offset, found.offset + found.size⟩, ⟨own.offset, own.offset + own.size⟩] ∧
      found.Holds contents signed.signature := by
  obtain ⟨all, hall, h⟩ := Option.bind_eq_some_iff.1 h
  obtain ⟨r, hr, h⟩ := Option.bind_eq_some_iff.1 h
  obtain ⟨r', hr', h⟩ := Option.bind_eq_some_iff.1 h
  obtain ⟨signature, hsignature, h⟩ := Option.bind_eq_some_iff.1 h
  cases h
  obtain ⟨found, hfound, rfl⟩ := range_eq_some hr
  obtain ⟨own, hown, rfl⟩ := range_eq_some hr'
  obtain ⟨found', hfound', hholds⟩ := section_bytes_eq_some hsignature
  cases hfound.symm.trans hfound'
  exact ⟨found, own, ⟨all, hall, hfound⟩, ⟨all, hall, hown⟩, rfl, hholds⟩

/-- What a file went through that is accepted for an app with a key. -/
theorem verified_eq_ok {staging : File} {available : Available} {bundle : Bundle}
    (h : verified system staging available (some key) = .ok bundle) :
    available.expected.Fits system.hashes staging.contents ∧
      ∃ found own signature, Names staging.contents SIGNATURE found ∧ Names staging.contents KEY own ∧
        found.Holds staging.contents signature ∧
        Accepts system key signature (signedDigest system staging.contents found own) := by
  rw [verified] at h
  obtain ⟨signed?, hsigned, h⟩ := Results.bind_eq_ok h
  obtain ⟨checked, hchecked, h⟩ := Results.bind_eq_ok h
  obtain ⟨⟨⟩, hmatches, h⟩ := Results.bind_eq_ok h
  obtain ⟨⟨⟩, hverify, -⟩ := Results.bind_eq_ok h
  obtain ⟨signed, hfound, rfl⟩ :
      ∃ signed, AppImages.signed staging.contents = some signed ∧ signed? = some signed := by
    cases hfound : AppImages.signed staging.contents with
    | none => rw [signedFor, hfound] at hsigned; cases hsigned
    | some signed => rw [signedFor, hfound] at hsigned; cases hsigned; exact ⟨signed, rfl, rfl⟩
  obtain ⟨found, own, hnames, hnames', hunsigned, hholds⟩ := signed_eq_some hfound
  rw [check_eq] at hchecked
  split at hchecked
  · cases hchecked
  cases hchecked
  refine ⟨of_decide_eq_true (ok_or_ite hmatches), found, own, signed.signature, hnames, hnames', hholds, ?_⟩
  rw [signedDigest, ← hunsigned]
  exact verify_eq_ok hverify

theorem verify_eq_ok_of {signed : Signed} {keyring stdout : Bytes} (hprivate : system.private_new = .ok ())
    (hkeyring : dearmored system key = .ok keyring) (hwrite : system.write keyring signed.signature digest = .ok ())
    (hgpgv : system.gpgv keyring signed.signature digest = some (true, stdout))
    (hvalid : (Text.lines (Utf8.lossy stdout)).any (fun line ↦ VALID <+: line) = true) :
    verify system key signed digest = .ok () := by
  rw [verify, hprivate, hkeyring]
  change (system.write keyring signed.signature digest >>= _) = _
  rw [hwrite]
  change (ok_or (system.gpgv keyring signed.signature digest) _ >>= _) = _
  rw [hgpgv]
  change ok_or (if true && _ then _ else _) _ = _
  rw [hvalid]
  rfl

/-- What is as it should be replaces the app. -/
theorem apply_eq_ok {AppImage : Type} {app staging : File} {looked : Except String (Option Available)}
    {download : List Char → Except String File} {install : File → Bundle → Except String AppImage}
    {result : AppImage} {available : Available} {signed : Signed} {bundle : Bundle}
    (hkey : AppImages.key app.contents = some key)
    (hlooked : looked = .ok (some available)) (hdownload : download available.url = .ok staging)
    (hsigned : AppImages.signed staging.contents = some signed) (hfailure : staging.failure = none)
    (hfits : available.expected.Fits system.hashes staging.contents)
    (hverify : verify system key signed
      (hex (system.hashes.sha256 (zeroed signed.unsigned 0 staging.contents))) = .ok ())
    (hpermissions : system.set_permissions = .ok ()) (hbundle : system.bundle staging.contents = .ok bundle)
    (hinstall : install staging bundle = .ok result) :
    apply system app looked download install = .ok result := by
  have hverified : verified system staging available (some key) = .ok bundle := by
    rw [verified, signedFor, hsigned]
    change (check system.hashes staging available.expected (some signed.unsigned) >>= _) = _
    rw [check_eq, hfailure]
    change (ok_or (if decide (available.expected.Fits system.hashes staging.contents) then _ else _) _ >>= _) = _
    rw [decide_eq_true hfits]
    change (verify system key signed _ >>= _) = _
    rw [hverify]
    change (system.set_permissions >>= _) = _
    rw [hpermissions]
    exact hbundle
  rw [apply, hlooked, hkey]
  change (download available.url >>= _) = _
  rw [hdownload]
  change (verified system staging available (some key) >>= _) = _
  rw [hverified]
  exact hinstall

end Verifying

/-- **An update is checked over the right bytes.**  However its reads are cut, the hash is that of the file and what
is signed is the hash of the file with exactly what is inside some range zeroed.  A file that replaces an app with a
key has a signature that this key accepts, in the section that was zeroed for it: the signature's bytes are that
section's, up to a megabyte and without the zeros at its end. -/
theorem updates_checked :
    (∀ (hashes : Hashes) (file : File) (expected : Expected) (unsigned : Option (List Range)),
      check hashes file expected unsigned =
        match file.failure with
        | some e => .error e
        | none => .ok
            { «matches» := expected.Fits hashes file.contents
              signed := unsigned.map fun ranges ↦ hex (hashes.sha256 (zeroed ranges 0 file.contents)) }) ∧
    ∀ {Bundle AppImage : Type} (system : System Bundle) (app : File) (looked : Except String (Option Available))
      (download : List Char → Except String File) (install : File → Bundle → Except String AppImage)
      (result : AppImage) (installed : Bytes), key app.contents = some installed →
      apply system app looked download install = .ok result →
      ∃ available staging bundle, looked = .ok (some available) ∧ download available.url = .ok staging ∧
        install staging bundle = .ok result ∧ available.expected.Fits system.hashes staging.contents ∧
        ∃ found own signature, Names staging.contents SIGNATURE found ∧ Names staging.contents KEY own ∧
          Accepts system installed signature (signedDigest system staging.contents found own) ∧
          found.Holds staging.contents signature ∧
          (signature.length = found.size ↔ found.size ≤ MAX_SECTION_BYTES ∧
            staging.contents[found.offset + (found.size - 1)]? ≠ some 0) := by
  refine ⟨check_eq, fun {Bundle AppImage} system app looked download install result installed hkey h ↦ ?_⟩
  rw [apply] at h
  obtain ⟨available?, hlooked, h⟩ := Results.bind_eq_ok h
  obtain ⟨available, havailable, h⟩ := Results.bind_eq_ok h
  obtain ⟨staging, hdownload, h⟩ := Results.bind_eq_ok h
  obtain ⟨bundle, hverified, hinstall⟩ := Results.bind_eq_ok h
  rw [hkey] at hverified
  obtain ⟨hfits, found, own, signature, hfound, hown, hholds, haccepts⟩ := verified_eq_ok hverified
  refine ⟨available, staging, bundle, ?_, hdownload, hinstall, hfits, found, own, signature, hfound, hown, haccepts,
    hholds, hholds.length_eq_iff⟩
  rw [hlooked, ok_or_eq_ok havailable]

/-! ## A signature in a section that is longer -/

/-- The publisher's key, as `gpg` exports it. -/
def publishersKey : Bytes :=
  [152, 51, 4, 106, 255, 143, 240, 22, 9, 43, 6, 1, 4, 1, 218, 71, 15, 1, 1, 7, 64, 64, 59, 126, 185, 4, 57, 51,
   207, 127, 14, 147, 165, 218, 111, 165, 35, 164, 9, 255, 108, 47, 52, 181, 50, 217, 128, 231, 163, 234, 246,
   52, 217, 180, 1, 97, 136, 147, 4, 19, 22, 10, 0, 59, 22, 33, 4, 155, 214, 71, 7, 238, 186, 85, 240, 168, 243,
   123, 145, 91, 81, 228, 37, 172, 197, 61, 239, 5, 2, 106, 255, 143, 240, 2, 27, 3, 5, 11, 9, 8, 7, 2, 2, 34,
   2, 6, 21, 10, 9, 8, 11, 2, 4, 22, 2, 3, 1, 2, 30, 7, 2, 23, 128, 0, 10, 9, 16, 91, 81, 228, 37, 172, 197, 61,
   239, 243, 226, 1, 0, 213, 30, 66, 98, 221, 129, 135, 223, 114, 188, 237, 248, 33, 223, 25, 91, 31, 66, 197,
   58, 14, 88, 55, 156, 231, 242, 100, 18, 178, 45, 154, 222, 1, 0, 224, 217, 29, 167, 55, 148, 157, 255, 54,
   34, 106, 253, 215, 135, 7, 240, 199, 220, 212, 47, 17, 87, 57, 56, 126, 194, 103, 47, 71, 66, 106, 11]

/-- What `gpg --detach-sign` makes of the digest of the file below. -/
def publishersSignature : Bytes :=
  [136, 117, 4, 0, 22, 10, 0, 29, 22, 33, 4, 155, 214, 71, 7, 238, 186, 85, 240, 168, 243, 123, 145, 91, 81,
   228, 37, 172, 197, 61, 239, 5, 2, 106, 255, 143, 240, 0, 10, 9, 16, 91, 81, 228, 37, 172, 197, 61, 239, 187,
   216, 0, 255, 76, 121, 156, 122, 13, 137, 194, 176, 43, 200, 169, 207, 55, 34, 47, 132, 31, 222, 90, 194, 49,
   140, 166, 48, 146, 37, 188, 24, 171, 119, 16, 96, 0, 255, 90, 202, 237, 80, 193, 131, 7, 91, 199, 168, 234,
   0, 32, 53, 20, 135, 190, 57, 193, 213, 200, 227, 25, 149, 61, 105, 211, 132, 149, 167, 178, 9]

/-- An app image of 32 bits without an image: the header, the table of its three sections and the sections, of which
the signature's has eight bytes more than it needs. -/
def published : Bytes :=
  [0x7f, 0x45, 0x4c, 0x46, 1, 1, 0, 0, 0x41, 0x49, 2] ++ List.replicate 21 0 ++ [64, 0, 0, 0] ++
    List.replicate 10 0 ++ [40, 0, 3, 0, 2, 0] ++ List.replicate 12 0 ++
    ([0, 0, 0, 0] ++ List.replicate 12 0 ++ [205, 0, 0, 0, 127, 0, 0, 0] ++ List.replicate 16 0) ++
    ([12, 0, 0, 0] ++ List.replicate 12 0 ++ [76, 1, 0, 0, 205, 0, 0, 0] ++ List.replicate 16 0) ++
    ([11, 0, 0, 0] ++ List.replicate 12 0 ++ [184, 0, 0, 0, 21, 0, 0, 0] ++ List.replicate 16 0) ++
    [46, 115, 104, 97, 50, 53, 54, 95, 115, 105, 103, 0, 46, 115, 105, 103, 95, 107, 101, 121, 0] ++
    publishersSignature ++ List.replicate 8 0 ++ publishersKey

/-- The hash of that file, and the hash of it without the signature and the key. -/
def publishedHash : Bytes :=
  [12, 40, 116, 217, 63, 152, 61, 170, 117, 1, 198, 249, 183, 213, 198, 65, 205, 46, 106, 136, 105, 72, 14, 64,
   30, 76, 175, 8, 255, 63, 45, 146]

def signedHash : Bytes :=
  [253, 160, 192, 89, 155, 97, 203, 50, 74, 93, 225, 188, 227, 14, 27, 30, 59, 180, 147, 105, 189, 109, 99, 251,
   38, 120, 78, 238, 70, 110, 210, 223]

/-- What `gpgv` prints about the signature. -/
def status : List (List Char) :=
  ["[GNUPG:] NEWSIG".toList, "[GNUPG:] KEY_CONSIDERED 9BD64707EEBA55F0A8F37B915B51E425ACC53DEF 0".toList,
    "[GNUPG:] SIG_ID gbqzS7vjvUoh4P67jH/YDrqOC5U 2026-11-20 1795133424".toList,
    "[GNUPG:] GOODSIG 5B51E425ACC53DEF a".toList,
    VALID ++ ("9BD64707EEBA55F0A8F37B915B51E425ACC53DEF 2026-11-20 1795133424 0 4 0 22 10 00 ".toList ++
      "9BD64707EEBA55F0A8F37B915B51E425ACC53DEF".toList)]

def sha256 (bytes : Bytes) : Bytes := if bytes = published then publishedHash else signedHash

def gpgv (keyring signature : Bytes) (digest : List Char) : Option (Bool × Bytes) :=
  some (keyring = publishersKey ∧ signature = publishersSignature ∧ digest = hex signedHash,
    Utf8.encode (status.flatMap (· ++ ['\n'])))

/-- A system that has nothing to do but this. -/
def host : System Unit where
  hashes :=
    { sha1 := fun _ ↦ [66, 170, 145, 162, 10, 9, 208, 97, 216, 87, 11, 144, 196, 174, 218, 38, 0, 48, 31, 7]
      sha256 }
  private_new := .ok ()
  dearmor _ := none
  write _ _ _ := .ok ()
  gpgv
  set_permissions := .ok ()
  bundle _ := .ok ()

def publishedFile : File where
  contents := published
  chunks := [published]
  failure := none
  chunks_ne := by
    intro chunk hchunk
    rw [List.mem_singleton.1 hchunk]
    exact List.ne_nil_of_length_pos (by decide +kernel)
  whole _ := List.flatten_singleton

/-- The file is what the download should be. -/
def offered : Available := ⟨"https://example.org/app".toList, .sha256 (hex publishedHash)⟩

theorem key_published : key published = some publishersKey := by decide +kernel

theorem signed_published : signed published = some ⟨[⟨205, 332⟩, ⟨332, 537⟩], publishersSignature⟩ := by
  decide +kernel

theorem zeroed_published : zeroed [⟨205, 332⟩, ⟨332, 537⟩] 0 published ≠ published := by
  intro h
  have hget := getElem?_zeroed [⟨205, 332⟩, ⟨332, 537⟩] 0 published 205
  have hfirst : published[205]? = some 136 := by decide +kernel
  rw [h, hfirst, Option.map_some, if_pos ⟨⟨205, 332⟩, List.mem_cons_self, by decide⟩] at hget
  cases hget

/-- A line of which no part ends a line. -/
def unbroken (line : List Char) : Bool := line.all fun c ↦ c ≠ '\n' && c ≠ '\r'

theorem unbroken_append {line more : List Char} (h : unbroken line) (h' : unbroken more) :
    unbroken (line ++ more) := by
  rw [unbroken, List.all_append, Bool.and_eq_true]
  exact ⟨h, h'⟩

set_option maxRecDepth 4000 in
theorem unbroken_status : ∀ line ∈ status, unbroken line := by
  have hid : unbroken "9BD64707EEBA55F0A8F37B915B51E425ACC53DEF".toList := by
    rw [String.toList_ofList]
    decide +kernel
  have hvalid : unbroken "[GNUPG:] VALIDSIG ".toList := by
    rw [String.toList_ofList]
    decide +kernel
  refine List.forall_mem_cons.2 ⟨?_, List.forall_mem_cons.2 ⟨?_, List.forall_mem_cons.2 ⟨?_,
    List.forall_mem_cons.2 ⟨?_, List.forall_mem_singleton.2 (unbroken_append hvalid (unbroken_append ?_ hid))⟩⟩⟩⟩
  · rw [String.toList_ofList]
    decide +kernel
  · rw [String.toList_ofList]
    decide +kernel
  · rw [String.toList_ofList]
    decide +kernel
  · rw [String.toList_ofList]
    decide +kernel
  · rw [String.toList_ofList]
    decide +kernel

theorem valid_status : (Text.lines (Utf8.lossy (Utf8.encode (status.flatMap (· ++ ['\n']))))).any
    (fun line ↦ VALID <+: line) = true := by
  rw [Utf8.lossy_encode, Text.lines_flatMap]
  · refine List.any_eq_true.2 ⟨_, List.mem_of_getLast? rfl, decide_eq_true (List.prefix_append VALID _)⟩
  · intro line hline
    have h := List.all_eq_true.1 (unbroken_status line hline)
    constructor
    · intro hmem
      have := h _ hmem
      simp at this
    · intro hmem
      have := h _ hmem
      simp at this

theorem sha256_published : sha256 published = publishedHash := if_pos rfl

theorem sha256_other {bytes : Bytes} (h : bytes ≠ published) : sha256 bytes = signedHash := if_neg h

theorem gpgv_published : gpgv publishersKey publishersSignature (hex signedHash) =
    some (true, Utf8.encode (status.flatMap (· ++ ['\n']))) := by
  rw [gpgv, decide_eq_true ⟨rfl, rfl, rfl⟩]

/-- An app that has the key is replaced by the file. -/
theorem apply_published :
    apply host publishedFile (.ok (some offered)) (fun _ ↦ .ok publishedFile) (fun _ _ ↦ .ok ()) = .ok () := by
  have hhash : host.hashes.sha256 = sha256 := rfl
  have hcontents : publishedFile.contents = published := rfl
  have hfits : offered.expected.Fits host.hashes publishedFile.contents := by
    change hex (host.hashes.sha256 publishedFile.contents) = hex publishedHash
    rw [hhash, hcontents, sha256_published]
  have hverify : verify host publishersKey ⟨[⟨205, 332⟩, ⟨332, 537⟩], publishersSignature⟩
      (hex (host.hashes.sha256 (zeroed [⟨205, 332⟩, ⟨332, 537⟩] 0 publishedFile.contents))) = .ok () := by
    rw [hhash, hcontents, sha256_other zeroed_published]
    exact verify_eq_ok_of rfl (if_pos (by decide +kernel)) rfl gpgv_published valid_status
  exact apply_eq_ok key_published rfl rfl signed_published rfl hfits hverify rfl rfl rfl

/-- The signature has eight bytes less than what was zeroed for it. -/
theorem signature_shorter :
    apply host publishedFile (.ok (some offered)) (fun _ ↦ .ok publishedFile) (fun _ _ ↦ .ok ()) = .ok () ∧
      ∃ installed signed range, key publishedFile.contents = some installed ∧
        AppImages.signed publishedFile.contents = some signed ∧ signed.unsigned.head? = some range ∧
        signed.signature.length = 119 ∧ range.stop - range.start = 127 :=
  ⟨apply_published, publishersKey, _, _, key_published, signed_published, rfl, by decide +kernel, rfl⟩

/-- The app is replaced by a file that its key has signed. -/
theorem updates_checked_published : ∃ found own signature,
    Names published SIGNATURE found ∧ Names published KEY own ∧
    Accepts host publishersKey signature (signedDigest host published found own) ∧
    found.Holds published signature := by
  obtain ⟨available, staging, bundle, hlooked, hdownload, -, -, found, own, signature, hfound, hown, haccepts,
    hholds, -⟩ := updates_checked.2 host publishedFile (.ok (some offered)) (fun _ ↦ .ok publishedFile)
      (fun _ _ ↦ .ok ()) () publishersKey key_published apply_published
  cases hdownload
  exact ⟨found, own, signature, hfound, hown, haccepts, hholds⟩

end AppImages

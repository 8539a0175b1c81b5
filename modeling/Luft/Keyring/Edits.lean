import Luft.Keyring.File
import Luft.Lib.Runs

/-!
# Edits of the keyring

The daemon holds the keyring in memory and saves it after each edit.  `edit` changes the contents
where they are and then saves them; `editHeader` changes a copy of the header, saves that, and keeps
it only if it was saved.

So an edit that fails leaves its change in memory (`edit_atomic_iff`), and the next one that is saved
takes it to disk.  The other way is safe unless saving fails after the file was replaced, when the
folder could not be synced: then it is the disk that is ahead (`editHeader_atomic_iff`).  A run whose
steps avoid both keeps memory and disk the same throughout (`synced_throughout`).
-/

set_option autoImplicit false

namespace Keyring

namespace File

/-- The keyring's file, and the keyring as the daemon holds it. -/
structure Held (Key Header Contents : Type) where
  disk : Option Bytes
  header : Option Header
  unlocked : Option (Key × Contents)
deriving DecidableEq

namespace Held

variable {Key Header Contents : Type} (crates : Crates Key Header Contents)

def install (key : Key) (k : Held Key Header Contents) :
    Except Error Unit × Held Key Header Contents :=
  match reading crates k.disk key with
  | .error e => (.error e, k)
  | .ok (header, contents) => (.ok (), { k with header, unlocked := some (key, contents) })

def create (key : Key) (header : Header) (contents : Contents) (nonce : Bytes)
    (fault : Option Fault) (k : Held Key Header Contents) :
    Except Error Unit × Held Key Header Contents :=
  match save crates header key contents nonce fault k.disk with
  | (.error e, disk) => (.error e, { k with disk })
  | (.ok (), disk) => (.ok (), { disk, header, unlocked := some (key, contents) })

def lock (k : Held Key Header Contents) : Held Key Header Contents := { k with unlocked := none }

def edit {T : Type} (change : Contents → T × Contents) (nonce : Bytes) (fault : Option Fault)
    (k : Held Key Header Contents) : Except Error T × Held Key Header Contents :=
  match k.unlocked with
  | none => (.error .wrongKey, k)
  | some (key, contents) =>
    let (result, contents) := change contents
    let k := { k with unlocked := some (key, contents) }
    match k.header with
    | none => (.error (.corrupt "the keyring has no header"), k)
    | some header =>
      match save crates header key contents nonce fault k.disk with
      | (.error e, disk) => (.error e, { k with disk })
      | (.ok (), disk) => (.ok result, { k with disk })

def editHeader [Inhabited Header] (change : Header → Header) (nonce : Bytes)
    (fault : Option Fault) (k : Held Key Header Contents) :
    Except Error Unit × Held Key Header Contents :=
  match k.unlocked with
  | none => (.error .wrongKey, k)
  | some (key, contents) =>
    let header := change (k.header.getD default)
    match save crates header key contents nonce fault k.disk with
    | (.error e, disk) => (.error e, { k with disk })
    | (.ok (), disk) => (.ok (), { k with disk, header })

/-! ## Memory and disk -/

/-- What is in memory is what is on disk. -/
def Synced (k : Held Key Header Contents) : Prop :=
  ∀ key contents, k.unlocked = some (key, contents) →
    ∃ header, k.header = some header ∧ reading crates k.disk key = .ok (header, contents)

/-- A keyring after a call that failed is as it was, in memory and on disk. -/
structure Atomic (before after : Held Key Header Contents) : Prop where
  unlocked : after.unlocked = before.unlocked
  header : after.header = before.header
  synced : Synced crates after

variable {crates} {k : Held Key Header Contents} {key : Key} {header : Header}
  {contents : Contents}

theorem synced_of (hunlocked : k.unlocked = some (key, contents)) (hheader : k.header = some header)
    (hreading : reading crates k.disk key = .ok (header, contents)) : Synced crates k := by
  rintro key' contents' h
  rw [hunlocked] at h
  cases h
  exact ⟨header, hheader, hreading⟩

theorem Synced.reading_eq (h : Synced crates k) (hunlocked : k.unlocked = some (key, contents))
    (hheader : k.header = some header) : reading crates k.disk key = .ok (header, contents) := by
  obtain ⟨header', hheader', hreading⟩ := h key contents hunlocked
  rw [hheader] at hheader'
  cases hheader'
  exact hreading

/-- **An edit that fails** leaves the keyring as it was only if the closure did. -/
theorem edit_atomic_iff {T : Type} (h : Synced crates k)
    (hunlocked : k.unlocked = some (key, contents)) (hheader : k.header = some header)
    (change : Contents → T × Contents) (nonce : Bytes) (fault : Option Fault) :
    (∀ e, (edit crates change nonce fault k).1 = .error e →
        Atomic crates k (edit crates change nonce fault k).2) ↔
      Encodes crates header (change contents).2 ∧ fault = none ∨ (change contents).2 = contents := by
  have hreading := h.reading_eq hunlocked hheader
  rw [edit]
  simp only [hunlocked, hheader]
  rcases save_cases header key (change contents).2 nonce fault k.disk with
    ⟨hreach, e, hsave⟩ | ⟨hreach, result, disk, hsave, hback, hok, herror⟩
  · rw [hsave]
    dsimp only
    constructor
    · intro hatomic
      have hsame := (hatomic e rfl).unlocked
      rw [hunlocked, Option.some_inj, Prod.mk_right_inj] at hsame
      exact .inr hsame
    · rintro (⟨hencodes, hnone⟩ | hsame) - -
      · exact absurd ⟨hencodes, .inl hnone⟩ hreach
      · rw [hsame]
        exact ⟨hunlocked.symm, hheader.symm, synced_of rfl rfl hreading⟩
  · rw [hsave]
    rcases hreach.2 with hnone | hsettling
    · rw [hok hnone]
      exact ⟨fun _ ↦ .inl ⟨hreach.1, hnone⟩, fun _ e h ↦ by cases h⟩
    · rw [herror hsettling]
      dsimp only
      constructor
      · intro hatomic
        have hsame := (hatomic _ rfl).unlocked
        rw [hunlocked, Option.some_inj, Prod.mk_right_inj] at hsame
        exact .inr hsame
      · rintro (⟨-, hnone⟩ | hsame) - -
        · rw [hsettling] at hnone
          cases hnone
        · rw [hsame] at hback ⊢
          exact ⟨hunlocked.symm, hheader.symm, synced_of rfl rfl hback⟩

/-- **A header edit that fails** leaves the keyring as it was, unless the file was replaced already
and the header is another. -/
theorem editHeader_atomic_iff [Inhabited Header] (h : Synced crates k)
    (hunlocked : k.unlocked = some (key, contents)) (hheader : k.header = some header)
    (change : Header → Header) (nonce : Bytes) (fault : Option Fault) :
    (∀ e, (editHeader crates change nonce fault k).1 = .error e →
        Atomic crates k (editHeader crates change nonce fault k).2) ↔
      ¬ (Encodes crates (change header) contents ∧ fault = some .settling) ∨
        change header = header := by
  have hreading := h.reading_eq hunlocked hheader
  rw [editHeader]
  simp only [hunlocked, hheader, Option.getD_some]
  rcases save_cases (change header) key contents nonce fault k.disk with
    ⟨hreach, e, hsave⟩ | ⟨hreach, result, disk, hsave, hback, hok, herror⟩
  · rw [hsave]
    dsimp only
    refine ⟨fun _ ↦ .inl ?_, fun _ _ _ ↦ ⟨hunlocked.symm, hheader.symm, ?_⟩⟩
    · rintro ⟨hencodes, hsettling⟩
      exact hreach ⟨hencodes, .inr hsettling⟩
    · exact synced_of rfl rfl hreading
  · rw [hsave]
    rcases hreach.2 with hnone | hsettling
    · rw [hok hnone]
      refine ⟨fun _ ↦ .inl ?_, fun _ e h ↦ by cases h⟩
      rintro ⟨-, hsettling⟩
      rw [hnone] at hsettling
      cases hsettling
    · rw [herror hsettling]
      dsimp only
      constructor
      · intro hatomic
        obtain ⟨header', hheader', hdisk⟩ := (hatomic _ rfl).synced key contents rfl
        cases hheader'
        rw [hback] at hdisk
        rw [Except.ok.injEq, Prod.mk.injEq] at hdisk
        exact .inr hdisk.1
      · rintro (hnot | hsame) - -
        · exact absurd ⟨hreach.1, hsettling⟩ hnot
        · rw [hsame] at hback
          exact ⟨hunlocked.symm, hheader.symm, synced_of rfl rfl hback⟩

/-! ## Any run -/

/-- What the daemon does to the keyring. -/
inductive Call (Key Header Contents : Type) where
  | install (key : Key)
  | create (key : Key) (header : Header) (contents : Contents) (nonce : Bytes)
    (fault : Option Fault)
  | lock
  | edit (change : Contents → Contents) (nonce : Bytes) (fault : Option Fault)
  | editHeader (change : Header → Header) (nonce : Bytes) (fault : Option Fault)

variable (crates) in
def Call.step [Inhabited Header] (call : Call Key Header Contents)
    (k : Held Key Header Contents) : Held Key Header Contents :=
  match call with
  | .install key => (k.install crates key).2
  | .create key header contents nonce fault => (k.create crates key header contents nonce fault).2
  | .lock => k.lock
  | .edit change nonce fault => (k.edit crates (fun contents ↦ ((), change contents)) nonce fault).2
  | .editHeader change nonce fault => (k.editHeader crates change nonce fault).2

variable (crates) in
/-- An edit is saved or changes nothing, a header edit is not saved halfway or changes nothing, and a
keyring is created while none is unlocked. -/
def Call.Safe (call : Call Key Header Contents) (k : Held Key Header Contents) : Prop :=
  match call with
  | .create .. => k.unlocked = none
  | .edit change _ fault => ∀ key contents header, k.unlocked = some (key, contents) →
      k.header = some header →
      Encodes crates header (change contents) ∧ fault = none ∨ change contents = contents
  | .editHeader change _ fault => ∀ key contents header, k.unlocked = some (key, contents) →
      k.header = some header →
      ¬ (Encodes crates (change header) contents ∧ fault = some .settling) ∨ change header = header
  | _ => True

theorem synced_install (h : Synced crates k) (key : Key) : Synced crates (k.install crates key).2 := by
  rw [install]
  cases hreading : reading crates k.disk key with
  | error e => exact h
  | ok found => exact synced_of rfl rfl hreading

theorem synced_create (h : k.unlocked = none) (key : Key) (header : Header) (contents : Contents)
    (nonce : Bytes) (fault : Option Fault) :
    Synced crates (k.create crates key header contents nonce fault).2 := by
  have hlocked (disk : Option Bytes) : Synced crates { k with disk } := by
    rintro key' contents' hunlocked
    rw [show ({ k with disk } : Held Key Header Contents).unlocked = k.unlocked from rfl, h]
      at hunlocked
    cases hunlocked
  rw [create]
  rcases save_cases header key contents nonce fault k.disk with
    ⟨-, e, hsave⟩ | ⟨hreach, result, disk, hsave, hback, hok, herror⟩
  · rw [hsave]
    exact hlocked _
  · rw [hsave]
    rcases hreach.2 with hnone | hsettling
    · rw [hok hnone]
      exact synced_of rfl rfl hback
    · rw [herror hsettling]
      exact hlocked _

/-- **An edit that succeeds** is on disk. -/
theorem synced_of_edit_ok {T : Type} {change : Contents → T × Contents} {nonce : Bytes}
    {fault : Option Fault} {result : T} (h : (k.edit crates change nonce fault).1 = .ok result) :
    Synced crates (k.edit crates change nonce fault).2 := by
  revert h
  rw [edit]
  cases k.unlocked with
  | none => rintro ⟨⟩
  | some found =>
    obtain ⟨key, contents⟩ := found
    cases k.header with
    | none => rintro ⟨⟩
    | some header =>
      dsimp only
      rcases save_cases header key (change contents).2 nonce fault k.disk with
        ⟨-, e, hsave⟩ | ⟨hreach, result, disk, hsave, hback, hok, herror⟩
      · rw [hsave]
        rintro ⟨⟩
      · rw [hsave]
        rcases hreach.2 with hnone | hsettling
        · rw [hok hnone]
          exact fun _ ↦ synced_of rfl rfl hback
        · rw [herror hsettling]
          rintro ⟨⟩

theorem synced_of_editHeader_ok [Inhabited Header] {change : Header → Header} {nonce : Bytes}
    {fault : Option Fault} (h : (k.editHeader crates change nonce fault).1 = .ok ()) :
    Synced crates (k.editHeader crates change nonce fault).2 := by
  revert h
  rw [editHeader]
  cases k.unlocked with
  | none => rintro ⟨⟩
  | some found =>
    obtain ⟨key, contents⟩ := found
    dsimp only
    rcases save_cases (change (k.header.getD default)) key contents nonce fault k.disk with
      ⟨-, e, hsave⟩ | ⟨hreach, result, disk, hsave, hback, hok, herror⟩
    · rw [hsave]
      rintro ⟨⟩
    · rw [hsave]
      rcases hreach.2 with hnone | hsettling
      · rw [hok hnone]
        exact fun _ ↦ synced_of rfl rfl hback
      · rw [herror hsettling]
        rintro ⟨⟩

theorem synced_edit {T : Type} (h : Synced crates k) (change : Contents → T × Contents)
    (nonce : Bytes) (fault : Option Fault)
    (hsafe : ∀ key contents header, k.unlocked = some (key, contents) → k.header = some header →
      Encodes crates header (change contents).2 ∧ fault = none ∨ (change contents).2 = contents) :
    Synced crates (k.edit crates change nonce fault).2 := by
  cases hunlocked : k.unlocked with
  | none =>
    rw [edit, hunlocked]
    exact h
  | some found =>
    obtain ⟨key, contents⟩ := found
    obtain ⟨header, hheader, -⟩ := h key contents hunlocked
    cases hresult : (k.edit crates change nonce fault).1 with
    | error e =>
      exact ((edit_atomic_iff h hunlocked hheader change nonce fault).2
        (hsafe key contents header hunlocked hheader) e hresult).synced
    | ok result => exact synced_of_edit_ok hresult

theorem synced_editHeader [Inhabited Header] (h : Synced crates k) (change : Header → Header)
    (nonce : Bytes) (fault : Option Fault)
    (hsafe : ∀ key contents header, k.unlocked = some (key, contents) → k.header = some header →
      ¬ (Encodes crates (change header) contents ∧ fault = some .settling) ∨
        change header = header) :
    Synced crates (k.editHeader crates change nonce fault).2 := by
  cases hunlocked : k.unlocked with
  | none =>
    rw [editHeader, hunlocked]
    exact h
  | some found =>
    obtain ⟨key, contents⟩ := found
    obtain ⟨header, hheader, -⟩ := h key contents hunlocked
    cases hresult : (k.editHeader crates change nonce fault).1 with
    | error e =>
      exact ((editHeader_atomic_iff h hunlocked hheader change nonce fault).2
        (hsafe key contents header hunlocked hheader) e hresult).synced
    | ok result => exact synced_of_editHeader_ok hresult

/-- **One call.** -/
theorem synced_step [Inhabited Header] (call : Call Key Header Contents)
    (k : Held Key Header Contents) (h : Synced crates k) (hsafe : call.Safe crates k) :
    Synced crates (call.step crates k) := by
  cases call with
  | install key => exact synced_install h key
  | create key header contents nonce fault => exact synced_create hsafe key header contents nonce fault
  | lock => rintro key contents ⟨⟩
  | edit change nonce fault => exact synced_edit h _ nonce fault hsafe
  | editHeader change nonce fault => exact synced_editHeader h change nonce fault hsafe

/-- **Edits of the keyring.**  When an edit of the contents, or of the header, that fails leaves
memory as it was and as the disk is; and every run whose calls are safe in that sense has the same in
memory and on disk throughout. -/
theorem edits_atomic_iff [Inhabited Header] (crates : Crates Key Header Contents) :
    (∀ (T : Type) (k : Held Key Header Contents) (key : Key) (contents : Contents) (header : Header)
      (change : Contents → T × Contents) (nonce : Bytes) (fault : Option Fault),
      Synced crates k → k.unlocked = some (key, contents) → k.header = some header →
      ((∀ e, (k.edit crates change nonce fault).1 = .error e →
          Atomic crates k (k.edit crates change nonce fault).2) ↔
        Encodes crates header (change contents).2 ∧ fault = none ∨
          (change contents).2 = contents)) ∧
    (∀ (k : Held Key Header Contents) (key : Key) (contents : Contents) (header : Header)
      (change : Header → Header) (nonce : Bytes) (fault : Option Fault),
      Synced crates k → k.unlocked = some (key, contents) → k.header = some header →
      ((∀ e, (k.editHeader crates change nonce fault).1 = .error e →
          Atomic crates k (k.editHeader crates change nonce fault).2) ↔
        ¬ (Encodes crates (change header) contents ∧ fault = some .settling) ∨
          change header = header)) ∧
    ∀ (calls : List (Call Key Header Contents)) (k : Held Key Header Contents), Synced crates k →
      Runs.Along (Call.step crates) (Call.Safe crates) calls k →
        Runs.Throughout (Call.step crates) (Synced crates) calls k :=
  ⟨fun _ _ _ _ _ change nonce fault h hunlocked hheader ↦
      edit_atomic_iff h hunlocked hheader change nonce fault,
    fun _ _ _ _ change nonce fault h hunlocked hheader ↦
      editHeader_atomic_iff h hunlocked hheader change nonce fault,
    fun _ _ h halong ↦ halong.throughout synced_step h⟩

/-! ## A keyring of bytes -/

/-- Crates that write plainly. -/
def plain : Crates Unit Unit Bytes where
  cipher := ⟨fun key _ ↦ key, fun _ _ plaintext _ ↦ plaintext, fun _ sealed _ ↦ some sealed,
    fun _ _ _ _ ↦ rfl⟩
  header := ⟨fun _ ↦ some [], fun _ ↦ some (), fun _ _ _ ↦ rfl⟩
  contents := ⟨some, some, fun _ _ h ↦ h.symm⟩

/-- One item, in memory and on disk. -/
def one : Held Unit Unit Bytes := (Held.create plain () () [1] [] none ⟨none, none, none⟩).2

theorem edits_atomic_one :
    Runs.Throughout (Call.step plain) (Synced plain)
      [.edit (2 :: ·) [] none, .edit id [] (some .writing), .editHeader id [] (some .settling)] one := by
  refine (edits_atomic_iff plain).2.2 _ one (synced_create rfl _ _ _ _ _) ⟨?_, ?_, ?_, trivial⟩
  · rintro key contents header - -
    exact .inl ⟨⟨⟨[], rfl, by decide⟩, rfl⟩, rfl⟩
  · exact fun _ _ _ _ _ ↦ .inr rfl
  · exact fun _ _ _ _ _ ↦ .inr rfl

/-- An item is added, and the disk is full.  The edit failed, but the item is in memory, and the next
edit takes it to disk. -/
theorem edit_not_atomic :
    let failed := one.edit plain (fun contents ↦ ((), 2 :: contents)) [] (some .writing)
    let next := failed.2.edit plain (fun contents ↦ ((), 3 :: contents)) [] none
    Synced plain one ∧ failed.1 = .error .io ∧ one.unlocked = some ((), [1]) ∧
      failed.2.unlocked = some ((), [2, 1]) ∧ reading plain failed.2.disk () = .ok ((), [1]) ∧
      reading plain next.2.disk () = .ok ((), [3, 2, 1]) :=
  ⟨synced_create rfl _ _ _ _ _, rfl, rfl, rfl, rfl, rfl⟩

end Held

end File

end Keyring

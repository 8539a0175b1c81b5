import Luft.Keyring.Vault

/-!
# Who may use what

The rules of `keyring/daemon`: what is decided about an item without asking (`decide`), what was
granted until the keyring is locked (`Granted`), and what was remembered for good (`Choices`, the
entries of the portal's permission store that are about keyring items).

Grants are kept under the key of an item, choices under a text made from it (`entry`).  Neither says
which item had that key at the time, so a `Grant` and a `Choice` carry the `born` of the item they
were made for along with what the source keeps; nothing here reads it.
-/

set_option autoImplicit false

namespace Keyring

/-! ## Requesters -/

inductive Caller
  | you
  | app (id : String)
  | unknown
  deriving DecidableEq, Repr

inductive View
  | everything
  | sabineChromium
  deriving DecidableEq, Repr

structure Requester where
  caller : Caller
  connection : Option String
  view : View
  deriving DecidableEq, Repr

def SANDBOXED : String := "flatpak:"
def SABINE : String := "sabine"

/-- `strip_prefix` of the mark of sandboxed apps. -/
def sandboxedAppOf (key : String) : Option String :=
  if SANDBOXED.toList.isPrefixOf key.toList then
    some (String.ofList (key.toList.drop SANDBOXED.length))
  else none

namespace Requester

def sandboxedApp (r : Requester) : Option String :=
  match r.caller with
  | .app id => some id
  | _ => none

/-- The owner recorded on the items it creates. -/
def owner (r : Requester) : Option String :=
  match r.caller, r.view with
  | .app id, _ => some (SANDBOXED ++ id)
  | .you, .sabineChromium => some SABINE
  | _, _ => none

end Requester

/-! ## What is decided without asking -/

inductive Decision
  | allowed
  | denied
  | confirmItsYou
  | askTheApp
  deriving DecidableEq, Repr

def PORTAL_SCHEMA : String := "org.freedesktop.portal.Secret"
def PASSKEY_SCHEMA : String := "com.lantharos.Passkey"

def sandboxedOwner (item : Item) : Option String := item.owner.bind sandboxedAppOf

def isProtected (item : Item) : Bool :=
  (item.attributes.lookup "xdg:schema").any fun schema ↦
    schema = PORTAL_SCHEMA ∨ schema = PASSKEY_SCHEMA

def decide (requester : Requester) (item : Item) : Decision :=
  let owner := sandboxedOwner item
  match requester.caller with
  | .you => .allowed
  | .app id =>
    if owner = some id then .allowed
    else if isProtected item then .denied
    else if owner.isSome then .confirmItsYou
    else .askTheApp
  | .unknown => if isProtected item then .denied else .askTheApp

/-! ## Grants -/

/-- Collection and number. -/
abbrev ItemKey := String × ℕ

inductive Grantee
  | connection (name : String)
  | app (id : String)
  deriving DecidableEq, Repr

def Grantee.of (requester : Requester) : Option Grantee :=
  match requester.caller, requester.connection with
  | .app id, _ => some (.app id)
  | .you, some name => some (.connection name)
  | .unknown, some name => some (.connection name)
  | _, _ => none

/-- A key, and the item that had it. -/
structure Named where
  key : ItemKey
  born : ℕ
  deriving DecidableEq, Repr

structure Grant where
  grantee : Grantee
  item : Named
  deriving DecidableEq, Repr

/-- The set of what was granted. -/
abbrev Granted := List Grant

namespace Granted

/-- The grant that lets the requester use the key, if there is one. -/
def find (granted : Granted) (requester : Requester) (key : ItemKey) : Option Grant :=
  (Grantee.of requester).bind fun grantee ↦
    List.find? (fun grant ↦ grant.grantee = grantee ∧ grant.item.key = key) granted

def contains (granted : Granted) (requester : Requester) (key : ItemKey) : Bool :=
  (granted.find requester key).isSome

def add (granted : Granted) (requester : Requester) (items : List Named) : Granted :=
  match Grantee.of requester with
  | none => granted
  | some grantee => items.map (fun item ↦ { grantee, item }) ++ granted

def forgetConnection (granted : Granted) (connection : String) : Granted :=
  List.filter (fun grant ↦ grant.grantee ≠ .connection connection) granted

theorem mem_of_find {granted : Granted} {requester : Requester} {key : ItemKey} {grant : Grant}
    (h : granted.find requester key = some grant) : grant ∈ granted ∧ grant.item.key = key := by
  obtain ⟨grantee, -, hfind⟩ := Option.bind_eq_some_iff.1 h
  have hkey := List.find?_some hfind
  simp only [Bool.decide_and, Bool.and_eq_true, decide_eq_true_eq] at hkey
  exact ⟨List.mem_of_find?_eq_some hfind, hkey.2⟩

theorem mem_add {granted : Granted} {requester : Requester} {items : List Named} {grant : Grant}
    (h : grant ∈ granted.add requester items) : grant ∈ granted ∨ grant.item ∈ items := by
  rw [add] at h
  split at h
  · exact .inl h
  · rcases List.mem_append.1 h with h | h
    · obtain ⟨item, hitem, rfl⟩ := List.mem_map.1 h
      exact .inr hitem
    · exact .inl h

end Granted

/-! ## Remembered choices -/

/-- The id of an item's entry in the permission store. -/
def entry (item : ItemKey) : String := item.1 ++ "/" ++ toString item.2

/-- What an app was answered about an entry. -/
structure Choice where
  id : String
  app : String
  allowed : Bool
  born : ℕ
  deriving DecidableEq, Repr

/-- The table of the permission store that is about keyring items. -/
abbrev Choices := List Choice

namespace Choices

def find (choices : Choices) (id app : String) : Option Choice :=
  List.find? (fun choice ↦ choice.id = id ∧ choice.app = app) choices

/-- What the app was given in one entry: yes, no, or nothing yet. -/
def answer (choices : Choices) (id app : String) : Option Bool :=
  (choices.find id app).map Choice.allowed

def set (choices : Choices) (choice : Choice) : Choices :=
  choice :: List.filter (fun other ↦ ¬ (other.id = choice.id ∧ other.app = choice.app)) choices

/-- Remove an entry, whatever apps are in it. -/
def remove (choices : Choices) (id : String) : Choices :=
  List.filter (fun choice ↦ choice.id ≠ id) choices

/-- Remove an app from all entries, as Settings does. -/
def forget (choices : Choices) (app : String) : Choices :=
  List.filter (fun choice ↦ choice.app ≠ app) choices

/-- The ids of the entries. -/
def entries (choices : Choices) : List String := (choices.map Choice.id).dedup

theorem mem_of_find {choices : Choices} {id app : String} {choice : Choice}
    (h : choices.find id app = some choice) : choice ∈ choices ∧ choice.id = id := by
  have hid := List.find?_some h
  simp only [Bool.decide_and, Bool.and_eq_true, decide_eq_true_eq] at hid
  exact ⟨List.mem_of_find?_eq_some h, hid.1⟩

theorem mem_set {choices : Choices} {choice other : Choice} (h : other ∈ choices.set choice) :
    other = choice ∨ other ∈ choices := by
  rcases List.mem_cons.1 h with h | h
  · exact .inl h
  · exact .inr (List.mem_filter.1 h).1

end Choices

/-! ## Entries name one item each -/

private theorem split_at_last {α : Type*} {s : α} :
    ∀ {l l' r r' : List α}, s ∉ l → s ∉ l' → l ++ s :: r = l' ++ s :: r' → l = l' ∧ r = r'
  | [], [], r, r', _, _, h => ⟨rfl, (List.cons.inj h).2⟩
  | [], a :: l', r, r', _, hl', h => by
    rw [List.nil_append, List.cons_append, List.cons.injEq] at h
    exact absurd (h.1 ▸ List.mem_cons_self) hl'
  | a :: l, [], r, r', hl, _, h => by
    rw [List.nil_append, List.cons_append, List.cons.injEq] at h
    exact absurd (h.1 ▸ List.mem_cons_self) hl
  | a :: l, b :: l', r, r', hl, hl', h => by
    rw [List.cons_append, List.cons_append, List.cons.injEq] at h
    obtain ⟨rfl, h⟩ := h
    obtain ⟨rfl, hr⟩ := split_at_last (fun hs ↦ hl (List.mem_cons_of_mem a hs))
      (fun hs ↦ hl' (List.mem_cons_of_mem a hs)) h
    exact ⟨rfl, hr⟩

/-- The digits of a number contain no slash. -/
private theorem slash_notMem_toDigits (n : ℕ) : '/' ∉ Nat.toDigits 10 n := by
  intro h
  have hdigit := Nat.isDigit_of_mem_toDigits (by decide) (by decide) h
  exact absurd hdigit (by decide)

/-- **Two keys never share an entry**: the number is what follows the last slash. -/
theorem entry_injective {a b : ItemKey} (h : entry a = entry b) : a = b := by
  have hlists := congrArg String.toList h
  simp only [entry, String.toList_append, Nat.toString_eq_repr, Nat.toList_repr] at hlists
  have hrev := congrArg List.reverse hlists
  simp only [List.reverse_append, List.append_assoc, show "/".toList = ['/'] from rfl,
    List.singleton_append, List.reverse_cons] at hrev
  obtain ⟨hdigits, hname⟩ := split_at_last (fun hs ↦ slash_notMem_toDigits a.2 (by simpa using hs))
    (fun hs ↦ slash_notMem_toDigits b.2 (by simpa using hs)) hrev
  have hnumber : a.2 = b.2 := by
    have := congrArg (fun l ↦ Nat.ofDigitChars 10 l 0) (List.reverse_injective hdigits)
    simpa only [Nat.ofDigitChars_ten_toDigits] using this
  exact Prod.ext (String.toList_inj.1 (List.reverse_injective hname)) hnumber

end Keyring
